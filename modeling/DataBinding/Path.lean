import DataBinding.Text.Blank
import DataBinding.Text.Search

namespace DataBinding

structure Path where
  parents : List String
  last : String
  deriving DecidableEq

namespace Path

def segments (p : Path) : List String := p.parents ++ [p.last]

def ofSegments? : List String → Option Path
  | [] => none
  | [key] => some ⟨[], key⟩
  | key :: rest => (ofSegments? rest).map fun p => ⟨key :: p.parents, p.last⟩

@[simp] theorem ofSegments?_segments (p : Path) : ofSegments? p.segments = some p := by
  obtain ⟨parents, last⟩ := p
  simp only [segments]
  induction parents with
  | nil => rfl
  | cons key rest ih =>
    cases rest with
    | nil => rfl
    | cons k ks => simpa [ofSegments?] using ih

theorem segments_of_ofSegments? {keys : List String} {p : Path} (h : ofSegments? keys = some p) :
    p.segments = keys := by
  induction keys generalizing p with
  | nil => simp [ofSegments?] at h
  | cons key rest ih =>
    cases rest with
    | nil => simp only [ofSegments?, Option.some.injEq] at h; subst h; rfl
    | cons k ks =>
      obtain ⟨q, hq, rfl⟩ := Option.map_eq_some_iff.1 h
      simpa [segments] using ih hq

def read? (raw : String) : Option Path :=
  let keys := (Text.pieces '.' (Text.trim raw.toList)).map Text.trim
  if keys.any List.isEmpty then none else ofSegments? (keys.map String.ofList)

def text (p : Path) : String := ".".intercalate p.segments

end Path

end DataBinding
