import DataBinding.Proofs.TokenLexemes

namespace DataBinding.Markup

/-- Why scanning stops: a piece of the text was asked for that begins or ends inside of a character or after the end, a
change of the forest is refused, or there is an error in the text. -/
inductive Halt where
  | crash
  | refused (error : DocumentError)
  | error (error : DocumentError)
  deriving DecidableEq

def bytes (cs : List Char) : List UInt8 := cs.flatMap String.utf8EncodeChar

def cutAt? : List Char → Nat → Option (List Char × List Char)
  | cs, 0 => some ([], cs)
  | [], _ + 1 => none
  | c :: cs, n + 1 =>
    if c.utf8Size ≤ n + 1 then
      (cutAt? cs (n + 1 - c.utf8Size)).map fun (before, rest) => (c :: before, rest)
    else none

def restAt (text : List Char) (pos : Nat) : Except Halt (List Char) :=
  match cutAt? text pos with
  | some (_, rest) => .ok rest
  | none => .error .crash

def upTo (cs : List Char) (count : Nat) : Except Halt (List Char) :=
  match cutAt? cs count with
  | some (before, _) => .ok before
  | none => .error .crash

def onByte (p : Char → Bool) (b : UInt8) : Bool := p (Char.ofUInt8 b)

def startsWithByte (p : Char → Bool) (cs : List Char) : Bool := (bytes cs)[0]?.any (onByte p)

def opensTag (cs : List Char) : Bool := startsWithByte (· = '<') cs && (bytes cs)[1]?.any (onByte Char.isAlpha)

def closesTag (cs : List Char) : Bool :=
  ['<', '/'].isPrefixOf cs && (bytes cs)[2]?.any (onByte Char.isAlpha)

def find? (mark cs : List Char) : Option Nat := (Text.cut? mark cs).map fun (before, _) => byteCount before

def angles : List Char → Nat → List Nat
  | [], _ => []
  | c :: cs, n => if c = '<' then n :: angles cs (n + c.utf8Size) else angles cs (n + c.utf8Size)

def findMarkup (cs : List Char) : List Nat → Except Halt (Option Nat)
  | [] => .ok none
  | n :: ns => do
    let tail ← restAt cs n
    if startsComment tail || opensTag tail || closesTag tail then return some n else findMarkup cs ns

section

variable (text : List Char) (pos : Nat)

def readWhile (p : Char → Bool) : Except Halt (List Char × Nat) := do
  let rest ← restAt text pos
  let count := ((bytes rest).takeWhile (onByte p)).length
  return (← upTo rest count, pos + count)

def readComment : Except Halt Nat := do
  let rest ← restAt text pos
  match find? ['-', '-', '>'] rest with
  | some count => return pos + count + 3
  | none => throw (.error (.malformed pos .openComment))

def readClosingTag : Except Halt (String × Nat) := do
  let (name, pos) ← readWhile text (pos + 2) isTagChar
  let (_, pos) ← readWhile text pos isSpace
  let rest ← restAt text pos
  if startsWithByte (· = '>') rest then return (String.ofList (Text.lower name), pos + 1)
  else throw (.error (.malformed pos .openClosingTag))

def readText : Except Halt (List Char × Nat) := do
  let rest ← restAt text pos
  let count := (← findMarkup rest (angles rest 0)).getD (byteCount rest)
  return (unescape (← upTo rest count), pos + count)

def isQuote (c : Char) : Bool := c = '"' || c = '\''

def readValue : Except Halt (List Char × Nat) := do
  let rest ← restAt text pos
  match (bytes rest)[0]? with
  | some b =>
    if onByte isQuote b then
      let body ← restAt rest 1
      match find? [Char.ofUInt8 b] body with
      | some count => return (unescape (← upTo body count), pos + count + 2)
      | none => throw (.error (.malformed pos .openValue))
    else
      let (raw, pos) ← readWhile text pos isValueChar
      return (unescape raw, pos)
  | none =>
    let (raw, pos) ← readWhile text pos isValueChar
    return (unescape raw, pos)

def readValueAfterName : Except Halt (List Char × Nat) := do
  let (_, pos) ← readWhile text pos isSpace
  let rest ← restAt text pos
  if ['='].isPrefixOf rest then
    let (_, pos) ← readWhile text (pos + 1) isSpace
    readValue text pos
  else return ([], pos)

inductive Round where
  | ended (closed : Bool)
  | stray
  | pair (name value : List Char)

def readRound (tag : String) : Except Halt (Round × Nat) := do
  let (_, pos) ← readWhile text pos isSpace
  let rest ← restAt text pos
  if rest.isEmpty then throw (.error (.malformed pos (.openTag tag)))
  if ['/', '>'].isPrefixOf rest then return (.ended true, pos + 2)
  if ['>'].isPrefixOf rest then return (.ended false, pos + 1)
  let (name, pos) ← readWhile text pos isAttributeChar
  if name.isEmpty then return (.stray, pos + 1)
  let (value, pos) ← readValueAfterName text pos
  return (.pair name value, pos)

end

variable {text cs w r rest : List Char} {c : Char} {p : Char → Bool}

@[simp]
theorem cutAt?_append (before rest : List Char) : cutAt? (before ++ rest) (byteCount before) = some (before, rest) := by
  induction before with
  | nil =>
    rw [List.nil_append]
    cases rest <;> rfl
  | cons c before ih =>
    obtain ⟨n, size⟩ : ∃ n, c.utf8Size = n + 1 := ⟨_, (Nat.succ_pred_eq_of_pos c.utf8Size_pos).symm⟩
    rw [List.cons_append, byteCount, size, Nat.add_right_comm, cutAt?, if_pos (by omega)]
    rw [show n + byteCount before + 1 - c.utf8Size = byteCount before by omega, ih]
    rfl

def place (text rest : List Char) : Nat := byteCount text - byteCount rest

@[simp] theorem restAt_place (within : rest <:+ text) : restAt text (place text rest) = .ok rest := by
  obtain ⟨before, rfl⟩ := within
  rw [place, byteCount_append, Nat.add_sub_cancel, restAt, cutAt?_append]

@[simp] theorem upTo_append (before rest : List Char) : upTo (before ++ rest) (byteCount before) = .ok before := by
  rw [upTo, cutAt?_append]

theorem place_add (within : w ++ r <:+ text) : place text (w ++ r) + byteCount w = place text r := by
  have := byteCount_le_of_suffix within
  rw [byteCount_append] at this
  rw [place, place, byteCount_append]
  omega

theorem place_lt (within : w ++ r <:+ text) (filled : w ≠ []) : place text (w ++ r) < place text r := by
  have := byteCount_pos filled
  have := place_add within
  omega

theorem utf8ByteSize_ofList (cs : List Char) : (String.ofList cs).utf8ByteSize = byteCount cs := by
  induction cs with
  | nil => rfl
  | cons c cs ih =>
    rw [byteCount, ← ih, String.ofList_cons, String.utf8ByteSize_append, String.utf8ByteSize_singleton]

theorem utf8ByteSize_eq (text : String) : text.utf8ByteSize = byteCount text.toList := by
  rw [← utf8ByteSize_ofList, String.ofList_toList]

theorem isValid_place {text : String} (within : rest <:+ text.toList) :
    (String.Pos.Raw.mk (place text.toList rest)).IsValid text := by
  obtain ⟨before, whole⟩ := within
  refine String.Pos.Raw.isValid_iff_exists_append.2 ⟨.ofList before, .ofList rest, ?_, ?_⟩
  · rw [← String.ofList_append, whole, String.ofList_toList]
  · rw [place, ← whole, byteCount_append, Nat.add_sub_cancel, String.rawEndPos, utf8ByteSize_ofList]

@[simp] theorem place_self (text : List Char) : place text text = 0 := Nat.sub_self _

theorem place_le (text rest : List Char) : place text rest ≤ byteCount text := Nat.sub_le _ _

def Uniform (p : Char → Bool) : Prop := ∃ b, ∀ c : Char, 128 ≤ c.toNat → p c = b

@[simp] theorem length_bytes (cs : List Char) : (bytes cs).length = byteCount cs := by
  induction cs with
  | nil => rfl
  | cons c cs ih =>
    rw [bytes, List.flatMap_cons, List.length_append, String.length_utf8EncodeChar, ← bytes, ih]
    rfl

@[simp] theorem toNat_ofUInt8_ofNat (n : Nat) : (Char.ofUInt8 (UInt8.ofNat n)).toNat = n % 256 := by
  change (UInt8.ofNat n).toUInt32.toNat = n % 256
  rw [UInt8.toNat_toUInt32, UInt8.toNat_ofNat']

theorem utf8EncodeChar_of_lt (small : c.toNat < 128) :
    String.utf8EncodeChar c = [UInt8.ofNat c.toNat] ∧ Char.ofUInt8 (UInt8.ofNat c.toNat) = c := by
  constructor
  · have small : c.val.toNat ≤ 127 := Nat.le_of_lt_succ small
    rw [String.utf8EncodeChar, if_pos small]
    rfl
  · rw [← Char.toNat_inj, toNat_ofUInt8_ofNat, Nat.mod_eq_of_lt (by omega)]

theorem le_of_mem_utf8EncodeChar (large : 128 ≤ c.toNat) {b : UInt8} (mem : b ∈ String.utf8EncodeChar c) :
    128 ≤ (Char.ofUInt8 b).toNat := by
  have large : ¬ c.val.toNat ≤ 127 := Nat.not_le_of_lt large
  rw [String.utf8EncodeChar, if_neg large] at mem
  split at mem
  · simp only [List.mem_cons, List.not_mem_nil, or_false] at mem
    rcases mem with rfl | rfl <;> rw [toNat_ofUInt8_ofNat] <;> omega
  split at mem
  · simp only [List.mem_cons, List.not_mem_nil, or_false] at mem
    rcases mem with rfl | rfl | rfl <;> rw [toNat_ofUInt8_ofNat] <;> omega
  · simp only [List.mem_cons, List.not_mem_nil, or_false] at mem
    rcases mem with rfl | rfl | rfl | rfl <;> rw [toNat_ofUInt8_ofNat] <;> omega

theorem onByte_of_mem (uniform : Uniform p) {b : UInt8} (mem : b ∈ String.utf8EncodeChar c) : onByte p b = p c := by
  rcases Nat.lt_or_ge c.toNat 128 with small | large
  · obtain ⟨one, back⟩ := utf8EncodeChar_of_lt small
    rw [one, List.mem_singleton] at mem
    rw [onByte, mem, back]
  · obtain ⟨found, uniform⟩ := uniform
    exact (uniform _ (le_of_mem_utf8EncodeChar large mem)).trans (uniform c large).symm

theorem takeWhile_bytes (uniform : Uniform p) (cs : List Char) :
    (bytes cs).takeWhile (onByte p) = bytes (cs.takeWhile p) := by
  induction cs with
  | nil => rfl
  | cons c cs ih =>
    have same : ∀ b ∈ String.utf8EncodeChar c, onByte p b = p c := fun b => onByte_of_mem uniform
    rw [bytes, List.flatMap_cons, ← bytes, List.takeWhile_cons]
    cases h : p c with
    | true =>
      rw [List.takeWhile_append_of_pos (fun b mem => (same b mem).trans h), ih]
      rfl
    | false =>
      obtain ⟨b, bs, encoded⟩ := List.exists_cons_of_ne_nil (String.utf8EncodeChar_ne_nil (c := c))
      have stops : onByte p b = false := (same b (by rw [encoded]; exact List.mem_cons_self)).trans h
      rw [encoded, List.cons_append, List.takeWhile_cons, stops]
      rfl

theorem startsWithByte_eq (uniform : Uniform p) (cs : List Char) : startsWithByte p cs = cs.head?.any p := by
  cases cs with
  | nil => rfl
  | cons c cs =>
    obtain ⟨b, bs, encoded⟩ := List.exists_cons_of_ne_nil (String.utf8EncodeChar_ne_nil (c := c))
    have first : onByte p b = p c := onByte_of_mem uniform (by rw [encoded]; exact List.mem_cons_self)
    rw [startsWithByte, bytes, List.flatMap_cons, encoded]
    exact first

theorem ne_of_le {d : Char} (large : 128 ≤ c.toNat) (small : d.toNat < 128) : c ≠ d := by
  rintro rfl
  omega

theorem uniform_eq {d : Char} (small : d.toNat < 128) : Uniform (· = d) :=
  ⟨false, fun _ large => decide_eq_false (ne_of_le large small)⟩

theorem isAlphanum_of_le (large : 128 ≤ c.toNat) : c.isAlphanum = false := by
  unfold Char.isAlphanum Char.isAlpha Char.isUpper Char.isLower Char.isDigit
  simp [UInt32.le_iff_toNat_le]
  omega

theorem uniform_isAlpha : Uniform Char.isAlpha :=
  ⟨false, fun _ large => (Bool.or_eq_false_iff.1 (isAlphanum_of_le large)).1⟩

theorem uniform_isTagChar : Uniform isTagChar :=
  ⟨false, fun c large => by simp [isTagChar, isAlphanum_of_le large, ne_of_le large]⟩

theorem uniform_isSpace : Uniform isSpace :=
  ⟨false, fun c large => by simp [isSpace, ne_of_le large]⟩

theorem uniform_isAttributeChar : Uniform isAttributeChar :=
  ⟨true, fun c large => by simp [isAttributeChar, isSpace, ne_of_le large]⟩

theorem uniform_isValueChar : Uniform isValueChar :=
  ⟨true, fun c large => by simp [isValueChar, isSpace, ne_of_le large]⟩

theorem uniform_isQuote : Uniform isQuote :=
  ⟨false, fun c large => by simp [isQuote, ne_of_le large]⟩

theorem bytes_cons (small : c.toNat < 128) (cs : List Char) : bytes (c :: cs) = UInt8.ofNat c.toNat :: bytes cs := by
  rw [bytes, List.flatMap_cons, (utf8EncodeChar_of_lt small).1]
  rfl

theorem opensTag_eq (cs : List Char) : opensTag cs = startsTag cs := by
  rw [opensTag, startsWithByte_eq (uniform_eq (by decide))]
  cases cs with
  | nil => rfl
  | cons c cs =>
    by_cases opens : c = '<'
    · subst opens
      have second := startsWithByte_eq uniform_isAlpha cs
      rw [bytes_cons (by decide), List.getElem?_cons_succ, ← startsWithByte, second]
      cases cs <;> rfl
    · simp [startsTag, opens]

theorem closesTag_eq (cs : List Char) : closesTag cs = startsClose cs := by
  have third (cs : List Char) : closesTag ('<' :: '/' :: cs) = startsClose ('<' :: '/' :: cs) := by
    have first := startsWithByte_eq uniform_isAlpha cs
    rw [closesTag, bytes_cons (by decide), bytes_cons (by decide), List.getElem?_cons_succ, List.getElem?_cons_succ,
      ← startsWithByte, first]
    cases cs <;> rfl
  cases opens : ['<', '/'].isPrefixOf cs with
  | true =>
    obtain ⟨cs, rfl⟩ := List.isPrefixOf_iff_prefix.1 opens
    exact third cs
  | false =>
    rw [closesTag, opens, Bool.false_and]
    unfold startsClose
    split
    · simp at opens
    · rfl

theorem readWhile_place (uniform : Uniform p) (within : rest <:+ text) :
    readWhile text (place text rest) p = .ok (rest.takeWhile p, place text (rest.dropWhile p)) := by
  have parts := List.takeWhile_append_dropWhile (p := p) (l := rest)
  rw [← parts] at within
  have moved := place_add within
  rw [parts] at within moved
  have taken := upTo_append (rest.takeWhile p) (rest.dropWhile p)
  rw [parts] at taken
  rw [readWhile, restAt_place within]
  simp only [bind, Except.bind, takeWhile_bytes uniform, length_bytes, taken, pure, Except.pure, moved]

def moved {α : Type} (text : List Char) : Except Stop (α × List Char) → Except Halt (α × Nat)
  | .ok (a, rest) => .ok (a, place text rest)
  | .error stop => .error (.error (.malformed (place text stop.rest) stop.fault))

theorem find?_eq_some {mark before : List Char} (found : Text.cut? mark cs = some (before, rest)) :
    find? mark cs = some (byteCount before) := by
  rw [find?, found]
  rfl

theorem find?_eq_none {mark : List Char} (found : Text.cut? mark cs = none) : find? mark cs = none := by
  rw [find?, found]
  rfl

theorem readComment_place (within : rest <:+ text) :
    readComment text (place text rest) = Prod.snd <$> moved text (comment rest) := by
  rw [readComment, restAt_place within, comment]
  cases found : Text.cut? ['-', '-', '>'] rest with
  | none =>
    simp only [bind, Except.bind, find?_eq_none found]
    rfl
  | some parts =>
    obtain ⟨before, after⟩ := parts
    obtain rfl := Text.eq_of_cut? found
    have ended := place_add within
    rw [byteCount_append] at ended
    have mark : byteCount ['-', '-', '>'] = 3 := rfl
    simp only [bind, Except.bind, find?_eq_some found]
    rw [Nat.add_assoc, ← mark, ended]
    rfl

theorem readClosingTag_place (within : '<' :: '/' :: cs <:+ text) :
    readClosingTag text (place text ('<' :: '/' :: cs)) = match skipSpace (tagName cs).2 with
      | '>' :: r => .ok ((tagName cs).1, place text r)
      | r => .error (.error (.malformed (place text r) .openClosingTag)) := by
  have opened : place text ('<' :: '/' :: cs) + 2 = place text cs := place_add (w := ['<', '/']) within
  have inner : cs <:+ text := (List.suffix_append ['<', '/'] cs).trans within
  have named : cs.dropWhile isTagChar <:+ text := (List.dropWhile_suffix _).trans inner
  have ended : skipSpace (cs.dropWhile isTagChar) <:+ text := (List.dropWhile_suffix _).trans named
  have tail : (tagName cs).2 = cs.dropWhile isTagChar := rfl
  rw [readClosingTag, opened, readWhile_place uniform_isTagChar inner, tail]
  simp only [bind, Except.bind, readWhile_place uniform_isSpace named]
  rw [← skipSpace, restAt_place ended]
  dsimp only
  rw [startsWithByte_eq (uniform_eq (by decide))]
  generalize skipSpace (cs.dropWhile isTagChar) = after at ended
  cases after with
  | nil => rfl
  | cons c r =>
    by_cases closes : c = '>'
    · subst closes
      have last : place text ('>' :: r) + 1 = place text r := place_add (w := ['>']) ended
      rw [if_pos (by rfl), last]
      rfl
    · rw [if_neg (by simpa using closes)]
      split
      · next same => exact absurd (List.cons.inj same).1 closes
      · rfl

theorem findMarkup_angles (before cs : List Char) :
    (·.getD (byteCount (before ++ cs))) <$> findMarkup (before ++ cs) (angles cs (byteCount before)) =
      .ok (byteCount (before ++ (splitText cs).1)) := by
  induction cs generalizing before with
  | nil => rfl
  | cons c cs ih =>
    have next : byteCount (before ++ [c]) = byteCount before + c.utf8Size := by
      rw [byteCount_append]
      rfl
    have later := ih (before ++ [c])
    rw [next, ← List.append_cons] at later
    by_cases angle : c = '<'
    · have here : restAt (before ++ c :: cs) (place (before ++ c :: cs) (c :: cs)) = .ok (c :: cs) :=
        restAt_place (List.suffix_append before (c :: cs))
      rw [place, byteCount_append, Nat.add_sub_cancel] at here
      rw [angles, if_pos angle, findMarkup, here]
      simp only [bind, Except.bind]
      rw [opensTag_eq, closesTag_eq]
      have starts : (startsComment (c :: cs) || startsTag (c :: cs) || startsClose (c :: cs)) =
          startsMarkup (c :: cs) := Bool.or_right_comm _ _ _
      rw [starts]
      cases markup : startsMarkup (c :: cs) with
      | true =>
        rw [splitText, if_pos markup]
        simp
        rfl
      | false =>
        rw [splitText_cons markup]
        simpa using later
    · have plain := startsMarkup_of_ne angle cs
      rw [angles, if_neg angle, later, splitText_cons plain]
      simp

theorem splitText_append_eq (cs : List Char) : (splitText cs).1 ++ (splitText cs).2 = cs :=
  (splitText_eq_iff.1 rfl).1.symm

theorem readText_place (within : rest <:+ text) :
    readText text (place text rest) = .ok (unescape (splitText rest).1, place text (splitText rest).2) := by
  have count := findMarkup_angles [] rest
  rw [List.nil_append, List.nil_append, byteCount] at count
  have taken := upTo_append (splitText rest).1 (splitText rest).2
  have last : place text ((splitText rest).1 ++ (splitText rest).2) + byteCount (splitText rest).1 =
      place text (splitText rest).2 := place_add (by rwa [splitText_append_eq])
  rw [splitText_append_eq] at taken last
  rw [readText, restAt_place within]
  simp only [bind, Except.bind]
  cases found : findMarkup rest (angles rest 0) with
  | error halt =>
    rw [found] at count
    cases count
  | ok first =>
    rw [found] at count
    have count : first.getD (byteCount rest) = byteCount (splitText rest).1 := Except.ok.inj count
    dsimp only
    rw [count, taken, last]
    rfl

theorem readWhile_value (within : rest <:+ text) :
    (readWhile text (place text rest) isValueChar >>= fun (raw, pos) => pure (unescape raw, pos)) =
      .ok (unescape (rest.takeWhile isValueChar), place text (rest.dropWhile isValueChar)) := by
  rw [readWhile_place uniform_isValueChar within]
  rfl

theorem readQuoted_place (within : c :: cs <:+ text) (one : c.utf8Size = 1) :
    (match find? [c] cs with
      | some count => return (unescape (← upTo cs count), place text (c :: cs) + count + 2)
      | none => throw (.error (.malformed (place text (c :: cs)) .openValue))) =
      moved text (match Text.cut? [c] cs with
        | some (before, r) => .ok (unescape before, r)
        | none => .error ⟨c :: cs, .openValue⟩) := by
  cases found : Text.cut? [c] cs with
  | none =>
    rw [find?_eq_none found]
    rfl
  | some parts =>
    obtain ⟨before, r⟩ := parts
    obtain rfl := Text.eq_of_cut? found
    have last : place text (c :: (before ++ [c] ++ r)) + byteCount before + 2 = place text r := by
      have ended : place text (c :: before ++ [c] ++ r) + byteCount (c :: before ++ [c]) = place text r :=
        place_add (by simpa using within)
      rw [byteCount_append, byteCount, byteCount, byteCount, one] at ended
      rw [← ended, List.cons_append, List.cons_append]
      omega
    rw [find?_eq_some found, List.append_assoc]
    dsimp only
    rw [upTo_append, ← List.append_assoc, last]
    rfl

theorem readValue_place (within : rest <:+ text) : readValue text (place text rest) = moved text (value rest) := by
  rw [readValue, restAt_place within]
  simp only [bind, Except.bind]
  cases rest with
  | nil => exact readWhile_value within
  | cons c body =>
    obtain ⟨b, bs, encoded⟩ := List.exists_cons_of_ne_nil (String.utf8EncodeChar_ne_nil (c := c))
    have first : (bytes (c :: body))[0]? = some b := by
      rw [bytes, List.flatMap_cons, encoded]
      rfl
    have same : onByte isQuote b = isQuote c :=
      onByte_of_mem uniform_isQuote (by rw [encoded]; exact List.mem_cons_self)
    rw [first, value]
    dsimp only
    rw [same, ← isQuote]
    cases quote : isQuote c with
    | false => exact readWhile_value within
    | true =>
      have two : c = '"' ∨ c = '\'' := by simpa [isQuote] using quote
      have small : c.toNat < 128 := by rcases two with rfl | rfl <;> decide
      have one : c.utf8Size = 1 := by rcases two with rfl | rfl <;> rfl
      have inner : restAt (c :: body) 1 = .ok body := by
        have after := restAt_place (List.suffix_cons c body)
        rwa [place, byteCount, Nat.add_sub_cancel, one] at after
      obtain ⟨encoded', back⟩ := utf8EncodeChar_of_lt small
      obtain rfl : b = UInt8.ofNat c.toNat := (List.cons.inj (encoded.symm.trans encoded')).1
      rw [back, inner]
      exact readQuoted_place within one

theorem readValueAfterName_place (within : rest <:+ text) :
    readValueAfterName text (place text rest) = moved text (valueAfterName rest) := by
  have space : skipSpace rest <:+ text := (List.dropWhile_suffix _).trans within
  rw [readValueAfterName, readWhile_place uniform_isSpace within]
  simp only [bind, Except.bind]
  rw [← skipSpace, restAt_place space, valueAfterName]
  dsimp only
  generalize skipSpace rest = after at space
  cases opens : ['='].isPrefixOf after with
  | true =>
    obtain ⟨r, rfl⟩ := List.isPrefixOf_iff_prefix.1 opens
    have inner : r <:+ text := (List.suffix_cons _ _).trans space
    have opened : place text (['='] ++ r) + 1 = place text r := place_add space
    rw [if_pos rfl, opened, readWhile_place uniform_isSpace inner]
    exact readValue_place ((List.dropWhile_suffix _).trans inner)
  | false =>
    rw [if_neg Bool.false_ne_true]
    split
    · simp at opens
    · rfl

section

variable {tag : String} {found : Fields String}

theorem attributes_of_nil (h : skipSpace cs = []) : attributes tag found cs = .error ⟨[], .openTag tag⟩ := by
  rw [attributes]
  split <;> simp_all

theorem attributes_of_slash (h : skipSpace cs = '/' :: '>' :: r) : attributes tag found cs = .ok (found, true, r) := by
  rw [attributes]
  split <;> simp_all

theorem attributes_of_stray (h : skipSpace cs = c :: r) (stray : isAttributeChar c = false) (open' : c ≠ '>')
    (apart : ∀ r', c :: r ≠ '/' :: '>' :: r') : attributes tag found cs = attributes tag found r := by
  rw [attributes]
  split
  · simp_all
  · next here => exact absurd (h.symm.trans here) (apart _)
  · next here =>
    rw [h] at here
    exact absurd (List.cons.inj here).1 open'
  · next here =>
    rw [h] at here
    cases here
    rw [if_neg (by rw [stray]; exact Bool.false_ne_true)]

theorem attributes_of_fault {stop : Stop} (h : skipSpace cs = c :: r) (named : isAttributeChar c = true)
    (failed : valueAfterName (r.dropWhile isAttributeChar) = .error stop) :
    attributes tag found cs = .error stop := by
  rw [attributes]
  split
  · simp_all
  · next here =>
    rw [h] at here
    cases here
    simp [isAttributeChar] at named
  · next here =>
    rw [h] at here
    cases here
    simp [isAttributeChar] at named
  · next here =>
    rw [h] at here
    cases here
    rw [if_pos named]
    split <;> simp_all

end

/-- What a round finds is what the reader takes from the text, and it moves the cursor on. -/
inductive Turns (tag : String) (text rest : List Char) : Except Halt (Round × Nat) → Prop
  | failed (stop : Stop) (within : stop.rest <:+ text) (same : ∀ found, attributes tag found rest = .error stop) :
    Turns tag text rest (.error (.error (.malformed (place text stop.rest) stop.fault)))
  | ended (closed : Bool) (w r : List Char) (filled : w ≠ []) (parts : rest = w ++ r)
    (same : ∀ found, attributes tag found rest = .ok (found, closed, r)) :
    Turns tag text rest (.ok (.ended closed, place text r))
  | stray (w r : List Char) (filled : w ≠ []) (parts : rest = w ++ r)
    (same : ∀ found, attributes tag found rest = attributes tag found r) :
    Turns tag text rest (.ok (.stray, place text r))
  | pair (name value w r : List Char) (filled : w ≠ []) (parts : rest = w ++ r)
    (named : isAttributeName (String.ofList name) = true)
    (same : ∀ found, attributes tag found rest =
      attributes tag (found.set (String.ofList name) (String.ofList value)) r) :
    Turns tag text rest (.ok (.pair name value, place text r))

theorem utf8Size_of_stray (stray : isAttributeChar c = false) (solid : isSpace c = false) : c.utf8Size = 1 := by
  simp only [isAttributeChar, solid, Bool.not_false, Bool.true_and, Bool.and_eq_false_iff, decide_eq_false_iff_not,
    ne_eq, Decidable.not_not] at stray
  rcases stray with (((rfl | rfl) | rfl) | rfl) | rfl <;> rfl

theorem turns_on {tag : String} (within : rest <:+ text) (here : skipSpace rest = c :: r) (open' : c ≠ '>')
    (apart : ∀ r', c :: r ≠ '/' :: '>' :: r') :
    Turns tag text rest (do
      let (name, pos) ← readWhile text (place text (c :: r)) isAttributeChar
      if name.isEmpty then return (.stray, pos + 1)
      let (value, pos) ← readValueAfterName text pos
      return (.pair name value, pos)) := by
  have space : c :: r <:+ text := here ▸ (List.dropWhile_suffix _).trans within
  have blanks : rest = rest.takeWhile isSpace ++ c :: r := by
    rw [← here, skipSpace, List.takeWhile_append_dropWhile]
  have solid : isSpace c = false := head_of_dropWhile isSpace rest c (by rw [← skipSpace, here]; rfl)
  rw [readWhile_place uniform_isAttributeChar space]
  simp only [bind, Except.bind]
  cases named : isAttributeChar c with
  | false =>
    have last : place text (c :: r) + 1 = place text r := by
      rw [← utf8Size_of_stray named solid]
      exact place_add (w := [c]) space
    rw [List.takeWhile_cons_of_neg (by simp [named]), List.dropWhile_cons_of_neg (by simp [named]), last]
    exact .stray (rest.takeWhile isSpace ++ [c]) r (by simp) (by simpa using blanks)
      fun _ => attributes_of_stray here named open' apart
  | true =>
    have after : r.dropWhile isAttributeChar <:+ text :=
      (List.dropWhile_suffix _).trans ((List.suffix_cons _ _).trans space)
    have readable : isAttributeName (String.ofList (c :: r.takeWhile isAttributeChar)) = true := by
      simp [isAttributeName, named]
    rw [List.takeWhile_cons_of_pos named, List.dropWhile_cons_of_pos named, readValueAfterName_place after]
    cases found : valueAfterName (r.dropWhile isAttributeChar) with
    | error stop =>
      exact .failed stop ((within_valueAfterName found).1.trans after) fun _ => attributes_of_fault here named found
    | ok result =>
      obtain ⟨value, r'⟩ := result
      obtain ⟨w, parts⟩ := suffix_valueAfterName found
      have whole : rest = rest.takeWhile isSpace ++ c :: r.takeWhile isAttributeChar ++ w ++ r' := by
        rw [List.append_assoc, parts, List.append_assoc, List.cons_append, List.takeWhile_append_dropWhile]
        exact blanks
      exact .pair _ value _ r' (by simp) whole readable fun _ => attributes_of_name here named found

theorem turns (tag : String) (within : rest <:+ text) :
    Turns tag text rest (readRound text (place text rest) tag) := by
  have space : skipSpace rest <:+ text := (List.dropWhile_suffix _).trans within
  have blanks : rest = rest.takeWhile isSpace ++ skipSpace rest := List.takeWhile_append_dropWhile.symm
  rw [readRound, readWhile_place uniform_isSpace within]
  simp only [bind, Except.bind]
  rw [← skipSpace, restAt_place space]
  dsimp only
  cases here : skipSpace rest with
  | nil => exact .failed ⟨[], .openTag tag⟩ List.nil_suffix fun _ => attributes_of_nil here
  | cons c r =>
    rw [here] at space blanks
    cases slash : ['/', '>'].isPrefixOf (c :: r) with
    | true =>
      obtain ⟨r', parts⟩ := List.isPrefixOf_iff_prefix.1 slash
      rw [← parts] at space blanks
      have last : place text (['/', '>'] ++ r') + 2 = place text r' := place_add space
      rw [← parts, last]
      exact .ended true (rest.takeWhile isSpace ++ ['/', '>']) r' (by simp) (by simpa using blanks)
        fun _ => attributes_of_slash (here.trans parts.symm)
    | false =>
      by_cases closes : c = '>'
      · subst closes
        have last : place text ('>' :: r) + 1 = place text r := place_add (w := ['>']) space
        exact last ▸ .ended false (rest.takeWhile isSpace ++ ['>']) r (by simp) (by simpa using blanks)
          fun _ => attributes_of_end here
      · have other : ['>'].isPrefixOf (c :: r) = false := by
          rw [Bool.eq_false_iff]
          intro opens
          obtain ⟨r', parts⟩ := List.isPrefixOf_iff_prefix.1 opens
          exact closes (List.cons.inj parts).1.symm
        rw [other]
        apply turns_on within here closes
        intro r' same
        rw [same] at slash
        simp at slash

end DataBinding.Markup
