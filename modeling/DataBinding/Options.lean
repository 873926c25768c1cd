import DataBinding.Json.Reader
import DataBinding.Value

namespace DataBinding

inductive ChangeDetection where
  | strict
  | loose
  deriving DecidableEq

def ChangeDetection.same : ChangeDetection → Value → Value → Bool
  | .strict, a, b => a.strictEq b
  | .loose, a, b => a.looseEq b

structure Options where
  changeDetection : ChangeDetection := .strict
  strictDirectives : Bool := false
  legacyPrefixes : Bool := false
  deriving DecidableEq

namespace ChangeDetection

def ofName? : String → Option ChangeDetection
  | "strict" => some .strict
  | "loose" => some .loose
  | _ => none

def name : ChangeDetection → String
  | .strict => "strict"
  | .loose => "loose"

theorem ofName?_name (c : ChangeDetection) : ofName? c.name = some c := by cases c <;> rfl

/-- A name, or an object whose only member has that name and the content `null`. -/
def ofWritten? : Json.Written → Option ChangeDetection
  | .string (some name) => ofName? name
  | .object [(some name, .null)] => ofName? name
  | _ => none

end ChangeDetection

namespace Options

inductive Key where
  | changeDetection
  | strictDirectives
  | legacyPrefixes
  deriving DecidableEq

def Key.name : Key → String
  | .changeDetection => "change_detection"
  | .strictDirectives => "strict_directives"
  | .legacyPrefixes => "legacy_prefixes"

def Key.all : List Key := [.changeDetection, .strictDirectives, .legacyPrefixes]

def Key.ofName? (name : String) : Option Key := Key.all.find? (·.name = name)

def set (options : Options) : Key → Json.Written → Option Options
  | .changeDetection, w => (ChangeDetection.ofWritten? w).map ({ options with changeDetection := · })
  | .strictDirectives, .bool b => some { options with strictDirectives := b }
  | .legacyPrefixes, .bool b => some { options with legacyPrefixes := b }
  | _, _ => none

def setFields (options : Options) (seen : List Key) : List (Option String × Json.Written) → Option Options
  | [] => some options
  | (none, _) :: _ => none
  | (some name, w) :: rest => match Key.ofName? name with
    | none => setFields options seen rest
    | some key =>
      if key ∈ seen then none
      else (options.set key w).bind fun options => setFields options (key :: seen) rest

/-- Sets the options in order; there may be fewer values than options but not more. -/
def setItems (options : Options) : List Key → List Json.Written → Option Options
  | _, [] => some options
  | [], _ :: _ => none
  | key :: keys, w :: ws => (options.set key w).bind fun options => setItems options keys ws

def ofWritten? : Json.Written → Option Options
  | .object fields => setFields {} [] fields
  | .array items => setItems {} Key.all items
  | _ => none

def read? (text : String) : Option Options := (Json.Written.read? text).bind ofWritten?

end Options

end DataBinding
