import DataBinding.Double.Shortest
import DataBinding.Identity
import DataBinding.Text.Blank

namespace DataBinding

inductive Value where
  | undefined
  | null
  | bool (b : Bool)
  | number (x : Double)
  | string (s : String)
  | array (items : List Value)
  | object (store : StoreId)

namespace Value

instance : Inhabited Value := ⟨.undefined⟩

def numberStyle : NumberStyle := ⟨"Infinity", "0"⟩

def isNullish : Value → Bool
  | .undefined | .null => true
  | _ => false

mutual

def text : Value → String
  | .undefined => ""
  | .null => "null"
  | .bool b => if b then "true" else "false"
  | .number x => x.text numberStyle
  | .string s => s
  | .array items => ",".intercalate (itemTexts items)
  | .object _ => "[object Object]"

/-- The texts of items; `null` shows nothing inside an array. -/
def itemTexts : List Value → List String
  | [] => []
  | v :: vs => (if v.isNullish then "" else v.text) :: itemTexts vs

end

mutual

def strictEq : Value → Value → Bool
  | .undefined, .undefined => true
  | .null, .null => true
  | .bool a, .bool b => a = b
  | .number x, .number y => x.same y
  | .string s, .string t => s = t
  | .array xs, .array ys => strictEqItems xs ys
  | .object s, .object t => s = t
  | _, _ => false

def strictEqItems : List Value → List Value → Bool
  | [], [] => true
  | x :: xs, y :: ys => x.strictEq y && strictEqItems xs ys
  | _, _ => false

end

/-- The number that a text denotes: zero for blank text, a NaN for text that is no number. -/
def numberOfText (s : String) : Double :=
  let t := trimmed s
  if t.isEmpty then .zero else (Double.read? t).getD .nan

def widened : Value → Value
  | .bool b => .number (if b then .one else .zero)
  | v => v

def flattened : Value → Value
  | .array items => .string (text (.array items))
  | .object s => .string (text (.object s))
  | v => v

def sameContent : Value → Value → Bool
  | .number x, .number y => x.same y
  | .string s, .string t => s = t
  | .number x, .string t => x.same (numberOfText t)
  | .string s, .number y => (numberOfText s).same y
  | _, _ => false

/-- Equality after conversion. `undefined` and `null` equal each other alone, arrays compare by their items and
objects by identity, and everything else compares as numbers and texts. -/
def looseEq (a b : Value) : Bool :=
  if a.isNullish || b.isNullish then a.isNullish && b.isNullish
  else match a.widened, b.widened with
    | .array xs, .array ys => strictEqItems xs ys
    | .object s, .object t => s = t
    | .array _, .object _ => false
    | .object _, .array _ => false
    | v, w => sameContent v.flattened w.flattened

end Value

end DataBinding
