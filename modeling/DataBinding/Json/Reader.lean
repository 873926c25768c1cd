import DataBinding.Json.Basic

/-!
Reading JSON text. Text is first read as written: an escape may denote no character, a number may have any
digits and a key may repeat. Whoever uses a part decides whether it has a meaning.
-/

namespace DataBinding.Json

inductive Written where
  | null
  | bool (b : Bool)
  | number (whole : Bool) (value : Decimal)
  | string (text : Option String)
  | array (items : List Written)
  | object (fields : List (Option String × Written))

def isSpace (c : Char) : Bool := c = ' ' || c = '\t' || c = '\n' || c = '\r'

def skipSpace (cs : List Char) : List Char := cs.dropWhile isSpace

def hexDigit? (c : Char) : Option Nat :=
  if c.isDigit then some (c.toNat - '0'.toNat)
  else if 'a' ≤ c ∧ c ≤ 'f' then some (c.toNat - 'a'.toNat + 10)
  else if 'A' ≤ c ∧ c ≤ 'F' then some (c.toNat - 'A'.toNat + 10)
  else none

def hex4? (a b c d : Char) : Option Nat := do
  return (((← hexDigit? a) * 16 + (← hexDigit? b)) * 16 + (← hexDigit? c)) * 16 + (← hexDigit? d)

def escaped? : Char → Option Char
  | '"' => some '"'
  | '\\' => some '\\'
  | '/' => some '/'
  | 'b' => some '\x08'
  | 'f' => some '\x0c'
  | 'n' => some '\n'
  | 'r' => some '\r'
  | 't' => some '\t'
  | _ => none

def stringParts? : List Char → Option (List (Char ⊕ Nat) × List Char)
  | [] => none
  | '"' :: rest => some ([], rest)
  | '\\' :: 'u' :: a :: b :: c :: d :: rest => do
    let n ← hex4? a b c d
    let (parts, rest) ← stringParts? rest
    return (.inr n :: parts, rest)
  | '\\' :: c :: rest => do
    let c ← escaped? c
    let (parts, rest) ← stringParts? rest
    return (.inl c :: parts, rest)
  | c :: rest =>
    if c.toNat < 0x20 then none
    else do
      let (parts, rest) ← stringParts? rest
      return (.inl c :: parts, rest)

def charsOfParts? : List (Char ⊕ Nat) → Option (List Char)
  | [] => some []
  | .inl c :: rest => (charsOfParts? rest).map (c :: ·)
  | .inr high :: .inr low :: rest =>
    if 0xd800 ≤ high ∧ high < 0xdc00 then
      if 0xdc00 ≤ low ∧ low < 0xe000 then
        (charsOfParts? rest).map (Char.ofNat (0x10000 + (high - 0xd800) * 0x400 + (low - 0xdc00)) :: ·)
      else none
    else if 0xdc00 ≤ high ∧ high < 0xe000 then none
    else (charsOfParts? (.inr low :: rest)).map (Char.ofNat high :: ·)
  | .inr n :: rest =>
    if 0xd800 ≤ n ∧ n < 0xe000 then none else (charsOfParts? rest).map (Char.ofNat n :: ·)

def string? (cs : List Char) : Option (Option String × List Char) :=
  (stringParts? cs).map fun (parts, rest) => ((charsOfParts? parts).map String.ofList, rest)

def digits? (cs : List Char) : Option (List Char × List Char) :=
  let digits := cs.takeWhile Char.isDigit
  if digits.isEmpty then none else some (digits, cs.dropWhile Char.isDigit)

def wholeDigits? (cs : List Char) : Option (List Char × List Char) :=
  match digits? cs with
  | some ('0' :: _ :: _, _) => none
  | r => r

def number? (cs : List Char) : Option (Written × List Char) := do
  let (negative, cs) := match cs with
    | '-' :: r => (true, r)
    | r => (false, r)
  let (whole, cs) ← wholeDigits? cs
  let (fraction, cs) ← match cs with
    | '.' :: r => digits? r
    | r => some ([], r)
  let (exponent, cs) ← match cs with
    | e :: r =>
      if e = 'e' || e = 'E' then do
        let (below, r) := match r with
          | '-' :: r => (true, r)
          | '+' :: r => (false, r)
          | r => (false, r)
        let (digits, r) ← digits? r
        let n : Int := Decimal.ofDigits 0 digits
        some (some (if below then -n else n), r)
      else some (none, e :: r)
    | [] => some (none, [])
  return (.number (fraction.isEmpty && exponent.isNone)
    ⟨negative, Decimal.ofDigits 0 (whole ++ fraction), exponent.getD 0 - fraction.length⟩, cs)

def word? : List Char → Option (Written × List Char)
  | 'n' :: 'u' :: 'l' :: 'l' :: rest => some (.null, rest)
  | 't' :: 'r' :: 'u' :: 'e' :: rest => some (.bool true, rest)
  | 'f' :: 'a' :: 'l' :: 's' :: 'e' :: rest => some (.bool false, rest)
  | _ => none

mutual

def value? : Nat → List Char → Option (Written × List Char)
  | 0, _ => none
  | steps + 1, cs =>
    match skipSpace cs with
    | '"' :: rest => (string? rest).map fun (s, rest) => (.string s, rest)
    | '[' :: rest =>
      match skipSpace rest with
      | ']' :: rest => some (.array [], rest)
      | rest => (items? steps rest).map fun (items, rest) => (.array items, rest)
    | '{' :: rest =>
      match skipSpace rest with
      | '}' :: rest => some (.object [], rest)
      | rest => (fields? steps rest).map fun (fields, rest) => (.object fields, rest)
    | c :: rest => if c = '-' || c.isDigit then number? (c :: rest) else word? (c :: rest)
    | [] => none

def items? : Nat → List Char → Option (List Written × List Char)
  | 0, _ => none
  | steps + 1, cs => do
    let (item, rest) ← value? steps cs
    match skipSpace rest with
    | ',' :: rest =>
      let (items, rest) ← items? steps rest
      return (item :: items, rest)
    | ']' :: rest => return ([item], rest)
    | _ => none

def fields? : Nat → List Char → Option (List (Option String × Written) × List Char)
  | 0, _ => none
  | steps + 1, cs => do
    let '"' :: rest := skipSpace cs | none
    let (key, rest) ← string? rest
    let ':' :: rest := skipSpace rest | none
    let (value, rest) ← value? steps rest
    match skipSpace rest with
    | ',' :: rest =>
      let (fields, rest) ← fields? steps rest
      return ((key, value) :: fields, rest)
    | '}' :: rest => return ([(key, value)], rest)
    | _ => none

end

def Written.read? (text : String) : Option Written :=
  let cs := text.toList
  match value? (2 * cs.length + 2) cs with
  | some (value, rest) => if (skipSpace rest).isEmpty then some value else none
  | none => none

/-- A whole number in the range of 64-bit integers stays one; any other number becomes the nearest double. -/
def ofNumber (whole : Bool) (value : Decimal) : Json :=
  let i : Int := if value.negative then -(value.digits : Int) else value.digits
  if whole && !(value.negative && value.digits = 0) && decide (-(twoTo 63 : Int) ≤ i ∧ i < twoTo 64) then .integer i
  else .real value.toDouble

mutual

def Written.toJson? : Written → Option Json
  | .null => some .null
  | .bool b => some (.bool b)
  | .number whole value => some (ofNumber whole value)
  | .string s => s.map .string
  | .array items => (listToJson? items).map .array
  | .object fields => (fieldsToJson? fields).map fun fields => .object (Fields.sorted fields)

def listToJson? : List Written → Option (List Json)
  | [] => some []
  | w :: ws => do return (← w.toJson?) :: (← listToJson? ws)

def fieldsToJson? : List (Option String × Written) → Option (List (String × Json))
  | [] => some []
  | (key, w) :: ws => do return (← key, ← w.toJson?) :: (← fieldsToJson? ws)

end

def read? (text : String) : Option Json := (Written.read? text).bind Written.toJson?

end DataBinding.Json
