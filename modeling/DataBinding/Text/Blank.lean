import DataBinding.Text.Ranges

/-!
White space in the sense of the Unicode property, and the text between it.
-/

namespace DataBinding

def blankRanges : Text.Ranges :=
  [(0x9, 0xd), (0x20, 0x20), (0x85, 0x85), (0xa0, 0xa0), (0x1680, 0x1680), (0x2000, 0x200a),
    (0x2028, 0x2029), (0x202f, 0x202f), (0x205f, 0x205f), (0x3000, 0x3000)]

def isBlank (c : Char) : Bool := blankRanges.contains c.toNat

namespace Text

def trim (cs : List Char) : List Char :=
  ((cs.dropWhile isBlank).reverse.dropWhile isBlank).reverse

def words : List Char → List (List Char)
  | [] => []
  | [c] => if isBlank c then [] else [[c]]
  | c :: d :: cs =>
    if isBlank c then words (d :: cs)
    else if isBlank d then [c] :: words (d :: cs)
    else match words (d :: cs) with
      | [] => [[c]]
      | w :: ws => (c :: w) :: ws

theorem words_blank {c : Char} (h : isBlank c = true) (cs : List Char) : words (c :: cs) = words cs := by
  cases cs <;> simp [words, h]

end Text

def trimmed (s : String) : String := String.ofList (Text.trim s.toList)

end DataBinding
