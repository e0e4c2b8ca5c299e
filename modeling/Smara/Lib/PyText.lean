import Mathlib.Data.List.Basic

/-! # Texts, as Python has them -/

namespace Smara.Lib.Letters

/-! What is said of the letters of a text is decided letter by letter, and not over all characters. -/

scoped instance (priority := 2000) decidableForallMem (p : Char → Prop) [DecidablePred p] (cs : List Char) :
    Decidable (∀ c, c ∈ cs → p c) :=
  List.decidableBAll p cs

scoped instance (priority := 2000) decidableExistsMem (p : Char → Prop) [DecidablePred p] (cs : List Char) :
    Decidable (∃ c, c ∈ cs ∧ p c) :=
  List.decidableBEx p cs

scoped instance decidableForallByte (p : UInt8 → Prop) [DecidablePred p] (bs : List UInt8) : Decidable (∀ b, b ∈ bs → p b) :=
  List.decidableBAll p bs

end Smara.Lib.Letters

namespace Smara.Lib.Lawful

/-! Equality of texts is lawful. -/

scoped instance texts : LawfulBEq (List Char) := inferInstance

scoped instance optionTexts : LawfulBEq (Option String) := inferInstance

end Smara.Lib.Lawful

namespace Smara.Lib.PyText

/-- A value that a caller gives: its `str`, and whether it counts as true. -/
structure Value where
  text : String
  truth : Bool
  deriving DecidableEq, Repr

/-- `str.isspace` of a character -/
def isSpace (c : Char) : Bool :=
  let n := c.toNat
  (9 ≤ n && n ≤ 13) || (28 ≤ n && n ≤ 32) || n == 0x85 || n == 0xA0 || n == 0x1680 ||
    (0x2000 ≤ n && n ≤ 0x200A) || n == 0x2028 || n == 0x2029 || n == 0x202F || n == 0x205F || n == 0x3000

/-- `str.strip`, on characters -/
def stripChars (s : List Char) : List Char := ((s.dropWhile isSpace).reverse.dropWhile isSpace).reverse

def strip (s : String) : String := String.ofList (stripChars s.toList)

/-- The characters that end a line for `str.splitlines` -/
def isLineBreak (c : Char) : Bool :=
  let n := c.toNat
  (10 ≤ n && n ≤ 13) || (28 ≤ n && n ≤ 30) || n == 0x85 || n == 0x2028 || n == 0x2029

/-- `str.splitlines(keepends=True)`, behind the beginning of a line -/
def splitLinesFrom (line : List Char) : List Char → List (List Char)
  | [] => if line = [] then [] else [line]
  | '\r' :: '\n' :: cs => (line ++ ['\r', '\n']) :: splitLinesFrom [] cs
  | c :: cs => if isLineBreak c then (line ++ [c]) :: splitLinesFrom [] cs else splitLinesFrom (line ++ [c]) cs

/-- `str.splitlines(keepends=True)` -/
def splitLinesKeep (s : List Char) : List (List Char) := splitLinesFrom [] s

/-- `str.splitlines()` -/
def splitLines (s : List Char) : List (List Char) :=
  (splitLinesKeep s).map fun line => (line.reverse.dropWhile isLineBreak).reverse

end Smara.Lib.PyText
