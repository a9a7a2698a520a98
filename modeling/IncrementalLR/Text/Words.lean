/-
**Cutting texts at single characters, and reading decimal numbers.**

Lists of names are written as one text with a space between two names; every space counts, so two
spaces in a row stand around an empty name.  Numbers are written in decimal and may be surrounded
by blanks.

Main definitions:

* `Text.pieces`, `Text.words` — the parts between single spaces, with and without the empty ones;
* `Text.isBlank`, `Text.trim` — blanks and their removal at both ends;
* `Text.decimal?` — a decimal number with an optional plus sign.

Main results:

* `Text.splitAtChar_ne_nil` — there is always at least one part;
* `Text.intercalate_splitAtChar` — cutting loses nothing: joining the parts gives the text back.
-/

set_option relaxedAutoImplicit false
set_option autoImplicit false

namespace IncrementalLR

namespace Text

/-! ### Cutting -/

/-- The parts of a text between the occurrences of a character. -/
def splitAtChar (sep : Char) : List Char → List (List Char)
  | [] => [[]]
  | c :: rest =>
      if c = sep then [] :: splitAtChar sep rest
      else match splitAtChar sep rest with
        | [] => [[c]]
        | w :: ws => (c :: w) :: ws

theorem splitAtChar_ne_nil (sep : Char) (s : List Char) : splitAtChar sep s ≠ [] := by
  cases s with
  | nil => simp [splitAtChar]
  | cons c rest =>
      simp only [splitAtChar]
      split
      · simp
      · split <;> simp

theorem intercalate_splitAtChar (sep : Char) (s : List Char) :
    [sep].intercalate (splitAtChar sep s) = s := by
  induction s with
  | nil => rfl
  | cons c rest ih =>
      have hne := splitAtChar_ne_nil sep rest
      obtain ⟨w, ws, hw⟩ := List.exists_cons_of_ne_nil hne
      rw [hw] at ih
      simp only [splitAtChar, hw]
      split
      · rename_i hc
        subst hc
        simp only [List.intercalate, List.intersperse] at ih ⊢
        simp [ih]
      · cases ws with
        | nil =>
            simp only [List.intercalate, List.intersperse] at ih ⊢
            simp_all
        | cons v vs =>
            simp only [List.intercalate, List.intersperse] at ih ⊢
            simp_all

/-- The parts of a text between single spaces, empty ones included. -/
def pieces (s : String) : List String := (splitAtChar ' ' s.toList).map String.ofList

/-- The nonempty parts of a text between spaces. -/
def words (s : String) : List String := (pieces s).filter fun w => !w.isEmpty

/-! ### Blanks -/

/-- Whether a character is white space of the character standard. -/
def isBlank (c : Char) : Bool :=
  let n := c.toNat
  (0x9 ≤ n && n ≤ 0xd) || n = 0x20 || n = 0x85 || n = 0xa0 || n = 0x1680 ||
    (0x2000 ≤ n && n ≤ 0x200a) || n = 0x2028 || n = 0x2029 || n = 0x202f || n = 0x205f || n = 0x3000

/-- A text without the blanks at its ends. -/
def trim (s : List Char) : List Char :=
  ((s.dropWhile isBlank).reverse.dropWhile isBlank).reverse

/-! ### Decimal numbers -/

/-- The value of a digit. -/
def digit? (c : Char) : Option Nat :=
  if '0' ≤ c ∧ c ≤ '9' then some (c.toNat - '0'.toNat) else none

/-- The number that digits continue `n` to, if all characters are digits. -/
def digitsFrom? (n : Nat) : List Char → Option Nat
  | [] => some n
  | c :: rest => (digit? c).bind fun d => digitsFrom? (10 * n + d) rest

/-- Reads a decimal number: at least one digit, a plus sign in front allowed, nothing else. -/
def decimal? : List Char → Option Nat
  | [] => none
  | c :: rest =>
      if c = '+' then
        match rest with
        | [] => none
        | d :: more => digitsFrom? 0 (d :: more)
      else digitsFrom? 0 (c :: rest)

end Text

end IncrementalLR
