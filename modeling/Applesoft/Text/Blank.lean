import Applesoft.Text

namespace Applesoft.Text

/-- The code points with the property White_Space, as ranges from a first to a last one. -/
def blankRanges : List (Nat × Nat) :=
  [(0x0009, 0x000D), (0x0020, 0x0020), (0x0085, 0x0085), (0x00A0, 0x00A0),
    (0x1680, 0x1680), (0x2000, 0x200A), (0x2028, 0x2029), (0x202F, 0x202F),
    (0x205F, 0x205F), (0x3000, 0x3000)]

def isBlank (character : Char) : Bool :=
  blankRanges.any fun range =>
    range.1 ≤ character.toNat && character.toNat ≤ range.2

def trimEnd (text : Text) : Text :=
  dropTrailing isBlank text

def trim (text : Text) : Text :=
  trimEnd (text.dropWhile isBlank)

/-- White_Space holds 25 code points. -/
example : (blankRanges.map fun range => range.2 + 1 - range.1).sum = 25 := by
  decide

/-- The visible characters of ASCII are no white space. -/
theorem isBlank_eq_false_of_toNat
    {character : Char} (low : 0x21 ≤ character.toNat) (high : character.toNat ≤ 0x7E) :
    isBlank character = false := by
  rw [isBlank, List.any_eq_false]
  intro range member
  have outside : range.2 < 0x21 ∨ 0x7E < range.1 := by
    revert range
    decide
  simp only [Bool.and_eq_true, decide_eq_true_eq]
  omega

theorem exists_trimEnd_append (text : Text) :
    ∃ ending, text = trimEnd text ++ ending ∧
      ∀ character ∈ ending, isBlank character = true :=
  exists_dropTrailing_append isBlank text

/-- Trimming goes on into the first of two texts only if the second is blank. -/
theorem trimEnd_append (left right : Text) :
    trimEnd (left ++ right) =
      if trimEnd right = [] then trimEnd left else left ++ trimEnd right := by
  simp only [trimEnd, dropTrailing, List.reverse_append, List.dropWhile_append,
    List.isEmpty_iff, List.reverse_eq_nil_iff]
  split
  · rfl
  · rw [List.reverse_append, List.reverse_reverse]

end Applesoft.Text
