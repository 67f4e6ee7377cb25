import Applesoft.Proofs.Continuations
import Applesoft.Proofs.Names
import Applesoft.Text.Utf8

/-!
Operations that can be refused. A stretch of a sequence has to lie in it, and a text can be cut only
where a character begins or ends; a difference must not be below zero, and a sum has to fit its
machine word. An operation that is refused has no result.

A text is cut at offsets counted in bytes. The main statements say that the offsets at which a
character is found are places for a cut, so that the line behind the last line feed of a text always
has a length.
-/

namespace Applesoft.Checked

variable {alpha beta : Type}

/-- How many values a machine word has that counts places. -/
def wordLimit : Nat :=
  2 ^ 64

def difference? (minuend subtrahend : Nat) : Option Nat :=
  if subtrahend ≤ minuend then some (minuend - subtrahend) else none

/-- A sum of less than a limit. -/
def sum? (limit left right : Nat) : Option Nat :=
  if left + right < limit then some (left + right) else none

/-- A product of less than a limit. -/
def product? (limit left right : Nat) : Option Nat :=
  if left * right < limit then some (left * right) else none

section Numbers

variable {left right limit : Nat}

theorem difference?_eq (inOrder : right ≤ left) : difference? left right = some (left - right) :=
  if_pos inOrder

theorem sum?_eq (fits : left + right < limit) : sum? limit left right = some (left + right) :=
  if_pos fits

theorem product?_eq (fits : left * right < limit) :
    product? limit left right = some (left * right) :=
  if_pos fits

end Numbers

/-- The element some places behind another one. -/
def read? (elements : List alpha) (place distance : Nat) : Option alpha :=
  (sum? wordLimit place distance).bind fun reached => elements[reached]?

/-- The elements between two places. -/
def slice? (elements : List alpha) (start stop : Nat) : Option (List alpha) :=
  if start ≤ stop ∧ stop ≤ elements.length then some (elements.extract start stop) else none

section Slices

variable {elements : List alpha} {start stop : Nat}

theorem slice?_eq (inOrder : start ≤ stop) (inside : stop ≤ elements.length) :
    slice? elements start stop = some (elements.extract start stop) :=
  if_pos ⟨inOrder, inside⟩

/-- What is in front of a place. -/
theorem slice?_zero (inside : stop ≤ elements.length) :
    slice? elements 0 stop = some (elements.take stop) := by
  rw [slice?_eq (Nat.zero_le stop) inside, List.extract_eq_take_drop, List.drop_zero, Nat.sub_zero]

/-- What is behind a place. -/
theorem slice?_length (inside : start ≤ elements.length) :
    slice? elements start elements.length = some (elements.drop start) := by
  rw [slice?_eq inside le_rfl, List.extract_eq_take_drop, ← List.length_drop, List.take_length]

theorem slice?_append_append (before middle after : List alpha) :
    slice? (before ++ (middle ++ after)) before.length (before.length + middle.length) =
      some middle := by
  rw [slice?_eq (by omega) (by simp only [List.length_append]; omega), List.extract_eq_take_drop,
    List.drop_left, Nat.add_sub_cancel_left, List.take_left]

end Slices

/-- Operations of which none is refused give a result each. -/
theorem mapM_eq_some_map
    {operation : alpha → Option beta} {result : alpha → beta} {elements : List alpha}
    (each : ∀ element ∈ elements, operation element = some (result element)) :
    elements.mapM operation = some (elements.map result) := by
  induction elements with
  | nil => rfl
  | cons element rest hypothesis =>
      rw [List.forall_mem_cons] at each
      rw [List.mapM_cons, each.1, hypothesis each.2]
      rfl

/-- How many bytes a text has. -/
def size (text : Text) : Nat :=
  (Utf8.encode text).length

/-- The parts of a text in front of and behind an offset. -/
def cut? : Nat → Text → Option (Text × Text)
  | 0, text => some ([], text)
  | _ + 1, [] => none
  | offset + 1, character :: rest =>
      if character.utf8Size ≤ offset + 1 then
        (cut? (offset + 1 - character.utf8Size) rest).map fun parts =>
          (character :: parts.1, parts.2)
      else
        none

def front? (text : Text) (stop : Nat) : Option Text :=
  (cut? stop text).map Prod.fst

def back? (text : Text) (start : Nat) : Option Text :=
  (cut? start text).map Prod.snd

/-- Puts a text into another one at an offset. -/
def insert? (text : Text) (offset : Nat) (inserted : Text) : Option Text :=
  (cut? offset text).map fun parts => parts.1 ++ inserted ++ parts.2

/-- The offset of the first occurrence of a character. -/
def offset? (wanted : Char) (text : Text) : Option Nat :=
  (text.findIdx? (· = wanted)).map fun index => size (text.take index)

/-- The offset of the last line feed. -/
def lastBreak? (text : Text) : Option Nat :=
  if '\n' ∈ text then
    some (size (text.reverse.dropWhile (· ≠ '\n')).tail.reverse)
  else
    none

/-- The length of the part of a text behind its last line feed. -/
def lastLineLength? (text : Text) : Option Nat :=
  match lastBreak? text with
  | some offset => (back? text (offset + 1)).map List.length
  | none => some text.length

theorem size_append (left right : Text) : size (left ++ right) = size left + size right := by
  rw [size, Utf8.encode, List.flatMap_append, List.length_append]
  rfl

theorem size_cons (character : Char) (rest : Text) :
    size (character :: rest) = character.utf8Size + size rest := by
  rw [size, Utf8.encode, List.flatMap_cons, List.length_append, String.length_utf8EncodeChar]
  rfl

/-- A text can be cut behind any of its fronts. -/
theorem cut?_append (front back : Text) :
    cut? (size front) (front ++ back) = some (front, back) := by
  induction front with
  | nil => simp [size, Utf8.encode, cut?]
  | cons character rest hypothesis =>
      have positive := character.utf8Size_pos
      obtain ⟨offset, same⟩ : ∃ offset, size (character :: rest) = offset + 1 :=
        ⟨size (character :: rest) - 1, by rw [size_cons]; omega⟩
      have whole := size_cons character rest
      rw [same, List.cons_append, cut?, if_pos (by omega)]
      rw [show offset + 1 - character.utf8Size = size rest by omega, hypothesis, Option.map_some]

theorem back?_append (front back : Text) : back? (front ++ back) (size front) = some back := by
  rw [back?, cut?_append, Option.map_some]

/-- A text with a line feed is divided by its last one. -/
theorem exists_eq_append_of_newline
    {text : Text} (broken : '\n' ∈ text) :
    ∃ front last, text.reverse.dropWhile (· ≠ '\n') = '\n' :: front.reverse ∧
      text.reverse.takeWhile (· ≠ '\n') = last.reverse ∧ text = front ++ '\n' :: last := by
  have parts := List.takeWhile_append_dropWhile (p := (· ≠ '\n')) (l := text.reverse)
  cases behind : text.reverse.dropWhile (· ≠ '\n') with
  | nil =>
      have missing := List.dropWhile_eq_nil_iff.1 behind '\n' (List.mem_reverse.2 broken)
      simp at missing
  | cons first rest =>
      obtain rfl : first = '\n' := by
        have stopped := List.head?_dropWhile_not (· ≠ '\n') text.reverse
        rw [behind] at stopped
        simpa using stopped
      refine ⟨rest.reverse, _, by rw [List.reverse_reverse], (List.reverse_reverse _).symm, ?_⟩
      rw [behind] at parts
      simpa using (congrArg List.reverse parts).symm

/-- The last line of a text can be cut off. -/
theorem lastLineLength?_eq (text : Text) :
    lastLineLength? text = some (Text.column text) := by
  rw [lastLineLength?, lastBreak?, Text.column]
  by_cases broken : '\n' ∈ text
  · obtain ⟨front, last, before, behind, shape⟩ := exists_eq_append_of_newline broken
    have newline : size (front ++ ['\n']) = size front + 1 := by
      rw [size_append]
      rfl
    have cut : back? text (size front + 1) = some last := by
      rw [shape, List.append_cons, ← newline, back?_append]
    rw [if_pos broken, before, List.tail_cons, List.reverse_reverse, behind, List.length_reverse]
    dsimp only
    rw [cut, Option.map_some]
  · rw [if_neg broken, List.takeWhile_eq_self_iff.2, List.length_reverse]
    intro character member
    rw [decide_eq_true_eq]
    rintro rfl
    exact broken (List.mem_reverse.1 member)

/-- Whether every character of a text is one byte long, so that offsets count characters. -/
def IsAscii (text : Text) : Prop :=
  ∀ character ∈ text, character.utf8Size = 1

theorem isAscii_iff {text : Text} :
    IsAscii text ↔ ∀ character ∈ text, character.toNat ≤ 0x7F :=
  forall₂_congr fun character _ => Utf8.utf8Size_eq_one_iff character

theorem IsAscii.size_eq {text : Text} (ascii : IsAscii text) : size text = text.length :=
  Utf8.length_encode_of_ascii (isAscii_iff.1 ascii)

theorem IsAscii.take {text : Text} (ascii : IsAscii text) (count : Nat) :
    IsAscii (text.take count) :=
  fun character member => ascii character (List.mem_of_mem_take member)

theorem IsAscii.cut?_eq
    {text : Text} (ascii : IsAscii text) {offset : Nat} (inside : offset ≤ text.length) :
    cut? offset text = some (text.take offset, text.drop offset) := by
  have length : size (text.take offset) = offset := by
    rw [(ascii.take offset).size_eq, List.length_take, Nat.min_eq_left inside]
  have cut := cut?_append (text.take offset) (text.drop offset)
  rwa [length, List.take_append_drop] at cut

theorem IsAscii.offset?_eq {text : Text} (ascii : IsAscii text) (wanted : Char) :
    offset? wanted text = text.findIdx? (· = wanted) := by
  rw [offset?]
  cases found : text.findIdx? (· = wanted) with
  | none => rfl
  | some index =>
      have inside := (List.findIdx?_eq_some_iff_getElem.1 found).1
      rw [Option.map_some, (ascii.take index).size_eq, List.length_take,
        Nat.min_eq_left inside.le]

end Applesoft.Checked
