namespace Applesoft

abbrev Bytes := List UInt8

abbrev Text := List Char

namespace Text

def spaces (count : Nat) : Text :=
  List.replicate count ' '

def padLeft (width : Nat) (fill : Char) (text : Text) : Text :=
  List.replicate (width - text.length) fill ++ text

/-- Fills a text with spaces up to a width, on its right. -/
def padRight (width : Nat) (text : Text) : Text :=
  text ++ spaces (width - text.length)

/-- Drops the characters of a class from the end of a text. -/
def dropTrailing (dropped : Char → Bool) (text : Text) : Text :=
  (text.reverse.dropWhile dropped).reverse

/-- Writes a separator between the members of a list of texts. -/
def join (separator : Text) (parts : List Text) : Text :=
  (parts.intersperse separator).flatten

/-- Cuts a text at every occurrence of one character; `n` occurrences give `n + 1` fields. -/
def fields (separator : Char) : Text → List Text
  | [] => [[]]
  | character :: rest =>
      match fields separator rest with
      | [] => [[character]]
      | part :: parts =>
          if character = separator then
            [] :: part :: parts
          else
            (character :: part) :: parts

theorem join_cons
    {separator part : Text} {rest : List Text} (others : rest ≠ []) :
    join separator (part :: rest) = part ++ separator ++ join separator rest :=
  List.intercalate_cons_of_ne_nil others

@[simp]
theorem length_spaces (count : Nat) :
    (spaces count).length = count := by
  simp [spaces]

theorem length_padLeft (width : Nat) (fill : Char) (text : Text) :
    (padLeft width fill text).length = max width text.length := by
  simp only [padLeft, List.length_append, List.length_replicate]
  omega

theorem length_padRight (width : Nat) (text : Text) :
    (padRight width text).length = max width text.length := by
  simp only [padRight, List.length_append, length_spaces]
  omega

/-- What is dropped stands at the end and belongs to the class. -/
theorem exists_dropTrailing_append (dropped : Char → Bool) (text : Text) :
    ∃ ending, text = dropTrailing dropped text ++ ending ∧
      ∀ character ∈ ending, dropped character = true := by
  refine ⟨(text.reverse.takeWhile dropped).reverse, ?_, ?_⟩
  · rw [dropTrailing, ← List.reverse_append, List.takeWhile_append_dropWhile,
      List.reverse_reverse]
  · intro character member
    exact List.all_eq_true.1 List.all_takeWhile character (List.mem_reverse.1 member)

end Text

end Applesoft
