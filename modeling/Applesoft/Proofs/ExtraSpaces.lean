import Applesoft.Proofs.Margins
import Applesoft.Proofs.Obstacles

/-!
The space that is deleted behind REM and DATA. It is looked for wherever the letters of the keyword
stand in the text of the statement, not only at its beginning, and a remark or an item of data may
have them in a word of its own.

The main statement says what becomes of such a text, and for which programs no more than the extra
space is lost.
-/

namespace Applesoft

namespace Listing

/-- Whether a text is what another one becomes when one of two spaces is left out, behind the first
place where a keyword stands before both. -/
inductive LosesSpace (keyword text : Text) : Text → Prop
  | nowhere :
      ¬keyword ++ "  ".toList <:+: text →
      LosesSpace keyword text text
  | first {before after : Text} :
      text = before ++ (keyword ++ "  ".toList ++ after) →
      (∀ earlier later, text = earlier ++ (keyword ++ "  ".toList ++ later) →
        before.length ≤ earlier.length) →
      LosesSpace keyword text (before ++ (keyword ++ " ".toList ++ after))

/-- A text without the extra space behind the keyword that it begins with. -/
def withoutExtraSpace (keyword text : Text) : Text :=
  if keyword ++ "  ".toList <+: text then
    keyword ++ text.drop (keyword.length + 1)
  else
    text

section Deletion

variable {keyword text result : Text}

/-- A text that does not begin with the pattern has it where the rest of the text has it. -/
theorem LosesSpace.cons
    {character : Char} (noPrefix : ¬keyword ++ "  ".toList <+: character :: text)
    (loses : LosesSpace keyword text result) :
    LosesSpace keyword (character :: text) (character :: result) := by
  cases loses with
  | nowhere absent =>
      refine .nowhere fun infixed => ?_
      rcases List.infix_cons_iff.1 infixed with here | later
      · exact noPrefix here
      · exact absent later
  | @first before after shape least =>
      refine @first _ _ (character :: before) _ (congrArg _ shape) fun earlier later other => ?_
      cases earlier with
      | nil => exact absurd ⟨later, other.symm⟩ noPrefix
      | cons _ others =>
          obtain ⟨-, behind⟩ := List.cons.inj other
          exact Nat.succ_le_succ (least others later behind)

theorem losesSpace_deleteExtraSpace (keyword : String) (text : Text) :
    LosesSpace keyword.toList text (deleteExtraSpace keyword text) := by
  rw [deleteExtraSpace]
  induction text with
  | nil => exact .nowhere (by simp)
  | cons character rest hypothesis =>
      rw [replaceFirst]
      split
      · next found =>
          obtain ⟨after, shape⟩ := List.isPrefixOf_iff_prefix.1 found
          rw [← shape, List.drop_left]
          exact @LosesSpace.first _ _ [] _ rfl fun _ _ _ => Nat.zero_le _
      · next absent =>
          exact hypothesis.cons fun found => absent (List.isPrefixOf_iff_prefix.2 found)

/-- There is one text only that another one becomes. -/
theorem LosesSpace.unique
    {other : Text} (loses : LosesSpace keyword text result) (same : LosesSpace keyword text other) :
    result = other := by
  cases loses with
  | nowhere absent =>
      cases same with
      | nowhere _ => rfl
      | @first before after shape _ =>
          exact absurd ⟨before, after, by rw [shape, List.append_assoc]⟩ absent
  | @first before after shape least =>
      cases same with
      | nowhere absent => exact absurd ⟨before, after, by rw [shape, List.append_assoc]⟩ absent
      | @first earlier later again leastAgain =>
          have length : before.length = earlier.length :=
            Nat.le_antisymm (least earlier later again) (leastAgain before after shape)
          obtain ⟨rfl, behind⟩ := List.append_inj (shape.symm.trans again) length
          rw [List.append_cancel_left behind]

theorem LosesSpace.ne_of_infix
    (loses : LosesSpace keyword text result) (infixed : keyword ++ "  ".toList <:+: text) :
    result ≠ text := by
  cases loses with
  | nowhere absent => exact absurd infixed absent
  | first shape _ =>
      intro unchanged
      have lengths := congrArg List.length (unchanged.trans shape)
      simp at lengths

/-- Leaving out the extra space behind the keyword at the beginning is the same, unless the keyword
stands before two spaces only further behind. -/
theorem losesSpace_withoutExtraSpace_iff :
    LosesSpace keyword text (withoutExtraSpace keyword text) ↔
      (keyword ++ "  ".toList <:+: text → keyword ++ "  ".toList <+: text) := by
  rw [withoutExtraSpace]
  split
  · next begins =>
      refine iff_of_true ?_ fun _ => begins
      obtain ⟨after, rfl⟩ := begins
      have rest : (keyword ++ "  ".toList ++ after).drop (keyword.length + 1) =
          " ".toList ++ after := by
        rw [List.append_assoc, List.drop_length_add_append]
        rfl
      rw [rest, ← List.append_assoc]
      exact @LosesSpace.first _ _ [] _ rfl fun _ _ _ => Nat.zero_le _
  · next behind =>
      constructor
      · intro unchanged infixed
        exact absurd rfl (unchanged.ne_of_infix infixed)
      · intro only
        exact .nowhere fun infixed => behind (only infixed)

end Deletion

/-- The keyword behind which the options have a space deleted from the text of a statement. -/
def trimmedKeyword? (options : Options) (fragment : Fragment) : Option Text :=
  match fragment.statement with
  | .remark =>
      if options.deleteExtraRemSpace = true ∧ remarkForm fragment = .plain then
        some "REM".toList
      else
        none
  | .data => if options.deleteExtraDataSpace = true then some "DATA".toList else none
  | _ => none

/-- The text of a statement behind its keyword and the space that belongs to it. -/
def behindKeyword (options : Options) (fragment : Fragment) : Text :=
  Rendering.render options fragment.arguments

section Contents

variable {options : Options} {fragment : Fragment} {keyword : Text}

theorem eq_rem_or_eq_data (trimmed : keyword ∈ trimmedKeyword? options fragment) :
    fragment.statement = .remark ∧ options.deleteExtraRemSpace = true ∧ keyword = "REM".toList ∨
      fragment.statement = .data ∧ options.deleteExtraDataSpace = true ∧
        keyword = "DATA".toList := by
  rw [trimmedKeyword?] at trimmed
  split at trimmed
  · next remark =>
      split at trimmed
      · next asked => exact .inl ⟨remark, asked.1, (Option.some.inj trimmed).symm⟩
      · cases trimmed
  · next data =>
      split at trimmed
      · next asked => exact .inr ⟨data, asked, (Option.some.inj trimmed).symm⟩
      · cases trimmed
  · cases trimmed

theorem ofKeyword_ne_data
    {token : UInt8} (different : token ≠ Keyword.dataToken) (arguments : Bytes) :
    Statement.ofKeyword token arguments ≠ .data := by
  simp only [Statement.ofKeyword, Statement.ofOn, apply_ite (· ≠ Statement.data)]
  simp [different]

theorem exists_of_ofBody_eq_data {body : Bytes} (data : Statement.ofBody body = .data) :
    ∃ arguments, body = Keyword.dataToken :: arguments :=
  Statement.exists_of_ofBody_eq data (fun _ => ofKeyword_ne_data) nofun nofun nofun nofun

theorem text_eq_keyword_append
    (trimmed : keyword ∈ trimmedKeyword? options fragment)
    (read : fragment.statement = Statement.ofBody fragment.body) :
    fragment.text options = keyword ++ (" ".toList ++ behindKeyword options fragment) := by
  rcases eq_rem_or_eq_data trimmed with ⟨remark, -, rfl⟩ | ⟨data, -, rfl⟩
  · have first := (Payload.ofBody_eq_remark_iff fragment.body).1 (read.symm.trans remark)
    obtain ⟨arguments, body⟩ := List.head?_eq_some_iff.1 first
    rw [Fragment.text, Fragment.impliedKeyword, behindKeyword, Fragment.arguments, remark, body]
    rfl
  · obtain ⟨arguments, body⟩ := exists_of_ofBody_eq_data (read.symm.trans data)
    rw [Fragment.text, Fragment.impliedKeyword, behindKeyword, Fragment.arguments, data, body]
    rfl

/-- The keyword stands before two spaces where the contents begin with a space or have it so. It
has no end that it begins with, so it cannot stand across the two. -/
theorem infix_keyword_append_iff
    (trimmed : keyword ∈ trimmedKeyword? options fragment) (inside : Text) :
    keyword ++ "  ".toList <:+: keyword ++ (" ".toList ++ inside) ↔
      " ".toList <+: inside ∨ keyword ++ "  ".toList <:+: inside := by
  rcases eq_rem_or_eq_data trimmed with ⟨-, -, rfl⟩ | ⟨-, -, rfl⟩
  · simp [List.infix_cons_iff, List.cons_prefix_cons]
  · simp [List.infix_cons_iff, List.cons_prefix_cons]

theorem prefix_keyword_append_iff (inside : Text) :
    keyword ++ "  ".toList <+: keyword ++ (" ".toList ++ inside) ↔ " ".toList <+: inside := by
  rw [List.prefix_append_right_inj]
  exact List.prefix_append_right_inj " ".toList

theorem text_eq_withoutExtraSpace_iff
    (trimmed : keyword ∈ trimmedKeyword? options fragment)
    (read : fragment.statement = Statement.ofBody fragment.body) {text : Text}
    (loses : LosesSpace keyword (fragment.text options) text) :
    text = withoutExtraSpace keyword (fragment.text options) ↔
      (keyword ++ "  ".toList <:+: behindKeyword options fragment →
        " ".toList <+: behindKeyword options fragment) := by
  have determined : text = withoutExtraSpace keyword (fragment.text options) ↔
      LosesSpace keyword (fragment.text options)
        (withoutExtraSpace keyword (fragment.text options)) :=
    ⟨fun same => same ▸ loses, loses.unique⟩
  rw [determined, losesSpace_withoutExtraSpace_iff, text_eq_keyword_append trimmed read,
    infix_keyword_append_iff trimmed, prefix_keyword_append_iff]
  exact ⟨fun only behind => only (.inr behind), fun only => Or.rec id only⟩

end Contents

section Rows

variable {setting : Setting} {placement : Placement} {keyword : Text}

theorem losesSpace_text
    (trimmed : keyword ∈ trimmedKeyword? setting.options placement.item.fragment) :
    LosesSpace keyword (placement.item.fragment.text setting.options) (placement.text setting) := by
  rw [Placement.text]
  rcases eq_rem_or_eq_data trimmed with ⟨remark, asked, rfl⟩ | ⟨data, asked, rfl⟩
  · rw [statementText_of_remark remark, asked, wrappedText, if_pos rfl]
    exact losesSpace_deleteExtraSpace _ _
  · rw [statementText_of_data data, asked, wrappedText, if_pos rfl]
    exact losesSpace_deleteExtraSpace _ _

end Rows

end Listing

open Listing

namespace Program

/-- Whether remarks and data are laid out with all of their text but the extra space behind the
keyword, where the options have it deleted. -/
def SparesContents (program : Program) (options : Options) (disassembler : Disassembler)
    (name : Text) : Prop :=
  ∀ placement ∈ program.placements options disassembler name,
    ∀ keyword ∈ trimmedKeyword? options placement.item.fragment,
      placement.text (program.setting options disassembler) =
        withoutExtraSpace keyword (placement.item.fragment.text options)

instance (program : Program) (options : Options) (disassembler : Disassembler) (name : Text) :
    Decidable (program.SparesContents options disassembler name) :=
  inferInstanceAs (Decidable (∀ placement ∈ program.placements options disassembler name, _))

theorem exists_line_of_mem_placements
    {program : Program} {options : Options} {disassembler : Disassembler} {name : Text}
    {placement : Placement} (member : placement ∈ program.placements options disassembler name) :
    ∃ line ∈ program.lines, placement.item.fragment ∈ line.fragments := by
  have shown : placement.item ∈ program.lines.flatMap items := by
    rw [← map_item_placeLines]
    exact List.mem_map_of_mem member
  obtain ⟨line, inProgram, inLine⟩ := List.mem_flatMap.1 shown
  exact ⟨line, inProgram, mem_fragments_of_mem_items inLine⟩

/-- What is deleted from remarks and data. The text of such a statement is its keyword, a space and
its contents. Where the options have the extra space deleted, the text that is laid out lacks one
space at most: the second one behind the first place where the letters of the keyword stand before
two. This is the extra space behind the keyword itself if the contents begin with a space, and a
space of a word in the contents if they do not, but have the keyword before two spaces in them. So a
program keeps its contents if and only if none of them is of the latter kind. -/
theorem extra_spaces_of_statements
    (image : Bytes) (options : Options) (disassembler : Disassembler) (name : Text) :
    let program := decode image
    let setting := program.setting options disassembler
    let placements := program.placements options disassembler name
    placements.map Placement.item = program.lines.flatMap items ∧
      (∀ placement ∈ placements, ∀ keyword ∈ trimmedKeyword? options placement.item.fragment,
        let text := placement.item.fragment.text options
        text = keyword ++ (" ".toList ++ behindKeyword options placement.item.fragment) ∧
          LosesSpace keyword text (placement.text setting)) ∧
      (program.SparesContents options disassembler name ↔
        ∀ placement ∈ placements, ∀ keyword ∈ trimmedKeyword? options placement.item.fragment,
          keyword ++ "  ".toList <:+: behindKeyword options placement.item.fragment →
            " ".toList <+: behindKeyword options placement.item.fragment) := by
  intro program setting placements
  have read {placement : Placement} (member : placement ∈ placements) :
      placement.item.fragment.statement = Statement.ofBody placement.item.fragment.body := by
    obtain ⟨line, inProgram, inLine⟩ := exists_line_of_mem_placements member
    exact statement_of_mem_fragments inProgram inLine
  have loses {placement : Placement} {keyword : Text}
      (trimmed : keyword ∈ trimmedKeyword? setting.options placement.item.fragment) :=
    losesSpace_text trimmed
  refine ⟨map_item_placeLines program.lines, ?_, ?_⟩
  · intro placement member keyword trimmed
    exact ⟨text_eq_keyword_append trimmed (read member), loses trimmed⟩
  · exact forall₂_congr fun placement member => forall₂_congr fun keyword trimmed =>
      text_eq_withoutExtraSpace_iff trimmed (read member) (loses trimmed)

/-- A remark loses a space behind a word that ends like its keyword. -/
theorem not_sparesContents_of_theorem :
    let options : Options := { showHeader := false, deleteExtraRemSpace := true }
    let program := decode (encode 0x801
      [(10, [0xB2, 0x54, 0x48, 0x45, 0x4F, 0x52, 0x45, 0x4D, 0x20, 0x20, 0x31])])
    (program.list options Machine.listing []).text = "    10  REM THEOREM 1".toList ∧
      ¬program.SparesContents options Machine.listing [] := by
  decide +kernel

/-- Behind an extra space such a word is safe. -/
example :
    let options : Options := { showHeader := false, deleteExtraRemSpace := true }
    let program := decode (encode 0x801
      [(10, [0xB2, 0x20, 0x54, 0x48, 0x45, 0x4F, 0x52, 0x45, 0x4D, 0x20, 0x20, 0x31])])
    (program.list options Machine.listing []).text = "    10  REM THEOREM  1".toList ∧
      program.SparesContents options Machine.listing [] := by
  decide +kernel

end Program

end Applesoft
