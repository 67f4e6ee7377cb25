import Applesoft.Machine.Disassembly
import Applesoft.Proofs.Ink
import Applesoft.Proofs.Placement
import Applesoft.Proofs.RoundTrip
import Applesoft.Proofs.Spacing

/-!
The ink of a listing. Of a program without machine code and control characters in its remarks, a
listing shows the number of each line and the text of its statements, and moves nothing but spaces
and line feeds between them.

The main statement is that the ink of a listing without sections and gutter is, line by line, the
number of the line and the ink of its statements.
-/

namespace Applesoft

open Text (ink ink_append ink_spaces)

theorem Fragment.ink_text (options : Options) (fragment : Fragment) :
    ink (fragment.text options) = (fragment.text options).filter (· ≠ ' ') := by
  refine List.filter_congr fun character member => ?_
  have noNewline : character ≠ '\n' := by
    rintro rfl
    exact (fragment.isPlain_text options).newline_notMem member
  simp [noNewline]

namespace Listing

/-- Whether a listing with some options is that of a program alone, without a header, a gutter or
further sections, and with all line numbers. -/
structure ShowsProgramOnly (options : Options) : Prop where
  header : options.showHeader = false
  targets : options.showTargets = false
  numbers : options.onlyShowTargetLineNumbers = false
  jumps : options.showXref = false
  names : options.showSymbols = false
  literals : options.listStrings = false

theorem ink_decimal (number : Nat) : ink (Numeral.decimal number) = Numeral.decimal number := by
  refine List.filter_eq_self.2 fun character member => ?_
  have digit : character.isDigit = true :=
    Nat.isDigit_of_mem_toDigits (by decide) (by decide) member
  have noSpace : character ≠ ' ' := by
    rintro rfl
    exact absurd digit (by decide)
  have noNewline : character ≠ '\n' := by
    rintro rfl
    exact absurd digit (by decide)
  simp [noSpace, noNewline]

section Layout

variable {setting : Setting} {base : Text} {following : List Line} {progress : Progress}

/-- The ink of an item: that of its text, behind the number of its line if it is the first one. -/
def Item.ink (options : Options) (number : Text) (item : Item) : Text :=
  (if item.leading then number else []) ++ Text.ink (item.fragment.text options)

theorem ink_margin (noTargets : setting.options.showTargets = false) (item : Item) (indent : Nat) :
    ink (margin setting.options base item indent) = if item.leading then ink base else [] := by
  have noMark : jumpMark setting.options item.fragment = [] := by simp [jumpMark, noTargets]
  rw [margin, Text.ink_padRight, noMark, List.append_nil]
  split
  · rw [ink_append]
    exact List.append_nil _
  · rfl

theorem flatMap_ink_layoutItem
    {item : Item}
    (noTargets : setting.options.showTargets = false)
    (plain : remarkForm item.fragment = .plain) (later : List Item) :
    (layoutItem setting base item later following progress).rows.flatMap ink =
      progress.rows.flatMap ink ++ item.ink setting.options (ink base) := by
  have text (column : Nat) : ink (Pieces.ofText setting.options item.fragment
      (statementText setting.options column item.fragment)).content =
        ink (item.fragment.text setting.options) := by
    rw [Pieces.ink_content_ofText, ink_statementText]
  rw [layoutItem_of_plain plain, layoutText, Item.ink]
  cases joined : item.isJoined setting.options with
  | true =>
      have behind : item.leading = false := by
        simp only [Item.isJoined, Bool.and_eq_true, Bool.not_eq_true'] at joined
        exact joined.2
      simp only [if_true]
      rw [Pieces.flatMap_ink_join, text, behind]
      rfl
  | false =>
      simp only [Bool.false_eq_true, if_false]
      rw [List.flatMap_append, Pieces.flatMap_ink_rows, text, ink_margin noTargets]
      rfl

theorem flatMap_ink_layoutItems
    {items : List Item}
    (noTargets : setting.options.showTargets = false)
    (plain : ∀ item ∈ items, remarkForm item.fragment = .plain)
    (base : Text) (following : List Line) (progress : Progress) :
    (layoutItems setting base following items progress).rows.flatMap ink =
      progress.rows.flatMap ink ++ items.flatMap (Item.ink setting.options (ink base)) := by
  induction items generalizing progress with
  | nil => simp [layoutItems]
  | cons item later hypothesis =>
      rw [List.forall_mem_cons] at plain
      rw [layoutItems, hypothesis plain.2, flatMap_ink_layoutItem noTargets plain.1,
        List.flatMap_cons, List.append_assoc]

theorem flatMap_ink_items (options : Options) (number : Text) (line : Line) :
    (items line).flatMap (Item.ink options number) =
      (if (items line).isEmpty then [] else number) ++
        line.visible.flatMap fun fragment => ink (fragment.text options) := by
  have later (conditional : Bool) (fragments : List Fragment) :
      (itemsFrom false conditional fragments).flatMap (Item.ink options number) =
        fragments.flatMap fun fragment => ink (fragment.text options) := by
    induction fragments generalizing conditional with
    | nil => rfl
    | cons fragment rest hypothesis =>
        rw [itemsFrom, List.flatMap_cons, hypothesis, List.flatMap_cons]
        rfl
  rw [items]
  cases line.visible with
  | nil => rfl
  | cons fragment rest =>
      rw [itemsFrom, List.flatMap_cons, later, List.flatMap_cons, ← List.append_assoc]
      rfl

theorem ink_lineBase
    (only : ShowsProgramOnly setting.options) (line : Line) :
    ink (lineBase setting.options setting.symbols line) = Numeral.decimal line.number.toNat := by
  have padding (count : Nat) : ink (List.replicate count ' ') = [] := ink_spaces count
  rw [lineBase, only.targets, numberText, only.numbers]
  simp only [Bool.false_eq_true, if_false, Bool.false_and]
  rw [← List.singleton_append, ink_append, Text.padLeft, ink_append, padding, ink_decimal]
  rfl

theorem trimEnd_lineBase
    (only : ShowsProgramOnly setting.options) (line : Line) :
    Text.trimEnd (lineBase setting.options setting.symbols line) =
      lineBase setting.options setting.symbols line := by
  obtain ⟨front, last, shape⟩ : ∃ front last,
      Numeral.decimal line.number.toNat = front ++ [last] := by
    rcases List.eq_nil_or_concat (Numeral.decimal line.number.toNat) with nothing | concat
    · exact absurd nothing Nat.toDigits_ne_nil
    · simpa using concat
  have digit : last.isDigit = true := by
    have member : last ∈ Numeral.decimal line.number.toNat := by simp [shape]
    exact Nat.isDigit_of_mem_toDigits (by decide) (by decide) member
  have bounds := (isDigit_iff_toNat last).1 digit
  have visible : Text.isBlank last = false :=
    Text.isBlank_eq_false_of_toNat (by omega) (by omega)
  rw [lineBase, only.targets, numberText, only.numbers]
  simp [Text.padLeft, shape, Text.trimEnd, Text.dropTrailing, visible]

/-- The ink of a line: its number and the ink of its statements. -/
def lineInk (options : Options) (line : Line) : Text :=
  Numeral.decimal line.number.toNat ++
    line.visible.flatMap fun fragment => (fragment.text options).filter (· ≠ ' ')

/-- Whether no remark of a line has machine code or control characters. -/
def HasPlainRemarks (line : Line) : Prop :=
  ∀ fragment ∈ line.fragments, fragment.isRemark = true →
    fragment.containsToken = false ∧ fragment.containsControl = false

instance (line : Line) : Decidable (HasPlainRemarks line) :=
  inferInstanceAs (Decidable (∀ fragment ∈ line.fragments, _ → _ ∧ _))

theorem HasPlainRemarks.remarkForm_eq_plain
    {line : Line} (plain : HasPlainRemarks line) {item : Item} (member : item ∈ items line) :
    remarkForm item.fragment = .plain := by
  unfold remarkForm
  cases remark : item.fragment.isRemark with
  | false => rfl
  | true =>
      obtain ⟨noToken, noControl⟩ := plain item.fragment (mem_fragments_of_mem_items member) remark
      rw [noToken, noControl]
      rfl

theorem flatMap_ink_layoutLine
    {line : Line}
    (only : ShowsProgramOnly setting.options) (plain : HasPlainRemarks line) :
    (layoutLine setting line following progress).rows.flatMap ink =
      lineInk setting.options line := by
  have shown := flatMap_ink_layoutItems only.targets
    (fun item member => plain.remarkForm_eq_plain member)
    (lineBase setting.options setting.symbols line) following progress.startLine
  have start : progress.startLine.rows.flatMap ink = [] := rfl
  have texts : (line.visible.flatMap fun fragment => ink (fragment.text setting.options)) =
      line.visible.flatMap fun fragment =>
        (fragment.text setting.options).filter (· ≠ ' ') :=
    List.flatMap_congr fun fragment _ => fragment.ink_text setting.options
  rw [start, List.nil_append, flatMap_ink_items, ink_lineBase only, texts] at shown
  have rows : (if (items line).isEmpty then
        [Text.trimEnd (lineBase setting.options setting.symbols line)]
      else
        (layoutItems setting (lineBase setting.options setting.symbols line) following
          (items line) progress.startLine).rows).flatMap ink =
      lineInk setting.options line := by
    rw [lineInk]
    cases empty : (items line).isEmpty with
    | true =>
        have nothing : line.visible = [] := by
          rw [← map_fragment_itemsFrom true false line.visible]
          exact List.map_eq_nil_iff.2 (List.isEmpty_iff.1 empty)
        simp [nothing, trimEnd_lineBase only, ink_lineBase only]
    | false =>
        rw [empty] at shown
        exact shown
  rw [← rows, layoutLine]
  simp only
  split
  · rw [List.flatMap_append]
    exact List.append_nil _
  · rfl

end Layout

theorem flatMap_ink_layoutLines
    (setting : Setting) {lines : List Line} (progress : Progress)
    (only : ShowsProgramOnly setting.options) (plain : ∀ line ∈ lines, HasPlainRemarks line) :
    ((layoutLines setting lines progress).flatMap Prod.fst).flatMap ink =
      lines.flatMap (lineInk setting.options) := by
  induction lines generalizing progress with
  | nil => rfl
  | cons line following hypothesis =>
      rw [List.forall_mem_cons] at plain
      rw [layoutLines, List.flatMap_cons, List.flatMap_append, hypothesis _ plain.2,
        flatMap_ink_layoutLine only plain.1, List.flatMap_cons]

theorem ink_pageText (rows : List Text) : ink (pageText rows) = rows.flatMap ink := by
  have lines : (rows.flatMap fun row => ink (row ++ ['\n'])) = rows.flatMap ink := by
    refine List.flatMap_congr fun row _ => ?_
    rw [ink_append]
    exact List.append_nil _
  obtain ⟨ending, whole, newlines⟩ := Text.exists_dropTrailing_append (· = '\n')
    (rows.flatMap fun row => row ++ ['\n'])
  have blank : ink ending = [] := by
    rw [ink, List.filter_eq_nil_iff]
    intro character member
    simp [of_decide_eq_true (newlines character member)]
  have same := congrArg ink whole
  rw [ink_append, blank, List.append_nil] at same
  rw [pageText, ← same, ← lines, ink, List.filter_flatMap]
  rfl

end Listing

open Listing

/-- A listing of the lines of a program alone shows the number of each line and the text of its
statements, in order. All else that it has are spaces and line feeds. -/
theorem Program.ink_list_text
    (program : Program) (options : Options) (disassembler : Disassembler) (name : Text)
    (only : ShowsProgramOnly options)
    (ends : program.extraData = none)
    (plain : ∀ line ∈ program.lines, HasPlainRemarks line) :
    ((program.list options disassembler name).text.filter fun character =>
        character ≠ ' ' ∧ character ≠ '\n') =
      program.lines.flatMap fun line =>
        Numeral.decimal line.number.toNat ++
          line.visible.flatMap fun fragment =>
            (fragment.text options).filter (· ≠ ' ') := by
  have sections : Listing.sections options program.symbols = [] := by
    simp [Listing.sections, only.jumps, only.names, only.literals]
  have extra : extraRows program = [] := by rw [extraRows, ends]
  have page := ink_pageText
    ((layoutLines (program.setting options disassembler) program.lines {}).flatMap Prod.fst)
  rw [flatMap_ink_layoutLines (program.setting options disassembler) {} only plain] at page
  rw [Program.list]
  simp only [only.header, extra, sections, Bool.false_eq_true, if_false, List.nil_append,
    List.append_nil, List.foldl_nil]
  exact page

/-- An assignment with a remark joined to it, and a PRINT whose literal is cut. -/
theorem Program.ink_list_text_of_cut_literal :
    let options : Options := { showHeader := false, wrapPrintAt := 3 }
    let program := decode (encode 0x801
      [(10, [0x41, 0xD0, 0x31, 0x3A, 0xB2, 0x48, 0x49]),
        (20, [0xBA, 0x22, 0x41, 0x42, 0x43, 0x44, 0x22])])
    ((program.list options Machine.listing []).text.filter fun character =>
        character ≠ ' ' ∧ character ≠ '\n') =
      "10A=1REMHI20PRINT\"ABCD\"".toList := by
  intro options program
  exact (program.ink_list_text options Machine.listing [] ⟨rfl, rfl, rfl, rfl, rfl, rfl⟩
    (by decide +kernel) (by decide +kernel)).trans (by decide +kernel)

end Applesoft
