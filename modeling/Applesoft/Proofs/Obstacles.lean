import Applesoft.Proofs.Arrays
import Applesoft.Proofs.Jumps
import Applesoft.Proofs.Reuse.Renderer

/-!
What stands in the way of a layout. A remark or DATA may stay wider than it should be, for want of a
place to break it, and a DIM may have other things in it than arrays. Nothing else is noted while a
program is laid out.

The main statement is that a renderer reports the anomalies of the program and then, fragment by
fragment, each obstacle once, whatever it has rendered before.
-/

namespace Applesoft

theorem Wrapping.not_isArraySequence_nil : ¬IsArraySequence [] := by
  rintro ⟨arrays, nonempty, areArrays, shape⟩
  have found := (arrays?_eq_some_iff [] arrays).2 ⟨areArrays, shape⟩
  rw [arrays?_nil] at found
  exact nonempty (Option.some.inj found).symm

theorem ofKeyword_ne_dim
    {token : UInt8} (different : token ≠ Keyword.dimToken) (arguments : Bytes) :
    Statement.ofKeyword token arguments ≠ .dim := by
  simp only [Statement.ofKeyword, Statement.ofOn, apply_ite (· ≠ Statement.dim)]
  simp [different]

theorem exists_of_ofBody_eq_dim {body : Bytes} (dim : Statement.ofBody body = .dim) :
    ∃ arguments, body = Keyword.dimToken :: arguments :=
  Statement.exists_of_ofBody_eq dim (fun _ => ofKeyword_ne_dim) nofun nofun nofun nofun

namespace Listing

/-- The text of a fragment that is to be wrapped. An option may delete the extra space behind its
keyword. -/
def wrappedText (options : Options) (deleted : Bool) (keyword : String) (fragment : Fragment) :
    Text :=
  if deleted then deleteExtraSpace keyword (fragment.text options) else fragment.text options

/-- Whether a piece of a text is longer than the width that the text is wrapped at. -/
def ExceedsWidth (width : Nat) (breaker : Char) (text : Text) : Prop :=
  width ≠ 0 ∧ ∃ piece ∈ Wrapping.splitLine width breaker text, width < piece.length

instance (width : Nat) (breaker : Char) (text : Text) :
    Decidable (ExceedsWidth width breaker text) :=
  inferInstanceAs (Decidable (_ ∧ _))

/-- Whether a fragment cannot be laid out as the options ask. -/
inductive Obstructs (options : Options) (fragment : Fragment) : Anomaly → Prop
  | remark :
      fragment.statement = .remark →
      (∀ byte ∈ fragment.arguments, 32 ≤ byte ∧ byte ≤ 127) →
      ExceedsWidth options.wrapRemAt ' '
        (wrappedText options options.deleteExtraRemSpace "REM" fragment) →
      Obstructs options fragment (.noBreakPoint .rem)
  | data :
      fragment.statement = .data →
      ExceedsWidth options.wrapDataAt ','
        (wrappedText options options.deleteExtraDataSpace "DATA" fragment) →
      Obstructs options fragment (.noBreakPoint .data)
  | dim :
      fragment.statement = .dim →
      options.splitDim = true →
      ¬Wrapping.IsArraySequence (Text.trimEnd (Rendering.render options fragment.arguments)) →
      Obstructs options fragment .dimNotSplit

/-- The obstacle that a fragment is, if it is one. -/
def obstacle? (options : Options) (fragment : Fragment) : Option Anomaly :=
  match fragment.statement with
  | .remark =>
      if remarkForm fragment = .plain ∧
          ExceedsWidth options.wrapRemAt ' '
            (wrappedText options options.deleteExtraRemSpace "REM" fragment) then
        some (.noBreakPoint .rem)
      else
        none
  | .data =>
      if ExceedsWidth options.wrapDataAt ','
          (wrappedText options options.deleteExtraDataSpace "DATA" fragment) then
        some (.noBreakPoint .data)
      else
        none
  | .dim =>
      if options.splitDim = true ∧ Wrapping.splitDim (fragment.text options) = none then
        some .dimNotSplit
      else
        none
  | _ => none

section Fragments

variable {options : Options} {fragment : Fragment}

theorem remarkForm_eq_plain_iff (remark : fragment.statement = .remark) :
    remarkForm fragment = .plain ↔ ∀ byte ∈ fragment.arguments, 32 ≤ byte ∧ byte ≤ 127 := by
  have isRemark : fragment.isRemark = true := decide_eq_true remark
  rw [remarkForm, isRemark]
  simp only [Bool.not_true, Bool.false_eq_true, if_false]
  cases token : fragment.containsToken with
  | true =>
      obtain ⟨byte, member, high⟩ := List.any_eq_true.1 token
      refine iff_of_false (by simp) fun low => ?_
      exact absurd (of_decide_eq_true high) (UInt8.not_lt.2 (low byte member).2)
  | false =>
      cases control : fragment.containsControl with
      | true =>
          obtain ⟨byte, member, low⟩ := List.any_eq_true.1 control
          refine iff_of_false (by simp) fun high => ?_
          exact absurd (of_decide_eq_true low) (UInt8.not_lt.2 (high byte member).1)
      | false =>
          refine iff_of_true (by simp) fun byte member => ⟨?_, ?_⟩
          · exact UInt8.not_lt.1 (mt decide_eq_true (List.any_eq_false.1 control byte member))
          · exact UInt8.not_lt.1 (mt decide_eq_true (List.any_eq_false.1 token byte member))

/-- The text of a DIM is its keyword and its arguments. -/
theorem text_of_dim
    (dim : fragment.statement = .dim) (read : fragment.statement = Statement.ofBody fragment.body) :
    fragment.text options =
      Text.trimEnd ("DIM ".toList ++ Rendering.render options fragment.arguments) := by
  obtain ⟨arguments, body⟩ := exists_of_ofBody_eq_dim (read.symm.trans dim)
  rw [Fragment.text, Fragment.impliedKeyword, Fragment.arguments, dim, body]
  rfl

theorem splitDim_text_eq_none_iff
    (dim : fragment.statement = .dim) (read : fragment.statement = Statement.ofBody fragment.body) :
    Wrapping.splitDim (fragment.text options) = none ↔
      ¬Wrapping.IsArraySequence
        (Text.trimEnd (Rendering.render options fragment.arguments)) := by
  rw [text_of_dim dim read, Text.trimEnd_append]
  split
  · next blank =>
      rw [blank]
      exact iff_of_true rfl Wrapping.not_isArraySequence_nil
  · exact Wrapping.splitDim_eq_none_iff _

theorem obstacle?_eq_some_iff
    (read : fragment.statement = Statement.ofBody fragment.body) (cause : Anomaly) :
    obstacle? options fragment = some cause ↔ Obstructs options fragment cause := by
  constructor
  · intro found
    unfold obstacle? at found
    split at found
    · next remark =>
        split at found
        · next obstructed =>
            obtain rfl := Option.some.inj found
            exact .remark remark ((remarkForm_eq_plain_iff remark).1 obstructed.1) obstructed.2
        · cases found
    · next data =>
        split at found
        · next exceeds =>
            obtain rfl := Option.some.inj found
            exact .data data exceeds
        · cases found
    · next dim =>
        split at found
        · next obstructed =>
            obtain rfl := Option.some.inj found
            exact .dim dim obstructed.1 ((splitDim_text_eq_none_iff dim read).1 obstructed.2)
        · cases found
    · cases found
  · intro obstructs
    cases obstructs with
    | remark remark plain exceeds =>
        rw [obstacle?, remark]
        exact if_pos ⟨(remarkForm_eq_plain_iff remark).2 plain, exceeds⟩
    | data data exceeds =>
        rw [obstacle?, data]
        exact if_pos exceeds
    | dim dim split noArrays =>
        rw [obstacle?, dim]
        exact if_pos ⟨split, (splitDim_text_eq_none_iff dim read).2 noArrays⟩

end Fragments

theorem alignedText_of_ne_assignment
    {fragment : Fragment} (noAssignment : fragment.statement ≠ .assignment) (options : Options)
    (column : Nat) :
    alignedText options column fragment = fragment.text options := by
  have position : fragment.assignPosition = 0 := by
    rw [Fragment.assignPosition, if_neg (fun assigned => noAssignment assigned.1)]
  have own : fragment.equalsColumn options = 0 := by
    rw [Fragment.equalsColumn, if_pos position]
  rw [alignedText, own]
  exact if_neg (fun moved => absurd moved.1 (Nat.lt_irrefl 0))

theorem anomalies_ofList (text : Text) (anomalies : List Anomaly) (list : List Text) :
    (Pieces.ofList text anomalies list).anomalies = anomalies := by
  cases list with
  | nil => rfl
  | cons first others => rfl

theorem anomalies_ofPrint (options : Options) (fragment : Fragment) (text : Text) :
    (Pieces.ofPrint options fragment text).anomalies = [] := by
  unfold Pieces.ofPrint
  split
  · split
    · exact anomalies_ofList _ _ _
    · rfl
  · rfl

theorem anomalies_wrap (width : Nat) (breaker : Char) (wrapped : WrappedStatement) (text : Text) :
    (Pieces.wrap width breaker wrapped text).anomalies =
      if ExceedsWidth width breaker text then [.noBreakPoint wrapped] else [] :=
  anomalies_ofList _ _ _

theorem statementText_of_remark
    {fragment : Fragment} (remark : fragment.statement = .remark) (options : Options)
    (column : Nat) :
    statementText options column fragment =
      wrappedText options options.deleteExtraRemSpace "REM" fragment := by
  have noAssignment : fragment.statement ≠ .assignment := by simp [remark]
  have unmoved := alignedText_of_ne_assignment noAssignment options 0
  rw [statementText, remark]
  simp only [unmoved]
  rfl

theorem statementText_of_data
    {fragment : Fragment} (data : fragment.statement = .data) (options : Options)
    (column : Nat) :
    statementText options column fragment =
      wrappedText options options.deleteExtraDataSpace "DATA" fragment := by
  have noAssignment : fragment.statement ≠ .assignment := by simp [data]
  have unmoved := alignedText_of_ne_assignment noAssignment options column
  rw [statementText, data]
  simp only [unmoved]
  rfl

theorem statementText_of_dim
    {fragment : Fragment} (dim : fragment.statement = .dim) (options : Options)
    (column : Nat) :
    statementText options column fragment = fragment.text options := by
  rw [statementText, dim]
  exact alignedText_of_ne_assignment (by simp [dim]) options column

/-- Breaking a text into pieces meets with the obstacle of its fragment, and with no other. -/
theorem anomalies_ofText
    {fragment : Fragment} (plain : remarkForm fragment = .plain) (options : Options)
    (column : Nat) :
    (Pieces.ofText options fragment (statementText options column fragment)).anomalies =
      (obstacle? options fragment).toList := by
  rw [Pieces.ofText, obstacle?]
  cases statement : fragment.statement with
  | remark =>
      simp only [statementText_of_remark statement, anomalies_wrap, plain, true_and,
        apply_ite Option.toList]
      rfl
  | data =>
      simp only [statementText_of_data statement, anomalies_wrap, apply_ite Option.toList]
      rfl
  | dim =>
      simp only [statementText_of_dim statement, Pieces.ofDim]
      cases options.splitDim with
      | false => rfl
      | true =>
          cases Wrapping.splitDim (fragment.text options) with
          | none => rfl
          | some pieces => exact anomalies_ofList _ _ _
  | print => exact anomalies_ofPrint options fragment _
  | input => exact anomalies_ofPrint options fragment _
  | _ => rfl

/-- A remark with a form of its own is not wrapped. -/
theorem obstacle?_of_not_plain
    {fragment : Fragment} (notPlain : remarkForm fragment ≠ .plain) (options : Options) :
    obstacle? options fragment = none := by
  have remark : fragment.statement = .remark := by
    by_contra other
    exact notPlain (by simp [remarkForm, Fragment.isRemark, other])
  rw [obstacle?, remark]
  exact if_neg fun obstructed => notPlain obstructed.1

/-- Separators are no obstacles. -/
theorem filterMap_obstacle?_visible (options : Options) (line : Line) :
    line.visible.filterMap (obstacle? options) = line.fragments.filterMap (obstacle? options) := by
  have shown (fragment : Fragment) :
      ((Option.guard fun shown : Fragment => !shown.isEmpty) fragment).bind (obstacle? options) =
        obstacle? options fragment := by
    cases empty : fragment.isEmpty with
    | false => simp [Option.guard, empty]
    | true =>
        have separator : fragment.statement = .empty := of_decide_eq_true empty
        simp [Option.guard, empty, obstacle?, separator]
  rw [Line.visible, ← List.filterMap_eq_filter, List.filterMap_filterMap]
  exact List.filterMap_congr fun fragment _ => shown fragment

theorem filterMap_obstacle?_items (options : Options) (line : Line) :
    (items line).filterMap (fun item => obstacle? options item.fragment) =
      line.fragments.filterMap (obstacle? options) :=
  calc
    _ = ((items line).map Item.fragment).filterMap (obstacle? options) :=
      List.filterMap_map.symm
    _ = line.visible.filterMap (obstacle? options) := by rw [items, map_fragment_itemsFrom]
    _ = _ := filterMap_obstacle?_visible options line

end Listing

namespace Reuse.Renderer

open Listing

section Reports

variable (renderer : Renderer) (program : Program) (base : Text) (following : List Line)

theorem exists_layoutItem_reports
    {progress : Progress} (silent : progress.anomalies = []) (item : Item) (later : List Item) :
    ∃ behind further, further.anomalies = [] ∧
      renderer.layoutItem program base item later following progress =
        (renderer.holding behind (renderer.diagnostics ++
          (obstacle? renderer.options item.fragment).toList.map renderer.locate),
          further) := by
  cases form : remarkForm item.fragment with
  | code =>
      rw [layoutItem, form, obstacle?_of_not_plain (by simp [form]), Option.toList_none,
        List.map_nil, List.append_nil]
      refine ⟨_, _, ?_, rfl⟩
      exact silent
  | prose =>
      rw [layoutItem, form, obstacle?_of_not_plain (by simp [form]), Option.toList_none,
        List.map_nil, List.append_nil]
      refine ⟨_, _, ?_, rfl⟩
      exact silent
  | plain =>
      have noted : (layoutText renderer.options base item later following
            (progress.enter item)).anomalies =
          (obstacle? renderer.options item.fragment).toList := by
        rw [← anomalies_ofText form]
        exact congrArg (· ++ _) silent
      rw [layoutItem, form, ← noted]
      exact ⟨_, _, rfl, rfl⟩

theorem exists_layoutItems_reports
    {progress : Progress} (silent : progress.anomalies = []) (items : List Item) :
    ∃ behind further, further.anomalies = [] ∧
      renderer.layoutItems program base following items progress =
        (renderer.holding behind (renderer.diagnostics ++
          (items.filterMap fun item => obstacle? renderer.options item.fragment).map
            renderer.locate),
          further) := by
  induction items generalizing renderer progress with
  | nil =>
      rw [List.filterMap_nil, List.map_nil, List.append_nil]
      exact ⟨_, _, silent, rfl⟩
  | cons item later hypothesis =>
      obtain ⟨between, next, silentNext, front⟩ :=
        exists_layoutItem_reports renderer program base following silent item later
      obtain ⟨behind, further, silentFurther, rest⟩ := hypothesis
        (renderer.holding between (renderer.diagnostics ++
          (obstacle? renderer.options item.fragment).toList.map renderer.locate)) silentNext
      refine ⟨behind, further, silentFurther, ?_⟩
      rw [layoutItems, front, List.filterMap_eq_flatMap_toList, List.flatMap_cons, List.map_append,
        ← List.append_assoc, ← List.filterMap_eq_flatMap_toList]
      exact rest

/-- A line is reported with its obstacles, under its own number. -/
theorem exists_layoutLine_reports (progress : Progress) (line : Line) :
    ∃ behind further, further.anomalies = [] ∧
      renderer.layoutLine program line following progress =
        ({ renderer with
            memory := behind
            diagnostics := renderer.diagnostics ++
              (line.fragments.filterMap (obstacle? renderer.options)).map fun cause =>
                ⟨line.number, cause⟩
            currentLine := line.number },
          further) := by
  let begun : Renderer := { renderer with currentLine := line.number }
  have begunSilent : progress.startLine.anomalies = [] := rfl
  obtain ⟨behind, further, silent, reports⟩ := exists_layoutItems_reports begun program
    (lineBase renderer.options program.symbols line) following begunSilent (items line)
  rw [filterMap_obstacle?_items] at reports
  refine ⟨behind, endLine renderer.options (lineBase renderer.options program.symbols line) line
    further, silent, ?_⟩
  exact congrArg
    (fun result : Renderer × Progress =>
      (result.1, endLine renderer.options (lineBase renderer.options program.symbols line) line
        result.2))
    reports

theorem diagnostics_layoutLines (lines : List Line) (progress : Progress) :
    (renderer.layoutLines program lines progress).1.diagnostics =
      renderer.diagnostics ++ lines.flatMap fun line =>
        (line.fragments.filterMap (obstacle? renderer.options)).map fun cause =>
          ⟨line.number, cause⟩ := by
  induction lines generalizing renderer progress with
  | nil => exact (List.append_nil _).symm
  | cons line following hypothesis =>
      obtain ⟨behind, further, -, reports⟩ :=
        exists_layoutLine_reports renderer program following progress line
      rw [layoutLines, reports, List.flatMap_cons, ← List.append_assoc]
      exact hypothesis _ _

/-- A renderer reports the anomalies of a program and the obstacles in it, whatever it holds. -/
theorem diagnostics_list (name : Text) :
    (renderer.list program name).2.diagnostics =
      program.diagnostics ++ program.lines.flatMap fun line =>
        (line.fragments.filterMap (obstacle? renderer.options)).map fun cause =>
          ⟨line.number, cause⟩ := by
  have reports := diagnostics_layoutLines { renderer with diagnostics := [] } program
    program.lines {}
  rw [List.nil_append] at reports
  exact congrArg (program.diagnostics ++ ·) reports

end Reports

end Reuse.Renderer

namespace Program

open Listing

theorem isRendering_of_mem_segment
    {segment : Segment} {cause : Anomaly}
    (member : Finding.anomaly cause ∈ segment.findings) : cause.isRendering = false := by
  have target := concernsTarget_of_mem_segment member
  cases cause with
  | noBreakPoint wrapped => cases target
  | dimNotSplit => cases target
  | _ => rfl

/-- The anomalies of a program do not concern its layout. -/
theorem isRendering_of_mem_diagnostics
    {image : Bytes} {diagnostic : Diagnostic}
    (member : diagnostic ∈ (Program.decode image).diagnostics) :
    diagnostic.anomaly.isRendering = false := by
  obtain ⟨line, lineMember, among⟩ := List.mem_flatMap.1 member
  obtain ⟨record, -, rfl⟩ := List.mem_map.1 lineMember
  obtain ⟨cause, noted, rfl⟩ := List.mem_map.1 among
  obtain ⟨finding, found, isCause⟩ := List.mem_filterMap.1 noted
  have ofLayout : (Line.ofRecord record).findings.filterMap
      (fun finding => (anomaly? finding).filter Anomaly.isRendering) = [] := by
    rw [filterMap_findings_ofRecord _ (fun _ => rfl) rfl rfl rfl, List.flatMap_eq_nil_iff]
    intro segment _
    rw [List.filterMap_eq_nil_iff]
    intro finding own
    cases finding with
    | anomaly cause =>
        exact Option.filter_some_neg (by simp [isRendering_of_mem_segment own])
    | _ => rfl
  have none := List.filterMap_eq_nil_iff.1 ofLayout finding found
  rw [isCause] at none
  cases rendering : cause.isRendering with
  | false => rfl
  | true => simp [Option.filter, rendering] at none

theorem diagnostics_of_list
    (program : Program) (options : Options) (disassembler : Disassembler) (name : Text) :
    (program.list options disassembler name).diagnostics =
      program.diagnostics ++ program.lines.flatMap fun line =>
        (line.fragments.filterMap (obstacle? options)).map fun cause => ⟨line.number, cause⟩ := by
  let renderer := Reuse.Renderer.fresh options (.ofFunction disassembler)
  obtain ⟨behind, last, listed⟩ := renderer.exists_list_eq program
    (Reuse.DisassemblerKind.answersFromArguments_ofFunction disassembler) name
  have reports := renderer.diagnostics_list program name
  rw [listed] at reports
  exact reports

/-- The diagnostics of a listing are exact. They are the anomalies of the program, none of which
concerns the layout, and behind them the obstacles, line by line and fragment by fragment, under the
numbers of their lines: one for each fragment that cannot be laid out as the options ask, and no
other. This holds for any renderer, whatever it has rendered before. -/
theorem diagnostics_follow_obstacles (image : Bytes) (name : Text) :
    let program := Program.decode image
    (∀ diagnostic ∈ program.diagnostics, diagnostic.anomaly.isRendering = false) ∧
      (∀ options, ∀ line ∈ program.lines, ∀ fragment ∈ line.fragments, ∀ cause,
        obstacle? options fragment = some cause ↔ Obstructs options fragment cause) ∧
      (∀ renderer : Reuse.Renderer,
        (renderer.list program name).2.diagnostics =
          program.diagnostics ++ program.lines.flatMap fun line =>
            (line.fragments.filterMap (obstacle? renderer.options)).map fun cause =>
              ⟨line.number, cause⟩) ∧
      ∀ options disassembler,
        (program.list options disassembler name).diagnostics =
          program.diagnostics ++ program.lines.flatMap fun line =>
            (line.fragments.filterMap (obstacle? options)).map fun cause =>
              ⟨line.number, cause⟩ := by
  intro program
  refine ⟨fun _ => isRendering_of_mem_diagnostics, ?_, ?_, ?_⟩
  · intro options line lineMember fragment member cause
    obtain ⟨record, -, rfl⟩ := List.mem_map.1 lineMember
    obtain ⟨start, stop, placed⟩ := Payload.isStatement_of_mem_fragments member
    exact obstacle?_eq_some_iff placed.statement cause
  · intro renderer
    exact renderer.diagnostics_list program name
  · intro options disassembler
    exact diagnostics_of_list program options disassembler name

end Program

end Applesoft
