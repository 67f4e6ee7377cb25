import Applesoft.Proofs.Placement
import Applesoft.Proofs.Reuse.Disassemblers

namespace Applesoft.Reuse

open Listing

structure Renderer where
  options : Options
  kind : DisassemblerKind
  /-- What the disassembler holds. -/
  memory : kind.Memory
  diagnostics : List Diagnostic
  /-- The line that is being laid out, or that has been laid out last. -/
  currentLine : UInt16

/-- The progress of a layout whose anomalies have been reported. -/
def reported (progress : Progress) : Progress :=
  { progress with anomalies := [] }

namespace Renderer

/-- A renderer that has rendered nothing, for some options and with a new disassembler. -/
def fresh (options : Options) (kind : DisassemblerKind) : Renderer where
  options := options
  kind := kind
  memory := kind.new
  diagnostics := []
  currentLine := 0

/-- An anomaly of the current line. -/
def locate (renderer : Renderer) (cause : Anomaly) : Diagnostic :=
  ⟨renderer.currentLine, cause⟩

/-- Enters anomalies of the current line. -/
def note (renderer : Renderer) (anomalies : List Anomaly) : Renderer :=
  { renderer with diagnostics := renderer.diagnostics ++ anomalies.map renderer.locate }

/-- The rows of machine code in a remark, as the disassembler answers for it. -/
def showCode (renderer : Renderer) (loadAddress : Nat) (margin : Text) (fragment : Fragment) :
    Renderer × List Text :=
  let answered := renderer.kind.respond renderer.memory (loadAddress + fragment.start + 1)
    fragment.arguments
  ({ renderer with memory := answered.1 },
    codeRows (fun _ _ => answered.2) loadAddress margin fragment)

/-- Lays out an item behind those before it in its line. -/
def layoutItem (renderer : Renderer) (program : Program) (base : Text) (item : Item)
    (later : List Item) (following : List Line) (progress : Progress) : Renderer × Progress :=
  let begun := progress.enter item
  let before := margin renderer.options base item begun.nesting.indent
  match remarkForm item.fragment with
  | .code =>
      let shown := renderer.showCode program.loadAddress before item.fragment
      (shown.1, { begun with rows := begun.rows ++ shown.2 })
  | .prose =>
      (renderer,
        { begun with rows := begun.rows ++ proseRows renderer.options before item.fragment })
  | .plain =>
      let laidOut := layoutText renderer.options base item later following begun
      (renderer.note laidOut.anomalies, reported laidOut)

def layoutItems (renderer : Renderer) (program : Program) (base : Text) (following : List Line) :
    List Item → Progress → Renderer × Progress
  | [], progress => (renderer, progress)
  | item :: later, progress =>
      let laidOut := renderer.layoutItem program base item later following progress
      laidOut.1.layoutItems program base following later laidOut.2

/-- The progress behind a line, given that behind its last item. -/
def endLine (options : Options) (base : Text) (line : Line) (progress : Progress) : Progress :=
  let shown := if (items line).isEmpty then [Text.trimEnd base] else progress.rows
  { progress with
    column := progress.columnBehindLine
    rows := if options.blankAfterReturn && hasReturn line then shown ++ [[]] else shown }

def layoutLine (renderer : Renderer) (program : Program) (line : Line) (following : List Line)
    (progress : Progress) : Renderer × Progress :=
  let base := lineBase renderer.options program.symbols line
  let begun : Renderer := { renderer with currentLine := line.number }
  let laidOut := begun.layoutItems program base following (items line) progress.startLine
  (laidOut.1, endLine renderer.options base line laidOut.2)

/-- Lays out lines and gives their rows. -/
def layoutLines (renderer : Renderer) (program : Program) :
    List Line → Progress → Renderer × List Text
  | [], _ => (renderer, [])
  | line :: following, progress =>
      let laidOut := renderer.layoutLine program line following progress
      let further := laidOut.1.layoutLines program following laidOut.2
      (further.1, laidOut.2.rows ++ further.2)

def list (renderer : Renderer) (program : Program) (name : Text) : Renderer × Listing :=
  let cleared : Renderer := { renderer with diagnostics := [] }
  let body := cleared.layoutLines program program.lines {}
  let page := (if renderer.options.showHeader then headerRows program name else []) ++
    body.2 ++ extraRows program
  ({ body.1 with diagnostics := [] },
    { text := pageText ((sections renderer.options program.symbols).foldl addSection page)
      diagnostics := program.diagnostics ++ body.1.diagnostics })

/-- A renderer that holds other things. -/
def holding (renderer : Renderer) (memory : renderer.kind.Memory)
    (diagnostics : List Diagnostic) : Renderer :=
  { renderer with memory := memory, diagnostics := diagnostics }

section Answers

variable (renderer : Renderer) (program : Program) (base : Text) (following : List Line)

/-- What a layout depends on for a renderer, whatever that holds. -/
def setting : Setting :=
  program.setting renderer.options renderer.kind.answer

theorem anomalies_layoutText
    (options : Options) (item : Item) (later : List Item) (progress : Progress) :
    (layoutText options base item later following progress).anomalies =
      progress.anomalies ++
        (layoutText options base item later following (reported progress)).anomalies := by
  simp only [layoutText, reported, List.nil_append]

theorem exists_showCode_eq
    (answers : renderer.kind.AnswersFromArguments) (loadAddress : Nat) (margin : Text)
    (fragment : Fragment) (memory : renderer.kind.Memory) (held : List Diagnostic) :
    ∃ behind, (renderer.holding memory held).showCode loadAddress margin fragment =
      (renderer.holding behind held,
        codeRows renderer.kind.answer loadAddress margin fragment) := by
  refine ⟨_, Prod.ext rfl ?_⟩
  rw [showCode, codeRows, codeRows]
  simp only [DisassemblerKind.answer]
  rw [answers renderer.kind.new]
  rfl

/-- A renderer lays out an item as its setting says. It reports the anomalies of the item behind
those from before it in the line. -/
theorem exists_layoutItem_eq
    (answers : renderer.kind.AnswersFromArguments) (item : Item) (later : List Item)
    (progress : Progress) (memory : renderer.kind.Memory) (held : List Diagnostic) :
    let laidOut := Listing.layoutItem (renderer.setting program) base item later following progress
    ∃ behind,
      (renderer.holding memory (held ++ progress.anomalies.map renderer.locate)).layoutItem
          program base item later following (reported progress) =
        (renderer.holding behind (held ++ laidOut.anomalies.map renderer.locate),
          reported laidOut) := by
  cases form : remarkForm item.fragment with
  | code =>
      obtain ⟨behind, shown⟩ := exists_showCode_eq renderer answers program.loadAddress
        (margin renderer.options base item (progress.enter item).nesting.indent) item.fragment
        memory (held ++ progress.anomalies.map renderer.locate)
      refine ⟨behind, ?_⟩
      simp only [layoutItem, Listing.layoutItem, form]
      exact congrArg
        (fun result : Renderer × List Text =>
          (result.1, { reported (progress.enter item) with rows := progress.rows ++ result.2 }))
        shown
  | prose =>
      refine ⟨memory, ?_⟩
      simp only [layoutItem, Listing.layoutItem, form]
      rfl
  | plain =>
      have noted := anomalies_layoutText base following renderer.options item later
        (progress.enter item)
      refine ⟨memory, ?_⟩
      simp only [layoutItem, form, layoutItem_of_plain form]
      refine Prod.ext ?_ rfl
      change renderer.holding memory _ = renderer.holding memory (held ++
        (layoutText renderer.options base item later following
          (progress.enter item)).anomalies.map renderer.locate)
      rw [noted, List.map_append, ← List.append_assoc]
      rfl

/-- The induction is on the items that are left. Any of them may change what the disassembler
holds. -/
theorem exists_layoutItems_eq
    (answers : renderer.kind.AnswersFromArguments) (items : List Item)
    (progress : Progress) (memory : renderer.kind.Memory) (held : List Diagnostic) :
    let laidOut := Listing.layoutItems (renderer.setting program) base following items progress
    ∃ behind,
      (renderer.holding memory (held ++ progress.anomalies.map renderer.locate)).layoutItems
          program base following items (reported progress) =
        (renderer.holding behind (held ++ laidOut.anomalies.map renderer.locate),
          reported laidOut) := by
  induction items generalizing progress memory with
  | nil => exact ⟨memory, rfl⟩
  | cons item later hypothesis =>
      obtain ⟨between, front⟩ := exists_layoutItem_eq renderer program base following answers item
        later progress memory held
      obtain ⟨behind, rest⟩ := hypothesis
        (Listing.layoutItem (renderer.setting program) base item later following progress) between
      refine ⟨behind, ?_⟩
      rw [layoutItems, front]
      exact rest

/-- A renderer lays out a line as its setting says. The line becomes the current one, and its
anomalies are reported. -/
theorem exists_layoutLine_eq
    (answers : renderer.kind.AnswersFromArguments) (line : Line) (progress : Progress) :
    let laidOut := Listing.layoutLine (renderer.setting program) line following progress
    ∃ behind,
      renderer.layoutLine program line following (reported progress) =
        ({ renderer with
            memory := behind
            diagnostics :=
              renderer.diagnostics ++ laidOut.anomalies.map fun cause => ⟨line.number, cause⟩
            currentLine := line.number },
          reported laidOut) := by
  let begun : Renderer := { renderer with currentLine := line.number }
  obtain ⟨behind, laidOut⟩ := exists_layoutItems_eq begun program
    (lineBase renderer.options program.symbols line) following answers (items line)
    progress.startLine renderer.memory renderer.diagnostics
  refine ⟨behind, ?_⟩
  -- A line begins without anomalies of its own, so nothing is added to those reported before.
  have start : begun.holding renderer.memory
      (renderer.diagnostics ++ progress.startLine.anomalies.map begun.locate) = begun := by
    change begun.holding renderer.memory (renderer.diagnostics ++ []) = begun
    rw [List.append_nil]
    rfl
  rw [start] at laidOut
  exact congrArg
    (fun result : Renderer × Progress =>
      (result.1, endLine renderer.options (lineBase renderer.options program.symbols line) line
        result.2))
    laidOut

theorem exists_layoutLines_eq
    (answers : renderer.kind.AnswersFromArguments) (lines : List Line) (progress : Progress) :
    let laidOut := Listing.layoutLines (renderer.setting program) lines progress
    ∃ behind last,
      renderer.layoutLines program lines (reported progress) =
        ({ renderer with
            memory := behind
            diagnostics := renderer.diagnostics ++ laidOut.flatMap Prod.snd
            currentLine := last },
          laidOut.flatMap Prod.fst) := by
  induction lines generalizing renderer progress with
  | nil =>
      refine ⟨renderer.memory, renderer.currentLine, Prod.ext ?_ rfl⟩
      simp only [Listing.layoutLines, List.flatMap_nil, List.append_nil]
      rfl
  | cons line following hypothesis =>
      obtain ⟨between, here⟩ := exists_layoutLine_eq renderer program following answers line
        progress
      let laidOut := Listing.layoutLine (renderer.setting program) line following progress
      let behindLine : Renderer := {
        renderer with
        memory := between
        diagnostics :=
          renderer.diagnostics ++ laidOut.anomalies.map fun cause => ⟨line.number, cause⟩
        currentLine := line.number }
      obtain ⟨behind, last, rest⟩ := hypothesis behindLine answers laidOut
      refine ⟨behind, last, ?_⟩
      rw [layoutLines, here]
      change ((behindLine.layoutLines program following (reported laidOut)).1,
        laidOut.rows ++ (behindLine.layoutLines program following (reported laidOut)).2) = _
      rw [rest, Listing.layoutLines, List.flatMap_cons, List.flatMap_cons, ← List.append_assoc]
      rfl

/-- A renderer makes the listing that follows from the program and its options, whatever it holds.
It keeps its options and its disassembler. -/
theorem exists_list_eq (answers : renderer.kind.AnswersFromArguments) (name : Text) :
    ∃ behind last,
      renderer.list program name =
        ({ renderer with memory := behind, diagnostics := [], currentLine := last },
          program.list renderer.options renderer.kind.answer name) := by
  obtain ⟨behind, last, body⟩ :=
    exists_layoutLines_eq { renderer with diagnostics := [] } program answers program.lines {}
  have rendered :
      ({ renderer with diagnostics := [] } : Renderer).layoutLines program program.lines {} = _ :=
    body
  refine ⟨behind, last, ?_⟩
  simp only [list]
  rw [rendered]
  rfl

end Answers

end Renderer

end Applesoft.Reuse
