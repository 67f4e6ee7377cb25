import Applesoft.Command.Outcome
import Applesoft.Proofs.Documents
import Applesoft.Proofs.Naturals
import Applesoft.Proofs.Spelling

/-!
Where the options of a listing come from. Each option has a field in the configuration file and an
argument in the command line. What is written in the command line counts before what is in the file,
and that before the default. A field that holds a value of another type does not count.

The main statement says this of each option by itself, whatever else is in the file or the command
line and in whatever order.
-/

namespace Applesoft

open Command
open Json (Document IsWritten)

/-- An option that is on or off. Its flag sets it one way. -/
structure Toggle where
  key : String
  flag : String
  flagged : Bool
  default : Bool
  get : Options → Bool

/-- An option that is a number of columns. -/
structure Measure where
  key : String
  option : String
  default : Nat
  get : Options → Nat

def toggles : List Toggle :=
  [⟨"showHeader", "no-header", false, true, Options.showHeader⟩,
    ⟨"showTargets", "targets", true, false, Options.showTargets⟩,
    ⟨"onlyShowTargetLineNumbers", "only-targets", true, false,
      Options.onlyShowTargetLineNumbers⟩,
    ⟨"alignAssign", "no-align", false, true, Options.alignAssign⟩,
    ⟨"splitRem", "split-rem", true, false, Options.splitRem⟩,
    ⟨"deleteExtraRemSpace", "trim-rem", true, false, Options.deleteExtraRemSpace⟩,
    ⟨"deleteExtraDataSpace", "trim-data", true, false, Options.deleteExtraDataSpace⟩,
    ⟨"splitDim", "split-dim", true, false, Options.splitDim⟩,
    ⟨"showXref", "xref", true, false, Options.showXref⟩,
    ⟨"showSymbols", "symbols", true, false, Options.showSymbols⟩,
    ⟨"listStrings", "strings", true, false, Options.listStrings⟩,
    ⟨"blankAfterReturn", "blank-after-return", true, false, Options.blankAfterReturn⟩,
    ⟨"showThen", "hide-then", false, true, Options.showThen⟩,
    ⟨"showCaret", "caret", true, false, Options.showCaret⟩]

def measures : List Measure :=
  [⟨"wrapRemAt", "wrap-rem", 60, Options.wrapRemAt⟩,
    ⟨"wrapDataAt", "wrap-data", 60, Options.wrapDataAt⟩,
    ⟨"wrapPrintAt", "wrap-print", 0, Options.wrapPrintAt⟩]

/-- There are no other options. -/
theorem Options.eq_of_tables
    {left right : Options} (same : ∀ toggle ∈ toggles, toggle.get left = toggle.get right)
    (sameColumns : ∀ measure ∈ measures, measure.get left = measure.get right) :
    left = right := by
  simp only [toggles, measures, List.forall_mem_cons] at same sameColumns
  cases left
  cases right
  simp_all

/-- The last field of a name. -/
def lastField? (name : String) (fields : List (Text × Document)) : Option Document :=
  fields.reverse.lookup name.toList

namespace Json.Document

/-- What is read from a document that has no parts. -/
def scalarAs {value : Type} (read : Json → Option value) : Document → Option value
  | .scalar json _ => read json
  | _ => none

def isObject : Document → Bool
  | .object _ => true
  | _ => false

end Json.Document

/-- What an option is to be, given what is written in the command line and the fields of the
configuration file. -/
def Toggle.effective (toggle : Toggle) (given : Given) (fields : List (Text × Document)) : Bool :=
  if given.has toggle.flag then toggle.flagged
  else ((lastField? toggle.key fields).bind (Document.scalarAs Json.bool?)).getD toggle.default

def Measure.effective (measure : Measure) (given : Given) (fields : List (Text × Document)) :
    Nat :=
  match (given.value? measure.option).bind (Numeral.read? Json.greatestNatural) with
  | some columns => columns
  | none => ((lastField? measure.key fields).bind (Document.scalarAs Json.natural?)).getD measure.default

namespace Json

theorem lookup_fieldValues (name : Text) (fields : List (Text × Document)) :
    (Document.fieldValues fields).reverse.lookup name =
      (fields.reverse.lookup name).map Document.value := by
  rw [Document.fieldValues_eq_map, ← List.map_reverse]
  induction fields.reverse with
  | nil => rfl
  | cons field rest hypothesis =>
      rw [List.map_cons, List.lookup_cons, List.lookup_cons, hypothesis]
      split <;> rfl

theorem field?_value (name : String) (fields : List (Text × Document)) :
    (Document.object fields).value.field? name.toList =
      (lastField? name fields).map Document.value := by
  rw [Document.value, field?_ofFields, lookup_fieldValues, lastField?]

theorem fieldAs_value
    {value : Type} {read : Json → Option value} (noArray : ∀ items, read (.array items) = none)
    (noObject : ∀ fields, read (.object fields) = none) (name : String) (default : value)
    (fields : List (Text × Document)) :
    (Document.object fields).value.fieldAs read name.toList default =
      ((lastField? name fields).bind (Document.scalarAs read)).getD default := by
  have same (document : Document) : read document.value = document.scalarAs read := by
    cases document with
    | scalar json isScalar => rfl
    | array items => exact noArray _
    | object inner => exact noObject _
  rw [fieldAs, field?_value, Option.bind_map]
  exact congrArg (fun read => ((lastField? name fields).bind read).getD default) (funext same)

end Json

theorem get_ofJson (json : Json) :
    ∀ toggle ∈ toggles,
      toggle.get (Options.ofJson json) = json.boolField toggle.key.toList toggle.default := by
  simp [toggles, Options.ofJson]

theorem columns_ofJson (json : Json) :
    ∀ measure ∈ measures,
      measure.get (Options.ofJson json) =
        json.naturalField measure.key.toList measure.default := by
  simp [measures, Options.ofJson]

section CommandLine

variable {options : Options} {toggle : Toggle} {measure : Measure}

/-- A switch sets the option whose flag it is, and no other. -/
theorem get_apply (switch : Switch) (options : Options) :
    ∀ toggle ∈ toggles, toggle.get (switch.apply options) =
      if switch.name = toggle.flag then toggle.flagged else toggle.get options := by
  cases switch <;> simp [toggles, Switch.apply, Switch.name]

theorem get_foldl_apply (member : toggle ∈ toggles) (switches : List Switch)
    (options : Options) :
    toggle.get (switches.foldl Switch.apply options) =
      if switches.any fun switch => switch.name = toggle.flag then toggle.flagged
      else toggle.get options := by
  induction switches generalizing options with
  | nil => rfl
  | cons switch rest hypothesis =>
      rw [List.foldl_cons, hypothesis, get_apply switch options toggle member, List.any_cons]
      by_cases named : switch.name = toggle.flag
      · simp [named]
      · simp [named]

theorem columns_foldl_apply (member : measure ∈ measures) (switches : List Switch)
    (options : Options) :
    measure.get (switches.foldl Switch.apply options) = measure.get options := by
  have once (switch : Switch) (options : Options) :
      ∀ measure ∈ measures, measure.get (switch.apply options) = measure.get options := by
    cases switch <;> simp [measures, Switch.apply]
  induction switches generalizing options with
  | nil => rfl
  | cons switch rest hypothesis =>
      rw [List.foldl_cons, hypothesis, once switch options measure member]

theorem get_foldl_width (member : toggle ∈ toggles) (widths : List (Width × Nat))
    (options : Options) :
    toggle.get (widths.foldl (fun options entry => entry.1.apply entry.2 options) options) =
      toggle.get options := by
  have once (width : Width) (columns : Nat) (options : Options) :
      ∀ toggle ∈ toggles, toggle.get (width.apply columns options) = toggle.get options := by
    cases width <;> simp [toggles, Width.apply]
  induction widths generalizing options with
  | nil => rfl
  | cons entry rest hypothesis =>
      rw [List.foldl_cons, hypothesis, once entry.1 entry.2 options toggle member]

theorem columns_foldl_width (columns? : Width → Option Nat) (options : Options) :
    ∀ width ∈ Width.all, ∀ measure ∈ measures, measure.option = width.name →
      measure.get ((Width.all.filterMap fun width => (columns? width).map fun columns =>
          (width, columns)).foldl (fun options entry => entry.1.apply entry.2 options) options) =
        (columns? width).getD (measure.get options) := by
  cases remarks : columns? .rem <;> cases data : columns? .data <;>
    cases literals : columns? .print <;>
      simp [Width.all, measures, Width.name, Width.apply, remarks, data, literals]

end CommandLine

namespace Command

def Invocation.listOptions : List OptionName :=
  [fileOption, nameOption, configOption] ++
    Switch.all.map (fun switch => flag switch.name) ++ Width.all.map widthOption

/-- What is asked for by options that are given. -/
def Invocation.listing (given : Given) : Invocation :=
  .list (source given) (given.value? "config")
    (Switch.all.filter fun switch => given.has switch.name)
    (Width.all.filterMap fun width => (columns? given width).map fun columns => (width, columns))

theorem Invocation.ofList_of_read
    {arguments : List Text} {given : Given}
    (read : readArguments listOptions arguments = .ok given) :
    ofList arguments = .ok (listing given) := by
  change (readArguments listOptions arguments).bind (fun given => .ok (listing given)) = _
  rw [read]
  rfl

theorem Invocation.parse_list (arguments : List Text) :
    parse ("list".toList :: arguments) =
      match ofList arguments with
      | .ok invocation => .ok invocation
      | .error .helpRequested => .ok .help
      | .error (.refused refusal) => .error refusal := by
  cases arguments <;> rfl

theorem areDistinct_listOptions : AreDistinct Invocation.listOptions := by
  constructor <;> decide +kernel

end Command

theorem any_switches_eq_has (given : Given) :
    ∀ toggle ∈ toggles,
      ((Switch.all.filter fun switch => given.has switch.name).any fun switch =>
        switch.name = toggle.flag) = given.has toggle.flag := by
  intro toggle member
  have named : ∃ switch ∈ Switch.all, switch.name = toggle.flag := by
    revert toggle
    decide
  obtain ⟨switch, among, name⟩ := named
  rw [Bool.eq_iff_iff, List.any_eq_true]
  constructor
  · intro found
    obtain ⟨other, kept, same⟩ := found
    rw [← of_decide_eq_true same]
    exact (List.mem_filter.1 kept).2
  · intro has
    rw [← name] at has ⊢
    exact ⟨switch, List.mem_filter.2 ⟨among, has⟩, decide_eq_true rfl⟩

/-- Each option has what is written for it in the command line, or else in the last field of its
name, or else its default. -/
theorem get_effectiveOptions
    (given : Given) (fields : List (Text × Document)) :
    let options := Outcome.effectiveOptions (Options.ofJson (Document.object fields).value)
      (Switch.all.filter fun switch => given.has switch.name)
      (Width.all.filterMap fun width => (Invocation.columns? given width).map fun columns =>
        (width, columns))
    (∀ toggle ∈ toggles, toggle.get options = toggle.effective given fields) ∧
      ∀ measure ∈ measures, measure.get options = measure.effective given fields := by
  intro options
  constructor
  · intro toggle member
    have ofSwitches := get_foldl_apply member
      (Switch.all.filter fun switch => given.has switch.name)
      (Options.ofJson (Document.object fields).value)
    rw [any_switches_eq_has given toggle member, get_ofJson _ toggle member,
      Json.boolField, Json.fieldAs_value (fun _ => rfl) (fun _ => rfl)] at ofSwitches
    exact (get_foldl_width member _ _).trans ofSwitches
  · intro measure member
    have named : ∃ width ∈ Width.all, measure.option = width.name := by
      revert measure
      decide
    obtain ⟨width, among, name⟩ := named
    have ofSwitches := columns_foldl_apply member
      (Switch.all.filter fun switch => given.has switch.name)
      (Options.ofJson (Document.object fields).value)
    rw [columns_ofJson _ measure member, Json.naturalField,
      Json.fieldAs_value (fun _ => rfl) (fun _ => rfl)] at ofSwitches
    refine (columns_foldl_width _ _ width among measure member name).trans ?_
    rw [ofSwitches, Measure.effective, Invocation.columns?, name]
    cases (given.value? width.name).bind (Numeral.read? Json.greatestNatural) <;> rfl

theorem isObject_value (document : Document) : document.value.isObject = document.isObject := by
  cases document with
  | scalar value isScalar => cases value <;> first | rfl | cases isScalar
  | array items => rfl
  | object fields => rfl

theorem Options.parse_of_isWritten {text : Text} {document : Document}
    (written : IsWritten text document) :
    Options.parse text =
      if document.isObject then .ok (Options.ofJson document.value) else .error .notObject := by
  rw [Options.parse, Json.parse?_of_isWritten written]
  simp only [isObject_value]

theorem Options.parse_eq_notJson_iff (text : Text) :
    Options.parse text = .error .notJson ↔ ¬ ∃ document, IsWritten text document := by
  constructor
  · intro refused written
    obtain ⟨document, written⟩ := written
    rw [parse_of_isWritten written] at refused
    split at refused <;> cases refused
  · intro unwritten
    have nothing : Json.parse? text = none := by
      apply Option.eq_none_iff_forall_ne_some.2
      intro json parsed
      obtain ⟨document, written, _⟩ := (Json.parse?_eq_some_iff text json).1 parsed
      exact unwritten ⟨document, written⟩
    rw [Options.parse, nothing]

theorem Options.parse_eq_notObject_iff (text : Text) :
    Options.parse text = .error .notObject ↔
      ∃ document, IsWritten text document ∧ document.isObject = false := by
  constructor
  · intro refused
    by_cases exists_document : ∃ document, IsWritten text document
    · obtain ⟨document, written⟩ := exists_document
      rw [parse_of_isWritten written] at refused
      refine ⟨document, written, ?_⟩
      split at refused
      · cases refused
      · next other => exact Bool.not_eq_true _ ▸ other
    · rw [(parse_eq_notJson_iff text).2 exists_document] at refused
      cases refused
  · intro written
    obtain ⟨document, written, other⟩ := written
    rw [parse_of_isWritten written, other]
    rfl

/-- A text that is not JSON is refused as such, and JSON that is not an object as such. Given an
object, every command line for a listing leads to options each of which is what is written for it
in the command line, or else in the last field of its name, or else its default. What counts as a
number of columns in a field is a word that is the decimal text of a number of at most 64 bits. -/
theorem effective_options (text : Text) :
    (Options.parse text = .error .notJson ↔ ¬ ∃ document, IsWritten text document) ∧
      (Options.parse text = .error .notObject ↔
        ∃ document, IsWritten text document ∧ document.isObject = false) ∧
      (∀ fields, IsWritten text (.object fields) →
        ∃ config, Options.parse text = .ok config ∧
          ∀ arguments given, Spelled Invocation.listOptions arguments given →
            (given.map Prod.fst).Nodup →
              ∃ switches widths,
                Invocation.parse ("list".toList :: arguments) =
                    .ok (.list (Invocation.source given) (given.value? "config") switches widths) ∧
                  let options := Outcome.effectiveOptions config switches widths
                  (∀ toggle ∈ toggles, toggle.get options = toggle.effective given fields) ∧
                    ∀ measure ∈ measures,
                      measure.get options = measure.effective given fields) ∧
      ∀ word columns, Json.Token.word? word = some (.natural columns) ↔
        word = Numeral.decimal columns ∧ columns ≤ Json.greatestNatural := by
  refine ⟨Options.parse_eq_notJson_iff text, Options.parse_eq_notObject_iff text, ?_,
    Json.word?_eq_natural_iff⟩
  intro fields written
  refine ⟨Options.ofJson (Document.object fields).value, Options.parse_of_isWritten written, ?_⟩
  intro arguments given spelled once
  have read := (readArguments_eq_ok_iff areDistinct_listOptions arguments given).2 ⟨spelled, once⟩
  refine ⟨_, _, ?_, get_effectiveOptions given fields⟩
  rw [Invocation.parse_list, Invocation.ofList_of_read read]
  rfl

/-- The command line counts before the file, the last field of a name counts, and a field that holds
a string does not turn an option on. -/
theorem effective_options_of_duplicates :
    let text := "\x7b\"splitDim\":false,\"showThen\":true,\"splitRem\":\"yes\",\"splitDim\":true\x7d".toList
    ∃ config, Options.parse text = .ok config ∧
      ∃ switches widths,
        Invocation.parse (["list", "--wrap-data=72", "--hide-then"].map String.toList) =
            .ok (.list ⟨none, none⟩ none switches widths) ∧
          let options := Outcome.effectiveOptions config switches widths
          options.splitDim = true ∧ options.showThen = false ∧ options.splitRem = false ∧
            options.wrapDataAt = 72 := by
  intro text
  have written : IsWritten text
      (.object [("splitDim".toList, .scalar (.bool false) rfl),
        ("showThen".toList, .scalar (.bool true) rfl),
        ("splitRem".toList, .scalar (.string "yes".toList) rfl),
        ("splitDim".toList, .scalar (.bool true) rfl)]) :=
    ⟨rfl, by decide⟩
  have spelled : Spelled Invocation.listOptions
      ["--wrap-data=72".toList, "--hide-then".toList]
      [("wrap-data".toList, "72".toList), ("hide-then".toList, [])] := by
    have width : Writing (Invocation.widthOption .data) "72".toList ["--wrap-data=72".toList] :=
      .joined ⟨_, rfl, by decide⟩
    have hides : Writing (Invocation.flag "hide-then") [] ["--hide-then".toList] := .flag rfl
    exact .option (by decide) width (.option (by decide) hides .nothing)
  obtain ⟨config, parsed, ofCommand⟩ := (effective_options text).2.2.1 _ written
  obtain ⟨switches, widths, read, onOff, columns⟩ := ofCommand _ _ spelled (by decide)
  refine ⟨config, parsed, switches, widths, read, ?_, ?_, ?_, ?_⟩
  · exact onOff ⟨"splitDim", "split-dim", true, false, Options.splitDim⟩ (by simp [toggles])
  · exact onOff ⟨"showThen", "hide-then", false, true, Options.showThen⟩ (by simp [toggles])
  · exact onOff ⟨"splitRem", "split-rem", true, false, Options.splitRem⟩ (by simp [toggles])
  · exact columns ⟨"wrapDataAt", "wrap-data", 60, Options.wrapDataAt⟩ (by simp [measures])

end Applesoft
