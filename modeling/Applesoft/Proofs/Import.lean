import Mathlib.Data.List.Perm.Basic
import Applesoft.Proofs.Collisions
import Applesoft.Symbols.Export

/-!
The export of the tables, read back. An object gives a table again in whatever order its fields come,
because a table has one form only. Line numbers that are names of fields are ordered as texts, and
are put in the order of their values again.

Of the collisions the export has only the buckets of several names. The main statement is that it
loses nothing all the same. A name that is in none of these buckets is alone in its own.
-/

namespace Applesoft

namespace Table

variable {key value : Type} [Ord key] [Std.TransOrd key]

/-- The table of the given entries; of several entries with one key the last one counts. -/
def ofEntries (entries : List (key × value)) : Table key value :=
  entries.foldl (fun table entry => table.alter entry.1 fun _ => entry.2) empty

theorem ofEntries_concat (front : List (key × value)) (last : key × value) :
    ofEntries (front ++ [last]) = (ofEntries front).alter last.1 fun _ => last.2 := by
  rw [ofEntries, List.foldl_append]
  rfl

variable [Std.LawfulEqOrd key]

theorem mem_entries_ofEntries
    {entries : List (key × value)} (distinct : (entries.map Prod.fst).Nodup)
    (entry : key × value) :
    entry ∈ (ofEntries entries).entries ↔ entry ∈ entries := by
  induction entries using List.reverseRecOn with
  | nil => rfl
  | append_singleton front last hypothesis =>
      obtain ⟨wanted, held⟩ := entry
      rw [List.map_append, List.nodup_append] at distinct
      obtain ⟨frontDistinct, -, apart⟩ := distinct
      rw [← get?_eq_some_iff, ofEntries_concat, List.mem_append, List.mem_singleton,
        Prod.ext_iff]
      by_cases same : wanted = last.1
      · have new : (wanted, held) ∉ front := fun member =>
          apart wanted (List.mem_map_of_mem member) last.1 (by simp) same
        rw [same] at new ⊢
        simp [new, get?_alter_self, eq_comm]
      · rw [get?_alter_of_ne _ _ same, get?_eq_some_iff, hypothesis frontDistinct]
        simp [same]

theorem perm_entries_ofEntries
    {entries : List (key × value)} (distinct : (entries.map Prod.fst).Nodup) :
    (ofEntries entries).entries.Perm entries := by
  rw [List.perm_ext_iff_of_nodup (nodup_entries _) (.of_map _ distinct)]
  exact mem_entries_ofEntries distinct

/-- The entries of a table give the table again, in whatever order they come. -/
theorem ofEntries_of_perm
    (table : Table key value) {entries : List (key × value)}
    (same : entries.Perm table.entries) : ofEntries entries = table := by
  have distinct : (entries.map Prod.fst).Nodup :=
    (same.map Prod.fst).nodup_iff.2 table.nodup_keys
  exact ext_of_perm ((perm_entries_ofEntries distinct).trans same)

end Table

theorem mapM_map_of_inverse
    {alpha beta : Type} {read : beta → Option alpha} {write : alpha → beta}
    (inverse : ∀ element, read (write element) = some element) (elements : List alpha) :
    (elements.map write).mapM read = some elements := by
  have each : read ∘ write = fun element => pure (id element) := funext inverse
  rw [List.mapM_map, each, List.mapM_pure, List.map_id]
  rfl

namespace Json

theorem ofFields_eq (fields : List (Text × Json)) :
    ofFields fields = .object (Table.ofEntries fields).entries := by
  have entries (table : Table Text Json) :
      fields.foldl (fun entered field => Table.alterEntries field.1 (fun _ => field.2) entered)
          table.entries =
        (fields.foldl (fun entered field => entered.alter field.1 fun _ => field.2)
          table).entries :=
    List.foldl_hom Table.entries fun _ _ => rfl
  exact congrArg Json.object (entries .empty)

/-- A list of which every item can be read. -/
def list? {alpha : Type} (read : Json → Option alpha) : Json → Option (List alpha)
  | .array items => items.mapM read
  | _ => none

theorem list?_array
    {alpha : Type} {read : Json → Option alpha} {write : alpha → Json}
    (inverse : ∀ element, read (write element) = some element) (elements : List alpha) :
    list? read (.array (elements.map write)) = some elements :=
  mapM_map_of_inverse inverse elements

/-- The entry of a table that a field gives, by a reader for its name and one for its contents. -/
def entryOf? {key value : Type}
    (readName : Text → Option key) (readContents : Json → Option value)
    (field : Text × Json) : Option (key × value) := do
  let found ← readName field.1
  let held ← readContents field.2
  return (found, held)

/-- A table of which every field gives an entry. -/
def table? {key value : Type} [Ord key] [Std.TransOrd key]
    (readName : Text → Option key) (readContents : Json → Option value) :
    Json → Option (Table key value)
  | .object fields => (fields.mapM (entryOf? readName readContents)).map .ofEntries
  | _ => none

/-- A table reads back from the object of its entries. -/
theorem table?_ofFields
    {key value : Type} [Ord key] [Std.TransOrd key] [Std.LawfulEqOrd key]
    {readName : Text → Option key} {readContents : Json → Option value}
    (name : key → Text) (contents : value → Json)
    (names : ∀ found, readName (name found) = some found)
    (values : ∀ held, readContents (contents held) = some held)
    (table : Table key value) :
    table? readName readContents
        (.ofFields (table.entries.map fun entry => (name entry.1, contents entry.2))) =
      some table := by
  have inverse (entry : key × value) :
      entryOf? readName readContents (name entry.1, contents entry.2) = some entry := by
    simp [entryOf?, names, values]
  have injective : Function.Injective name := fun left right same => by
    rw [← Option.some_inj, ← names left, ← names right, same]
  have distinct : ((table.entries.map fun entry =>
      (name entry.1, contents entry.2)).map Prod.fst).Nodup := by
    have keys := (List.nodup_map_iff injective).2 table.nodup_keys
    rw [Table.keys, List.map_map] at keys
    rwa [List.map_map]
  -- The order of the names need not be that of the keys.
  obtain ⟨entries, fields, reordered⟩ := (congrFun₂ (List.eq_map_comp_perm _) _ _).mpr
    (Table.perm_entries_ofEntries distinct)
  rw [ofFields_eq, fields, table?, mapM_map_of_inverse inverse, Option.map_some,
    Table.ofEntries_of_perm table reordered]

def string? : Json → Option Text
  | .string contents => some contents
  | _ => none

end Json

namespace Symbols

def line? : Json → Option UInt16
  | .natural value => if value ≤ 65535 then some (.ofNat value) else none
  | _ => none

def lines? : Json → Option (List UInt16) :=
  Json.list? line?

def lineOfName? (name : Text) : Option UInt16 :=
  (Numeral.read? 65535 name).map .ofNat

def jumps? : Json → Option (Table UInt16 (List UInt16)) :=
  Json.table? lineOfName? lines?

def references? : Json → Option (Table Text (List UInt16)) :=
  Json.table? some lines?

def buckets? : Json → Option (Table Text (List Text)) :=
  Json.table? some (Json.list? Json.string?)

def literal? (json : Json) : Option (UInt16 × Text) := do
  let line ← json.field? "line".toList >>= line?
  let text ← json.field? "text".toList >>= Json.string?
  return (line, text)

/-- The given buckets, and a bucket of its own for each name whose key has none. -/
def withSingleNames (buckets : Table Text (List Text)) (names : List Text) :
    Table Text (List Text) :=
  names.foldl (fun entered name =>
    entered.alter (Variable.collisionKey name) fun bucket => bucket.getD [name]) buckets

/-- Reads the tables of a program from their export. -/
def ofJson? (json : Json) : Option Symbols := do
  let gotos ← json.field? "goto".toList >>= jumps?
  let gosubs ← json.field? "gosub".toList >>= jumps?
  let references ← json.field? "variables".toList >>= references?
  let shared ← json.field? "collisions".toList >>= buckets?
  let strings ← json.field? "strings".toList >>= Json.list? literal?
  let collisions := withSingleNames shared references.keys
  return { gotos, gosubs, references, collisions, strings }

theorem line?_lineJson (line : UInt16) : line? (lineJson line) = some line := by
  have within : line.toNat ≤ 65535 := Nat.le_of_lt_succ line.toNat_lt
  rw [lineJson, line?, if_pos within, UInt16.ofNat_toNat]

theorem lineOfName?_decimal (line : UInt16) :
    lineOfName? (Numeral.decimal line.toNat) = some line := by
  rw [lineOfName?, Numeral.read?_decimal (Nat.le_of_lt_succ line.toNat_lt), Option.map_some,
    UInt16.ofNat_toNat]

theorem lines?_array (lines : List UInt16) :
    lines? (.array (lines.map lineJson)) = some lines :=
  Json.list?_array line?_lineJson lines

theorem jumps?_jumpsJson (jumps : Table UInt16 (List UInt16)) :
    jumps? (jumpsJson jumps) = some jumps :=
  Json.table?_ofFields (fun line : UInt16 => Numeral.decimal line.toNat)
    (fun lines : List UInt16 => .array (lines.map lineJson)) lineOfName?_decimal lines?_array jumps

theorem references?_referencesJson (references : Table Text (List UInt16)) :
    references? (referencesJson references) = some references :=
  Json.table?_ofFields id (fun lines : List UInt16 => .array (lines.map lineJson))
    (fun _ => rfl) lines?_array references

theorem buckets?_collisionsJson (buckets : Table Text (List Text)) :
    buckets? (collisionsJson buckets.entries) = some buckets :=
  Json.table?_ofFields id (fun names : List Text => .array (names.map Json.string))
    (fun _ => rfl) (Json.list?_array fun _ => rfl) buckets

theorem list?_stringsJson (strings : List (UInt16 × Text)) :
    Json.list? literal? (stringsJson strings) = some strings := by
  refine Json.list?_array (fun entry => ?_) strings
  have line : literal? (.ofFields [("line".toList, lineJson entry.1),
      ("text".toList, .string entry.2)]) =
    (line? (lineJson entry.1)).bind fun line => some (line, entry.2) := rfl
  rw [line, line?_lineJson]
  rfl

theorem get?_withSingleNames
    (buckets : Table Text (List Text)) (names : List Text) (key : Text) :
    (withSingleNames buckets names).get? key =
      (buckets.get? key).or ((namesUnder key names).head?.map fun name => [name]) := by
  induction names generalizing buckets with
  | nil => simp [withSingleNames, namesUnder]
  | cons name rest hypothesis =>
      rw [withSingleNames, List.foldl_cons, ← withSingleNames, hypothesis]
      by_cases same : Variable.collisionKey name = key
      · subst same
        rw [Table.get?_alter_self]
        cases buckets.get? (Variable.collisionKey name) with
        | none => simp [namesUnder]
        | some held => rfl
      · rw [Table.get?_alter_of_ne _ _ (Ne.symm same)]
        simp [namesUnder, same]

/-- The buckets of several names. -/
def shared (symbols : Symbols) : Table Text (List Text) where
  entries := symbols.nonUnique
  ascending := symbols.collisions.ascending.filter _

theorem get?_shared (symbols : Symbols) (key : Text) :
    symbols.shared.get? key =
      (symbols.collisions.get? key).filter fun names => 1 < names.length := by
  apply Option.ext
  intro names
  rw [Table.get?_eq_some_iff, Option.filter_eq_some_iff, Table.get?_eq_some_iff]
  exact List.mem_filter

theorem IsConsistent.mem_namesUnder_iff
    {symbols : Symbols} {used : List Text} (consistent : symbols.IsConsistent used)
    (key name : Text) :
    name ∈ namesUnder key symbols.references.keys ↔
      ∃ names, symbols.collisions.get? key = some names ∧ name ∈ names := by
  rw [namesUnder, List.mem_filter, decide_eq_true_eq]
  constructor
  · intro member
    obtain ⟨referred, same⟩ := member
    obtain ⟨names, found, once⟩ := consistent.entered name referred
    rw [same] at found
    exact ⟨names, found, List.count_pos_iff.1 (by omega)⟩
  · intro inBucket
    obtain ⟨names, found, member⟩ := inBucket
    exact (consistent.members key names found name member).symm

theorem IsConsistent.head?_namesUnder_of_single
    {symbols : Symbols} {used : List Text} (consistent : symbols.IsConsistent used)
    {key name : Text} (found : symbols.collisions.get? key = some [name]) :
    (namesUnder key symbols.references.keys).head? = some name := by
  have member : name ∈ namesUnder key symbols.references.keys :=
    (consistent.mem_namesUnder_iff key name).2 ⟨[name], found, List.mem_cons_self⟩
  obtain ⟨first, rest, whole⟩ := List.exists_cons_of_ne_nil (List.ne_nil_of_mem member)
  obtain ⟨names, same, inBucket⟩ := (consistent.mem_namesUnder_iff key first).1
    (whole ▸ List.mem_cons_self)
  obtain rfl := Option.some.inj (found.symm.trans same)
  rw [whole, List.head?_cons, List.mem_singleton.1 inBucket]

/-- In consistent tables a name that is in no bucket of several names is alone in its own. -/
theorem withSingleNames_shared
    {symbols : Symbols} {used : List Text} (consistent : symbols.IsConsistent used) :
    withSingleNames symbols.shared symbols.references.keys = symbols.collisions := by
  apply Table.ext_get?
  intro key
  rw [get?_withSingleNames, get?_shared]
  cases found : symbols.collisions.get? key with
  | none =>
      have unused : namesUnder key symbols.references.keys = [] := by
        apply List.eq_nil_iff_forall_not_mem.2
        simp [consistent.mem_namesUnder_iff, found]
      rw [unused]
      rfl
  | some names =>
      have nonempty := List.length_pos_of_ne_nil (consistent.nonempty key names found)
      by_cases several : 1 < names.length
      · simp [Option.filter_some, several]
      · obtain ⟨name, rfl⟩ : ∃ name, names = [name] := List.length_eq_one_iff.1 (by omega)
        rw [consistent.head?_namesUnder_of_single found]
        rfl

/-- The export of consistent tables gives the tables again. -/
theorem ofJson?_toJson
    {symbols : Symbols} {used : List Text} (consistent : symbols.IsConsistent used) :
    ofJson? symbols.toJson = some symbols := by
  have gotos : symbols.toJson.field? "goto".toList = some (jumpsJson symbols.gotos) := rfl
  have gosubs : symbols.toJson.field? "gosub".toList = some (jumpsJson symbols.gosubs) := rfl
  have references : symbols.toJson.field? "variables".toList =
    some (referencesJson symbols.references) := rfl
  have collisions : symbols.toJson.field? "collisions".toList =
    some (collisionsJson symbols.shared.entries) := rfl
  have strings : symbols.toJson.field? "strings".toList =
    some (stringsJson symbols.strings) := rfl
  rw [ofJson?, gotos, gosubs, references, collisions, strings]
  simp [jumps?_jumpsJson, references?_referencesJson, buckets?_collisionsJson,
    list?_stringsJson, withSingleNames_shared consistent]

/-- Nothing is lost in the export. The tables that any sequence of findings gives, and so those of
every program, are read back from it; they are equal if their exports are. -/
theorem export_is_lossless :
    (∀ log, ofJson? (ofLog log).toJson = some (ofLog log)) ∧
      (∀ image, ofJson? (Program.decode image).symbols.toJson =
        some (Program.decode image).symbols) ∧
      (∀ left right, (ofLog left).toJson = (ofLog right).toJson ↔ ofLog left = ofLog right) ∧
      ∀ left right,
        (Program.decode left).symbols.toJson = (Program.decode right).symbols.toJson ↔
          (Program.decode left).symbols = (Program.decode right).symbols := by
  have readsBack (log : List (UInt16 × Finding)) :
      ofJson? (ofLog log).toJson = some (ofLog log) :=
    ofJson?_toJson (isConsistent_ofLog log)
  have determined (left right : List (UInt16 × Finding)) :
      (ofLog left).toJson = (ofLog right).toJson ↔ ofLog left = ofLog right := by
    constructor
    · intro same
      exact Option.some.inj (by rw [← readsBack, ← readsBack, same])
    · exact congrArg toJson
  refine ⟨readsBack, ?_, determined, ?_⟩
  · intro image
    rw [symbols_eq_ofLog]
    exact readsBack (Program.decode image).log
  · intro left right
    rw [symbols_eq_ofLog, symbols_eq_ofLog]
    exact determined (Program.decode left).log (Program.decode right).log

/-- ABLE and ABOUT share a bucket. That of C is not exported. -/
example :
    let symbols := ofLog [(10, .reference "ABLE".toList), (20, .reference "C".toList),
      (20, .reference "ABOUT".toList)]
    symbols.nonUnique = [("AB".toList, ["ABLE".toList, "ABOUT".toList])] ∧
      symbols.collisions.keys = ["AB".toList, "C".toList] := by
  decide +kernel

end Symbols

end Applesoft
