import Applesoft.Proofs.References

/-!
The names that the interpreter confuses. They are entered along with the references, but by another
rule: a name comes into the bucket of its collision key once for all, while a line is entered again
under a name if another one came in between.

The main statement is that the two tables agree, whatever has been entered and in what order. Each
name that is referred to is in the bucket of its key and in no other, and the names of a bucket are
in the order of their first use.
-/

namespace Applesoft

section FirstOccurrence

variable {alpha : Type} [BEq alpha] [LawfulBEq alpha]

theorem eraseDups_concat (front : List alpha) (last : alpha) :
    (front ++ [last]).eraseDups =
      if front.contains last then front.eraseDups else front.eraseDups ++ [last] := by
  rw [List.eraseDups_append]
  by_cases before : last ∈ front
  · simp [List.removeAll, before]
  · simp [List.removeAll, List.eraseDups_cons, before]

/-- Elements of a class that are kept once each stand in the order in which all elements first
occur. -/
theorem pairwise_idxOf_eraseDups (kept : alpha → Bool) (elements : List alpha) :
    (elements.filter kept).eraseDups.Pairwise
      fun left right => elements.idxOf left < elements.idxOf right := by
  induction elements using List.reverseRecOn with
  | nil => exact .nil
  | append_singleton front last hypothesis =>
      have earlier {element : alpha} (member : element ∈ (front.filter kept).eraseDups) :
          element ∈ front :=
        (List.mem_filter.1 (List.mem_eraseDups.1 member)).1
      -- Where an element first occurs does not change when others come behind it.
      have before : (front.filter kept).eraseDups.Pairwise
          fun left right => (front ++ [last]).idxOf left < (front ++ [last]).idxOf right := by
        refine hypothesis.imp_of_mem fun {left right} leftMember rightMember less => ?_
        rwa [List.idxOf_append_of_mem (earlier leftMember),
          List.idxOf_append_of_mem (earlier rightMember)]
      rw [List.filter_append]
      by_cases keep : kept last = true
      · rw [List.filter_cons_of_pos keep, List.filter_nil, eraseDups_concat]
        by_cases repeated : (front.filter kept).contains last = true
        · rw [if_pos repeated]
          exact before
        · rw [if_neg repeated]
          rw [List.contains_iff_mem] at repeated
          have new : last ∉ front := fun member => repeated (List.mem_filter.2 ⟨member, keep⟩)
          refine List.pairwise_append.2 ⟨before, List.pairwise_singleton _ _, ?_⟩
          intro left member right isLast
          obtain rfl := List.mem_singleton.1 isLast
          rw [List.idxOf_append_of_mem (earlier member), List.idxOf_append_of_notMem new]
          exact Nat.lt_add_right _ (List.idxOf_lt_length_of_mem (earlier member))
      · rw [List.filter_cons_of_neg keep, List.filter_nil, List.append_nil]
        exact before

end FirstOccurrence

namespace Symbols

/-- The names that the findings of a log refer to, in their order. -/
def namesIn (log : List (UInt16 × Finding)) : List Text :=
  (entriesOf Finding.name? log).map Prod.snd

def namesUnder (key : Text) (names : List Text) : List Text :=
  names.filter fun name => Variable.collisionKey name = key

/-- What the table of collisions holds under a key whose names are used one after the other. -/
def bucketOf (names : List Text) : Option (List Text) :=
  if names.isEmpty then none else some names.eraseDups

theorem enterName_bucketOf (names : List Text) (name : Text) :
    some (enterName name (bucketOf names)) = bucketOf (names ++ [name]) := by
  have before : (bucketOf names).getD [] = names.eraseDups := by
    rw [bucketOf]
    split
    · next empty => rw [List.isEmpty_iff.1 empty]; rfl
    · rfl
  have nonempty : (names ++ [name]).isEmpty = false := by simp
  have same : names.eraseDups.contains name = names.contains name := by
    rw [Bool.eq_iff_iff, List.contains_iff_mem, List.contains_iff_mem, List.mem_eraseDups]
  rw [enterName, before, bucketOf, nonempty, same, ← eraseDups_concat]
  rfl

theorem foldl_enterName (names : List Text) :
    names.foldl (fun held name => some (enterName name held)) none = bucketOf names := by
  induction names using List.reverseRecOn with
  | nil => rfl
  | append_singleton front last hypothesis =>
      rw [List.foldl_append, hypothesis]
      exact enterName_bucketOf front last

theorem namesUnder_namesIn (key : Text) (log : List (UInt16 × Finding)) :
    namesUnder key (namesIn log) =
      (log.filter fun entry => entry.2.name?.map Variable.collisionKey = some key).map
        fun entry => entry.2.name?.getD [] := by
  induction log with
  | nil => rfl
  | cons entry rest hypothesis =>
      rw [namesIn, entriesOf, List.filterMap_cons, List.filter_cons, ← entriesOf]
      cases found : entry.2.name? with
      | none =>
          rw [Option.map_none, ← namesIn, hypothesis, Option.map_none, if_neg (by simp)]
      | some name =>
          rw [namesUnder, Option.map_some, List.map_cons, List.filter_cons, ← namesIn,
            ← namesUnder, hypothesis]
          by_cases same : Variable.collisionKey name = key
          · simp [same, found]
          · simp [same]

theorem get?_collisions_ofLog (log : List (UInt16 × Finding)) (key : Text) :
    (ofLog log).collisions.get? key = bucketOf (namesUnder key (namesIn log)) := by
  have replay := get?_ofLog Symbols.collisions
    (fun finding => finding.name?.map Variable.collisionKey)
    (fun entry => enterName (entry.2.name?.getD [])) rfl ?_ log key
  · rw [replay, namesUnder_namesIn, ← foldl_enterName, List.foldl_map]
  · intro symbols line finding
    cases finding with
    | jump kind target => cases kind <;> rfl
    | _ => rfl

/-- Whether the tables agree with each other and with the names that have been referred to, in
their order. -/
structure IsConsistent (symbols : Symbols) (used : List Text) : Prop where
  jumps : ∀ kind target lines, (symbols.jumps kind).get? target = some lines →
    lines ≠ [] ∧ lines.IsChain (· ≠ ·)
  references : ∀ name lines, symbols.references.get? name = some lines →
    lines ≠ [] ∧ lines.IsChain (· ≠ ·)
  mem_keys_iff : ∀ name, name ∈ symbols.references.keys ↔ name ∈ used
  /-- A name is in the bucket of its key, once. -/
  entered : ∀ name ∈ symbols.references.keys, ∃ names,
    symbols.collisions.get? (Variable.collisionKey name) = some names ∧ names.count name = 1
  nonempty : ∀ key names, symbols.collisions.get? key = some names → names ≠ []
  /-- A name is in no other bucket, and no bucket has other names. -/
  members : ∀ key names, symbols.collisions.get? key = some names → ∀ name ∈ names,
    Variable.collisionKey name = key ∧ name ∈ symbols.references.keys
  ordered : ∀ key names, symbols.collisions.get? key = some names →
    names.Pairwise fun left right => used.idxOf left < used.idxOf right

theorem isChain_of_entered_eq_some
    {lines list : List UInt16} (shape : entered lines = some list) :
    list ≠ [] ∧ list.IsChain (· ≠ ·) := by
  rw [entered] at shape
  split at shape
  · cases shape
  · next nonempty =>
      obtain rfl := Option.some.inj shape
      refine ⟨?_, List.isChain_destutter _ _⟩
      rw [ne_eq, List.destutter_eq_nil]
      simpa using nonempty

theorem eq_eraseDups_of_bucketOf_eq_some
    {names bucket : List Text} (shape : bucketOf names = some bucket) :
    names ≠ [] ∧ bucket = names.eraseDups := by
  rw [bucketOf] at shape
  split at shape
  · cases shape
  · next nonempty => exact ⟨by simpa using nonempty, (Option.some.inj shape).symm⟩

theorem mem_keys_references_ofLog (log : List (UInt16 × Finding)) (name : Text) :
    name ∈ (ofLog log).references.keys ↔ name ∈ namesIn log := by
  rw [Table.mem_keys_iff, get?_references_ofLog, ne_eq, entered_eq_none_iff, linesUnder,
    List.map_eq_nil_iff, List.filter_eq_nil_iff, namesIn, List.mem_map]
  push Not
  simp

/-- The tables are consistent after any sequence of findings. -/
theorem isConsistent_ofLog (log : List (UInt16 × Finding)) :
    (ofLog log).IsConsistent (namesIn log) := by
  have bucket {key : Text} {names : List Text}
      (found : (ofLog log).collisions.get? key = some names) :
      namesUnder key (namesIn log) ≠ [] ∧
        names = (namesUnder key (namesIn log)).eraseDups :=
    eq_eraseDups_of_bucketOf_eq_some (get?_collisions_ofLog log key ▸ found)
  have ordered {key : Text} {names : List Text}
      (found : (ofLog log).collisions.get? key = some names) :
      names.Pairwise fun left right => (namesIn log).idxOf left < (namesIn log).idxOf right := by
    rw [(bucket found).2]
    exact pairwise_idxOf_eraseDups _ _
  have member {key name : Text} {names : List Text}
      (found : (ofLog log).collisions.get? key = some names) :
      name ∈ names ↔ name ∈ namesIn log ∧ Variable.collisionKey name = key := by
    rw [(bucket found).2, List.mem_eraseDups, namesUnder, List.mem_filter, decide_eq_true_eq]
  refine
    { jumps := ?_
      references := ?_
      mem_keys_iff := mem_keys_references_ofLog log
      entered := ?_
      nonempty := ?_
      members := ?_
      ordered := fun key names found => ordered found }
  · intro kind target lines found
    rw [get?_jumps_ofLog] at found
    exact isChain_of_entered_eq_some found
  · intro name lines found
    rw [get?_references_ofLog] at found
    exact isChain_of_entered_eq_some found
  · intro name referred
    rw [mem_keys_references_ofLog] at referred
    have inKey : name ∈ namesUnder (Variable.collisionKey name) (namesIn log) :=
      List.mem_filter.2 ⟨referred, decide_eq_true rfl⟩
    obtain ⟨names, found⟩ :
        ∃ names, (ofLog log).collisions.get? (Variable.collisionKey name) = some names := by
      rw [get?_collisions_ofLog, bucketOf, if_neg (by simpa using List.ne_nil_of_mem inKey)]
      exact ⟨_, rfl⟩
    have nodup : names.Nodup := (ordered found).imp fun less same => by
      rw [same] at less
      exact Nat.lt_irrefl _ less
    exact ⟨names, found, List.count_eq_one_of_mem nodup ((member found).2 ⟨referred, rfl⟩)⟩
  · intro key names found empty
    obtain ⟨nonempty, shape⟩ := bucket found
    obtain ⟨first, others, whole⟩ := List.exists_cons_of_ne_nil nonempty
    have inBucket : first ∈ names := by
      rw [shape, List.mem_eraseDups, whole]
      exact List.mem_cons_self
    rw [empty] at inBucket
    cases inBucket
  · intro key names found name inBucket
    obtain ⟨referred, same⟩ := (member found).1 inBucket
    exact ⟨same, (mem_keys_references_ofLog log name).2 referred⟩

theorem isConsistent_symbols (program : Program) :
    program.symbols.IsConsistent (namesIn program.log) := by
  rw [symbols_eq_ofLog]
  exact isConsistent_ofLog program.log

/-- The tables of references and of collisions agree after any sequence of findings, and so in any
program, whose names are used in the order in which they stand in its statements. -/
theorem collisions_agree_with_references :
    (∀ log, (ofLog log).IsConsistent (namesIn log)) ∧
      ∀ image, (Program.decode image).symbols.IsConsistent
        ((Program.decode image).occurrences.map Prod.snd) := by
  refine ⟨isConsistent_ofLog, fun image => ?_⟩
  rw [← Program.entriesOf_name?_log]
  exact isConsistent_symbols (Program.decode image)

end Symbols

end Applesoft
