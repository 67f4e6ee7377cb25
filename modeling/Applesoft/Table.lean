
/-!
Tables ordered by their keys. A table is a list of entries with ascending keys, so that it has one
form only and is reported in one order.

The main statements are the look-up laws of `alter` and extensionality: tables that answer every
look-up alike are equal.
-/

namespace Applesoft

/-- A finite map whose entries ascend by key. -/
structure Table (key value : Type) [Ord key] where
  entries : List (key × value)
  ascending : entries.Pairwise fun left right => compare left.1 right.1 = .lt

namespace Table

variable {key value : Type} [Ord key]

def empty : Table key value where
  entries := []
  ascending := .nil

def get? (table : Table key value) (wanted : key) : Option value :=
  (table.entries.find? fun entry => compare entry.1 wanted = .eq).map Prod.snd

def contains (table : Table key value) (wanted : key) : Bool :=
  (table.get? wanted).isSome

/-- The keys, in ascending order. -/
def keys (table : Table key value) : List key :=
  table.entries.map Prod.fst

/-- Replaces the value under a key in ascending entries, or puts a new entry in its place. -/
def alterEntries (wanted : key) (change : Option value → value) :
    List (key × value) → List (key × value)
  | [] => [(wanted, change none)]
  | entry :: rest =>
      match compare wanted entry.1 with
      | .lt => (wanted, change none) :: entry :: rest
      | .eq => (entry.1, change (some entry.2)) :: rest
      | .gt => entry :: alterEntries wanted change rest

theorem mem_alterEntries
    {wanted : key} {change : Option value → value}
    {entries : List (key × value)} {entry : key × value}
    (member : entry ∈ alterEntries wanted change entries) :
    entry.1 = wanted ∨ ∃ old ∈ entries, entry.1 = old.1 := by
  induction entries with
  | nil =>
      simp only [alterEntries, List.mem_singleton] at member
      exact Or.inl (by rw [member])
  | cons head rest hypothesis =>
      rw [alterEntries] at member
      split at member
      · rcases List.mem_cons.1 member with same | older
        · exact Or.inl (by rw [same])
        · exact Or.inr ⟨entry, older, rfl⟩
      · rcases List.mem_cons.1 member with same | older
        · exact Or.inr ⟨head, by simp, by rw [same]⟩
        · exact Or.inr ⟨entry, by simp [older], rfl⟩
      · rcases List.mem_cons.1 member with same | older
        · exact Or.inr ⟨head, by simp, by rw [same]⟩
        · rcases hypothesis older with new | ⟨old, oldMember, equality⟩
          · exact Or.inl new
          · exact Or.inr ⟨old, by simp [oldMember], equality⟩

theorem find?_alterEntries_of_ne
    [Std.LawfulEqOrd key]
    {wanted other : key} (change : Option value → value)
    (entries : List (key × value))
    (different : other ≠ wanted) :
    (alterEntries wanted change entries).find?
        (fun entry => compare entry.1 other = .eq) =
      entries.find? fun entry => compare entry.1 other = .eq := by
  induction entries with
  | nil => simp [alterEntries, different.symm]
  | cons head rest hypothesis =>
      rw [alterEntries]
      split
      · simp [different.symm]
      · next equal =>
          have same : wanted = head.1 := Std.LawfulEqOrd.eq_of_compare equal
          simp [← same, different.symm]
      · simp [List.find?_cons, hypothesis]

section Entries

variable [Std.LawfulEqOrd key]

/-- Entries with ascending keys hold one value under each key. -/
theorem find?_eq_some_iff_mem
    {entries : List (key × value)}
    (ascends : entries.Pairwise fun left right => compare left.1 right.1 = .lt)
    (wanted : key) (held : value) :
    (entries.find? fun entry => compare entry.1 wanted = .eq).map Prod.snd = some held ↔
      (wanted, held) ∈ entries := by
  induction entries with
  | nil => simp
  | cons head rest hypothesis =>
      obtain ⟨below, restAscends⟩ := List.pairwise_cons.1 ascends
      rw [List.mem_cons, Prod.ext_iff]
      by_cases same : head.1 = wanted
      · have further : (wanted, held) ∉ rest := fun member => by
          simpa [same] using below _ member
        simp [same, further, eq_comm]
      · simp [same, Ne.symm same, hypothesis restAscends]

theorem get?_eq_some_iff
    (table : Table key value) (wanted : key) (held : value) :
    table.get? wanted = some held ↔ (wanted, held) ∈ table.entries :=
  find?_eq_some_iff_mem table.ascending wanted held

theorem nodup_keys (table : Table key value) : table.keys.Nodup := by
  rw [keys, List.Nodup, List.pairwise_map]
  apply table.ascending.imp
  intro left right less same
  simp [same] at less

theorem nodup_entries (table : Table key value) : table.entries.Nodup := by
  refine List.Pairwise.of_map Prod.fst ?_ table.nodup_keys
  intro left right different same
  exact different (congrArg Prod.fst same)

end Entries

variable [Std.TransOrd key]

theorem ascending_alterEntries
    (wanted : key) (change : Option value → value)
    {entries : List (key × value)}
    (ascends : entries.Pairwise fun left right => compare left.1 right.1 = .lt) :
    (alterEntries wanted change entries).Pairwise
      fun left right => compare left.1 right.1 = .lt := by
  induction entries with
  | nil => simp [alterEntries]
  | cons head rest hypothesis =>
      obtain ⟨below, restAscends⟩ := List.pairwise_cons.1 ascends
      rw [alterEntries]
      split
      · next less =>
          refine List.pairwise_cons.2 ⟨fun entry member => ?_, ascends⟩
          rcases List.mem_cons.1 member with same | older
          · rw [same]
            exact less
          · exact Std.TransCmp.lt_trans less (below entry older)
      · exact List.pairwise_cons.2 ⟨fun entry member => below entry member, restAscends⟩
      · next greater =>
          refine List.pairwise_cons.2 ⟨fun entry member => ?_, hypothesis restAscends⟩
          rcases mem_alterEntries member with new | ⟨old, oldMember, equality⟩
          · rw [new]
            exact Std.OrientedCmp.lt_of_gt greater
          · rw [equality]
            exact below old oldMember

/-- Replaces the value under a key; the change is given the value there is, if any. -/
def alter (table : Table key value) (wanted : key)
    (change : Option value → value) : Table key value where
  entries := alterEntries wanted change table.entries
  ascending := ascending_alterEntries wanted change table.ascending

/-- Tables with the same entries in any order are equal. -/
theorem ext_of_perm
    {left right : Table key value} (same : left.entries.Perm right.entries) : left = right := by
  have equal : left.entries = right.entries := by
    refine same.eq_of_pairwise ?_ left.ascending right.ascending
    intro first second _ _ less greater
    simp [Std.OrientedCmp.gt_of_lt less] at greater
  cases left
  cases right
  cases equal
  rfl

variable [Std.LawfulEqOrd key]

theorem find?_alterEntries_self
    (wanted : key) (change : Option value → value)
    {entries : List (key × value)}
    (ascends : entries.Pairwise fun left right => compare left.1 right.1 = .lt) :
    (alterEntries wanted change entries).find?
        (fun entry => compare entry.1 wanted = .eq) =
      some (wanted, change ((entries.find?
        fun entry => compare entry.1 wanted = .eq).map Prod.snd)) := by
  induction entries with
  | nil => simp [alterEntries]
  | cons head rest hypothesis =>
      obtain ⟨below, restAscends⟩ := List.pairwise_cons.1 ascends
      rw [alterEntries]
      split
      · next less =>
          have absent :
              (head :: rest).find? (fun entry => compare entry.1 wanted = .eq) =
                none := by
            refine List.find?_eq_none.2 fun entry member => ?_
            have above : compare wanted entry.1 = .lt := by
              rcases List.mem_cons.1 member with same | older
              · rw [same]
                exact less
              · exact Std.TransCmp.lt_trans less (below entry older)
            simp [Std.OrientedCmp.gt_of_lt above]
          simp [absent]
      · next equal =>
          have same : wanted = head.1 := Std.LawfulEqOrd.eq_of_compare equal
          simp [same]
      · next greater =>
          have unequal : compare head.1 wanted = .lt :=
            Std.OrientedCmp.lt_of_gt greater
          simp [unequal, hypothesis restAscends]

theorem get?_alter_self
    (table : Table key value) (wanted : key) (change : Option value → value) :
    (table.alter wanted change).get? wanted = some (change (table.get? wanted)) := by
  simp [get?, alter, find?_alterEntries_self wanted change table.ascending]

theorem get?_alter_of_ne
    (table : Table key value) {wanted other : key} (change : Option value → value)
    (different : other ≠ wanted) :
    (table.alter wanted change).get? other = table.get? other := by
  simp [get?, alter, find?_alterEntries_of_ne change table.entries different]

/-- Tables that answer every look-up alike are equal. -/
theorem ext_get?
    {left right : Table key value} (same : ∀ wanted, left.get? wanted = right.get? wanted) :
    left = right := by
  apply ext_of_perm
  rw [List.perm_ext_iff_of_nodup left.nodup_entries right.nodup_entries]
  intro entry
  rw [← get?_eq_some_iff, ← get?_eq_some_iff, same]

end Table

end Applesoft
