import Applesoft.Proofs.Encoding
import Applesoft.Proofs.Import
import Applesoft.Proofs.Keys
import Applesoft.Proofs.Nesting
import Applesoft.Proofs.Spacing

/-!
The names that stand for one loop. Whether a NEXT closes the loop of a FOR is decided by comparing
the two names, and whether the tables of a program report two names as one by comparing their
collision keys. The first rule looks at the bytes in front, the second takes suffixes off the end.

The main statement is that the first rule is an equivalence of texts, and that the two rules agree
on names without a suffix. So a NEXT closes a loop of exactly the names that are reported together
with its own.
-/

namespace Applesoft

namespace Variable

/-- Two names stand for one loop if their first two bytes are the same. A name of one byte has no
second one, and so stands for nothing but itself. -/
theorem sameLoop_iff_take_encode (left right : Text) :
    sameLoop left right = true ↔ (Utf8.encode left).take 2 = (Utf8.encode right).take 2 := by
  simp only [sameLoop, Bool.or_eq_true, Bool.and_eq_true, decide_eq_true_eq]
  constructor
  · intro same
    rcases same with equal | both
    · rw [equal]
    · exact both.2
  · intro front
    by_cases long : 2 ≤ (Utf8.encode left).length ∧ 2 ≤ (Utf8.encode right).length
    · exact .inr ⟨long, front⟩
    · have lengths := congrArg List.length front
      simp only [List.length_take] at lengths
      rw [List.take_of_length_le (by omega), List.take_of_length_le (by omega)] at front
      exact .inl (Utf8.encode_injective front)

theorem sameLoop_equivalence :
    Equivalence fun left right : Text => sameLoop left right = true := by
  simp only [sameLoop_iff_take_encode]
  exact eq_equivalence.comap fun text => (Utf8.encode text).take 2

/-- Whether a text has upper-case letters and digits only. The names of loops do, which have no type
suffix and no array mark. -/
def IsStem (text : Text) : Prop :=
  ∀ character ∈ text, (character.isUpper || character.isDigit) = true

instance (text : Text) : Decidable (IsStem text) :=
  List.decidableBAll _ text

section Stems

variable {text left right : Text}

theorem isPlain_of_isStem (stem : IsStem text) : Text.IsPlain text := by
  intro character member
  have kind := stem character member
  change (decide (65 ≤ character.val ∧ character.val ≤ 90) ||
    (decide (48 ≤ character.val) && decide (character.val ≤ 57))) = true at kind
  simp only [Bool.or_eq_true, Bool.and_eq_true, decide_eq_true_eq,
    UInt32.le_iff_toNat_le] at kind
  change 32 ≤ character.val.toNat ∧ character.val.toNat ≤ 127
  change (65 ≤ character.val.toNat ∧ character.val.toNat ≤ 90) ∨
    (48 ≤ character.val.toNat ∧ character.val.toNat ≤ 57) at kind
  omega

/-- Nothing is taken off the end of a name without a suffix. -/
theorem peel_of_isStem
    {taken : Char → Bool} (stem : IsStem text)
    (suffix : ∀ character, taken character = true →
      (character.isUpper || character.isDigit) = false) :
    peel taken text = (text, []) := by
  rcases List.eq_nil_or_concat' text with empty | ⟨front, last, shape⟩
  · rw [empty]
    rfl
  · have kept : taken last = false := by
      rw [Bool.eq_false_iff]
      intro taking
      have named := stem last (by simp [shape])
      rw [suffix last taking] at named
      contradiction
    rw [shape, peel_concat_of_kept kept]

theorem collisionKey_of_isStem (stem : IsStem text) : collisionKey text = text.take 2 := by
  have noMark : peel (· = '(') text = (text, []) := by
    apply peel_of_isStem stem
    intro character mark
    rw [of_decide_eq_true mark]
    rfl
  have noSuffix : peel (fun last => last = '$' || last = '%') text = (text, []) := by
    apply peel_of_isStem stem
    intro character suffix
    rw [Bool.or_eq_true, decide_eq_true_eq, decide_eq_true_eq] at suffix
    rcases suffix with dollar | percent
    · rw [dollar]
      rfl
    · rw [percent]
      rfl
  have ascii : ∀ character ∈ text, character.toNat ≤ 127 :=
    fun character member => (isPlain_of_isStem stem character member).2
  simp only [collisionKey, noMark, noSuffix]
  rw [Utf8.length_encode_of_ascii ascii, significant_of_ascii ascii]
  split
  · next short => rw [List.take_of_length_le short]
  · simp

/-- Two characters are two bytes in a name without a suffix, so both rules look at the same. -/
theorem sameLoop_iff_collisionKey_eq (leftStem : IsStem left) (rightStem : IsStem right) :
    sameLoop left right = true ↔ collisionKey left = collisionKey right := by
  rw [sameLoop_iff_take_encode, collisionKey_of_isStem leftStem, collisionKey_of_isStem rightStem,
    ← (isPlain_of_isStem leftStem).encode_take, ← (isPlain_of_isStem rightStem).encode_take]
  exact Utf8.encode_injective.eq_iff

end Stems

end Variable

namespace Symbols

/-- Whether the tables report two names as names that are not unique, under one key. -/
def ReportsTogether (symbols : Symbols) (left right : Text) : Prop :=
  ∃ entry ∈ symbols.nonUnique, left ∈ entry.2 ∧ right ∈ entry.2

instance (symbols : Symbols) (left right : Text) :
    Decidable (symbols.ReportsTogether left right) :=
  inferInstanceAs (Decidable (∃ entry ∈ symbols.nonUnique, _))

/-- Different names that have been recorded are reported together if they have one key. -/
theorem reportsTogether_iff_collisionKey_eq
    {log : List (UInt16 × Finding)} {left right : Text}
    (leftRecorded : left ∈ (ofLog log).references.keys)
    (rightRecorded : right ∈ (ofLog log).references.keys) (different : left ≠ right) :
    (ofLog log).ReportsTogether left right ↔
      Variable.collisionKey left = Variable.collisionKey right := by
  have consistent := isConsistent_ofLog log
  constructor
  · intro together
    obtain ⟨entry, reported, leftMember, rightMember⟩ := together
    have found := ((ofLog log).collisions.get?_eq_some_iff entry.1 entry.2).2
      (List.mem_of_mem_filter reported)
    rw [(consistent.members entry.1 entry.2 found left leftMember).1,
      (consistent.members entry.1 entry.2 found right rightMember).1]
  · intro same
    obtain ⟨names, found, leftOnce⟩ := consistent.entered left leftRecorded
    obtain ⟨others, otherFound, rightOnce⟩ := consistent.entered right rightRecorded
    rw [← same, found] at otherFound
    obtain rfl := Option.some.inj otherFound
    have leftMember : left ∈ names := List.count_pos_iff.1 (by omega)
    have rightMember : right ∈ names := List.count_pos_iff.1 (by omega)
    have several : 1 < names.length := by
      by_contra single
      obtain ⟨name, shape⟩ := List.length_eq_one_iff.1
        (Nat.le_antisymm (Nat.not_lt.1 single) (List.length_pos_of_mem leftMember))
      rw [shape, List.mem_singleton] at leftMember rightMember
      exact different (leftMember.trans rightMember.symm)
    refine ⟨(Variable.collisionKey left, names), ?_, leftMember, rightMember⟩
    exact List.mem_filter.2 ⟨((ofLog log).collisions.get?_eq_some_iff _ _).1 found,
      decide_eq_true several⟩

end Symbols

namespace Nesting

/-- A variable of a NEXT closes the innermost loop that it stands for, with all loops inside it. -/
theorem closeLoop_append
    {name loop : Text} {inner : List Text} (outer : List Text)
    (others : ∀ other ∈ inner, Variable.sameLoop name other = false)
    (same : Variable.sameLoop name loop = true) :
    closeLoop name (inner ++ loop :: outer) = outer := by
  have found : (inner ++ loop :: outer).any (Variable.sameLoop name) = true := by
    simp [same]
  have passed : (inner ++ loop :: outer).dropWhile (fun other => !Variable.sameLoop name other) =
      loop :: outer := by
    rw [List.dropWhile_append_of_pos (by simpa using others)]
    simp [same]
  rw [closeLoop, if_pos found, passed, List.tail_cons]

end Nesting

namespace Variable

/-- The two rules agree for names that a program has recorded. -/
theorem sameLoop_iff_reportsTogether
    {log : List (UInt16 × Finding)} {left right : Text}
    (leftStem : IsStem left) (rightStem : IsStem right)
    (leftRecorded : left ∈ (Symbols.ofLog log).references.keys)
    (rightRecorded : right ∈ (Symbols.ofLog log).references.keys) :
    sameLoop left right = true ↔
      left = right ∨ (Symbols.ofLog log).ReportsTogether left right := by
  by_cases equal : left = right
  · rw [equal]
    exact iff_of_true (sameLoop_equivalence.refl right) (.inl rfl)
  · rw [sameLoop_iff_collisionKey_eq leftStem rightStem,
      ← Symbols.reportsTogether_iff_collisionKey_eq leftRecorded rightRecorded equal]
    exact (or_iff_right equal).symm

/-- Standing for one loop is an equivalence of texts. Names of upper-case letters and digits stand
for one loop if and only if they have one collision key, and so, if they have been recorded, if and
only if they are the same or are reported together. A NEXT with such a variable closes the innermost
of the loops over its own name and those reported with it, and nothing if there is none. -/
theorem sameLoop_agrees_with_tables :
    (Equivalence fun left right : Text => sameLoop left right = true) ∧
      (∀ left right, IsStem left → IsStem right →
        (sameLoop left right = true ↔ collisionKey left = collisionKey right)) ∧
      ∀ log name, ∀ nesting : Nesting,
        (∀ text ∈ name :: nesting.loops,
          IsStem text ∧ text ∈ (Symbols.ofLog log).references.keys) →
        let isOneWith := fun loop => name = loop ∨ (Symbols.ofLog log).ReportsTogether name loop
        (∀ loop ∈ nesting.loops, sameLoop name loop = true ↔ isOneWith loop) ∧
          (∀ inner loop outer, nesting.loops = inner ++ loop :: outer →
            (∀ other ∈ inner, ¬ isOneWith other) → isOneWith loop →
            (nesting.enter (.next [name])).loops = outer) ∧
          ((∀ loop ∈ nesting.loops, ¬ isOneWith loop) →
            nesting.enter (.next [name]) = nesting) := by
  refine ⟨sameLoop_equivalence,
    fun left right leftStem rightStem => sameLoop_iff_collisionKey_eq leftStem rightStem, ?_⟩
  intro log name nesting recorded isOneWith
  rw [List.forall_mem_cons] at recorded
  have agree : ∀ loop ∈ nesting.loops, sameLoop name loop = true ↔ isOneWith loop := by
    intro loop member
    obtain ⟨stem, key⟩ := recorded.2 loop member
    exact sameLoop_iff_reportsTogether recorded.1.1 stem recorded.1.2 key
  have unmatched {loops : List Text} (within : loops ⊆ nesting.loops)
      (others : ∀ loop ∈ loops, ¬ isOneWith loop) :
      ∀ loop ∈ loops, sameLoop name loop = false := by
    intro loop member
    rw [← Bool.not_eq_true, agree loop (within member)]
    exact others loop member
  refine ⟨agree, ?_, ?_⟩
  · intro inner loop outer shape others one
    have within : inner ⊆ nesting.loops := by
      rw [shape]
      exact List.subset_append_left inner (loop :: outer)
    have matched : sameLoop name loop = true := (agree loop (by simp [shape])).2 one
    rw [Nesting.loops_enter_next, shape]
    exact Nesting.closeLoop_append outer (unmatched within others) matched
  · intro others
    apply Nesting.enter_next_of_closesNothing
    refine ⟨fun noNames => absurd noNames (List.cons_ne_nil name []), ?_⟩
    rw [List.forall_mem_singleton]
    exact unmatched (List.Subset.refl _) others

/-- NEXT COIN closes the loop over COUNT, with the one over I inside it, and leaves the one over C:
a name of one character is reported with no other. -/
theorem next_closes_reported_loop :
    let count : Text := ['C', 'O', 'U', 'N', 'T']
    let coin : Text := ['C', 'O', 'I', 'N']
    let log : List (UInt16 × Finding) := [['C'], count, ['I'], coin].map fun name =>
      (10, .reference name)
    let nesting : Nesting := { loops := [['I'], count, ['C']], indent := 3 }
    (Symbols.ofLog log).nonUnique = [(['C', 'O'], [count, coin])] ∧
      (nesting.enter (.next [coin])).loops = [['C']] := by
  intro count coin log nesting
  have recorded : ∀ text ∈ coin :: nesting.loops,
      IsStem text ∧ text ∈ (Symbols.ofLog log).references.keys := by
    decide +kernel
  obtain ⟨-, closes, -⟩ := sameLoop_agrees_with_tables.2.2 log coin nesting recorded
  refine ⟨by decide +kernel, ?_⟩
  refine closes [['I']] count [['C']] rfl ?_ ?_
  · decide +kernel
  · decide +kernel

end Variable

end Applesoft
