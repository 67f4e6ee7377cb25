import Mathlib.Algebra.Order.Floor.Div
import Applesoft.Proofs.Checked.Wrapping
import Applesoft.Proofs.Targets

/-!
Literals cut into parts of one length. A PRINT or INPUT that begins with a literal is cut inside the
literal, again and again behind as many characters as the width has, until what is left of the
literal is within the width. The last part goes with the closing quote and all that follows it,
however long that is.

The main statement is that exactly the literals longer than the width are cut, and that no character
of the statement is lost or comes into another part than its place in the literal gives it.
-/

namespace Applesoft.Wrapping

section Parts

variable {width : Nat} {literal : Text}

theorem chunks_ne_nil (width : Nat) (literal behind : Text) : chunks width literal behind ≠ [] := by
  rw [chunks]
  split
  · exact List.cons_ne_nil _ _
  · exact List.cons_ne_nil _ _

theorem length_chunks (positive : 0 < width) (nonempty : literal ≠ []) (behind : Text) :
    (chunks width literal behind).length = literal.length ⌈/⌉ width := by
  induction literal using chunks.induct width with
  | case1 literal whole =>
      have some := List.length_pos_of_ne_nil nonempty
      rw [chunks, if_pos whole, List.length_singleton, Nat.ceilDiv_eq_add_pred_div]
      exact (Nat.div_eq_of_lt_le (by omega) (by omega)).symm
  | case2 literal long hypothesis =>
      have left : literal.drop width ≠ [] := by
        rw [ne_eq, List.drop_eq_nil_iff]
        omega
      have step : literal.length + width - 1 = literal.length - width + width - 1 + width := by
        omega
      rw [chunks, if_neg long, List.length_cons, hypothesis left, List.length_drop,
        Nat.ceilDiv_eq_add_pred_div, Nat.ceilDiv_eq_add_pred_div, step,
        Nat.add_div_right _ positive]

/-- Each part has its stretch of the literal, and the last one also what follows. -/
theorem getElem?_chunks
    {index : Nat} (positive : 0 < width) (behind : Text)
    (inside : index < (chunks width literal behind).length) :
    (chunks width literal behind)[index]? =
      some ((literal.drop (index * width)).take width ++
        if index + 1 = (chunks width literal behind).length then behind else []) := by
  induction literal using chunks.induct width generalizing index with
  | case1 literal whole =>
      rw [chunks, if_pos whole] at inside ⊢
      obtain rfl : index = 0 := Nat.lt_one_iff.1 inside
      rw [Nat.zero_mul, List.drop_zero, List.take_of_length_le (by omega)]
      rfl
  | case2 literal long hypothesis =>
      rw [chunks, if_neg long] at inside ⊢
      rw [List.length_cons] at inside ⊢
      cases index with
      | zero =>
          have further := List.length_pos_of_ne_nil (chunks_ne_nil width (literal.drop width) behind)
          rw [if_neg (by omega), List.append_nil, Nat.zero_mul, List.drop_zero]
          rfl
      | succ index =>
          have next : width + index * width = (index + 1) * width := by
            rw [Nat.succ_mul, Nat.add_comm]
          rw [List.getElem?_cons_succ, hypothesis (Nat.lt_of_succ_lt_succ inside), List.drop_drop,
            next]
          simp only [Nat.add_right_cancel_iff]

section Lengths

variable {behind part : Text} {index : Nat} (positive : 0 < width) (nonempty : literal ≠ [])
include positive nonempty

/-- There are enough parts for the literal. -/
theorem length_le_of_chunks (behind : Text) :
    literal.length ≤ (chunks width literal behind).length * width := by
  rw [length_chunks positive nonempty, Nat.mul_comm]
  exact (ceilDiv_le_iff_le_mul positive).1 le_rfl

/-- Each part begins inside of the literal, as fewer parts would be too few. -/
theorem start_lt_length (inside : index < (chunks width literal behind).length) :
    index * width < literal.length := by
  by_contra short
  rw [not_lt, Nat.mul_comm] at short
  rw [length_chunks positive nonempty] at inside
  exact absurd ((ceilDiv_le_iff_le_mul positive).2 short) (Nat.not_le_of_lt inside)

theorem full_part
    (found : (chunks width literal behind)[index]? = some part)
    (further : index + 1 < (chunks width literal behind).length) :
    part = literal.extract (index * width) ((index + 1) * width) ∧ part.length = width := by
  have next := start_lt_length positive nonempty further
  rw [getElem?_chunks positive behind (by omega), if_neg (by omega), List.append_nil] at found
  obtain rfl := Option.some.inj found
  have size : (index + 1) * width - index * width = width := by
    rw [Nat.succ_mul, Nat.add_sub_cancel_left]
  rw [List.extract_eq_take_drop, size, List.length_take, List.length_drop]
  rw [Nat.succ_mul] at next
  exact ⟨rfl, Nat.min_eq_left (by omega)⟩

theorem last_part (found : (chunks width literal behind).getLast? = some part) :
    ∃ rest, part = rest ++ behind ∧
      rest = literal.drop (((chunks width literal behind).length - 1) * width) ∧
      1 ≤ rest.length ∧ rest.length ≤ width := by
  have some := List.length_pos_of_ne_nil (chunks_ne_nil width literal behind)
  have begins := start_lt_length positive nonempty
    (Nat.sub_lt some Nat.one_pos : (chunks width literal behind).length - 1 < _)
  have within := length_le_of_chunks positive nonempty behind
  have counted : (chunks width literal behind).length - 1 + 1 =
      (chunks width literal behind).length := Nat.sub_add_cancel some
  rw [← counted, Nat.succ_mul] at within
  rw [List.getLast?_eq_getElem?, getElem?_chunks positive behind (by omega), if_pos counted,
    List.take_of_length_le (by rw [List.length_drop]; omega)] at found
  refine ⟨_, (Option.some.inj found).symm, rfl, ?_, ?_⟩
  · rw [List.length_drop]
    omega
  · rw [List.length_drop]
    omega

end Lengths

end Parts

/-- Whether a text is what stands before the literal that a PRINT or INPUT begins with, the opening
quote included. -/
def IsLead (lead : Text) : Prop :=
  lead = "PRINT \"".toList ∨ lead = "INPUT \"".toList

/-- Whether a line is a PRINT or INPUT that begins with a literal longer than a width, behind whose
closing quote the line goes on. -/
structure HasLongLiteral (width : Nat) (line lead literal behind : Text) : Prop where
  shape : line = lead ++ (literal ++ '"' :: behind)
  lead : IsLead lead
  closed : '"' ∉ literal
  long : width < literal.length

/-- Whether pieces are a line cut inside its literal, each time behind as many characters as the
width has. In each piece a part of the literal stands behind the lead of the line, or below it. -/
structure IsCutAt (width : Nat) (lead literal behind : Text) (pieces : List Text) : Prop where
  count : pieces.length = literal.length ⌈/⌉ width
  first : ∀ piece ∈ pieces.head?, lead <+: piece
  later : ∀ piece ∈ pieces.tail, Text.spaces leadLength <+: piece
  full : ∀ index piece, pieces[index]? = some piece → index + 1 < pieces.length →
    piece.drop leadLength = literal.extract (index * width) ((index + 1) * width) ∧
      (piece.drop leadLength).length = width
  last : ∀ piece ∈ pieces.getLast?, ∃ part,
    piece.drop leadLength = part ++ '"' :: behind ∧
      part = literal.drop ((pieces.length - 1) * width) ∧
      1 ≤ part.length ∧ part.length ≤ width
  spelled : (pieces.map (List.drop leadLength)).flatten = literal ++ '"' :: behind

section Statements

variable {width : Nat} {line lead literal behind : Text}

theorem IsLead.length_eq (isLead : IsLead lead) : lead.length = leadLength := by
  rcases isLead with rfl | rfl
  · rfl
  · rfl

theorem beginsWithLiteral_iff (line : Text) :
    beginsWithLiteral line = true ↔ ∃ lead rest, IsLead lead ∧ line = lead ++ rest := by
  rw [beginsWithLiteral, Bool.or_eq_true, List.isPrefixOf_iff_prefix, List.isPrefixOf_iff_prefix]
  constructor
  · rintro (⟨rest, rfl⟩ | ⟨rest, rfl⟩)
    · exact ⟨_, rest, Or.inl rfl, rfl⟩
    · exact ⟨_, rest, Or.inr rfl, rfl⟩
  · rintro ⟨lead, rest, rfl | rfl, rfl⟩
    · exact Or.inl (List.prefix_append _ _)
    · exact Or.inr (List.prefix_append _ _)

/-- The pieces of a line with a long literal are the parts of the literal, one below the other. -/
theorem HasLongLiteral.splitPrint_eq
    (has : HasLongLiteral width line lead literal behind) (positive : 0 < width) :
    ∃ first others, chunks width literal ('"' :: behind) = first :: others ∧
      splitPrint width line =
        some ((lead ++ first) :: others.map fun part => Text.spaces leadLength ++ part) := by
  obtain ⟨rfl, isLead, closed, long⟩ := has
  obtain ⟨first, others, parts⟩ := List.exists_cons_of_ne_nil
    (chunks_ne_nil width literal ('"' :: behind))
  have begins := (beginsWithLiteral_iff _).2 ⟨lead, literal ++ '"' :: behind, isLead, rfl⟩
  have inside : ∀ character ∈ literal, decide (character ≠ '"') = true := by
    intro character member
    rw [decide_eq_true_eq]
    rintro rfl
    exact closed member
  have ends : ∀ character ∈ ('"' :: behind).head?, decide (character ≠ '"') = false := by
    rintro character ⟨⟩
    rfl
  have closing : literal.length < (literal ++ '"' :: behind).length := by
    rw [List.length_append, List.length_cons]
    omega
  refine ⟨first, others, parts, ?_⟩
  rw [splitPrint, if_pos ⟨positive.ne', begins⟩, List.take_left' isLead.length_eq,
    List.drop_left' isLead.length_eq]
  simp only [takeWhile_append_of_head? inside ends]
  rw [if_pos ⟨closing, long⟩, List.drop_left, parts]

/-- Nothing but a line with a long literal is split. -/
theorem exists_hasLongLiteral_of_splitPrint
    {pieces : List Text} (split : splitPrint width line = some pieces) :
    0 < width ∧ ∃ lead literal behind, HasLongLiteral width line lead literal behind := by
  unfold splitPrint at split
  split at split
  · next asked =>
      obtain ⟨lead, rest, isLead, rfl⟩ := (beginsWithLiteral_iff line).1 asked.2
      rw [List.drop_left' isLead.length_eq] at split
      simp only at split
      split at split
      · next long =>
          have spelled := List.takeWhile_append_dropWhile
            (p := fun character : Char => decide (character ≠ '"')) (l := rest)
          have stops := List.head?_dropWhile_not (fun character : Char =>
            decide (character ≠ '"')) rest
          cases remaining : rest.dropWhile (· ≠ '"') with
          | nil =>
              rw [remaining, List.append_nil] at spelled
              rw [spelled] at long
              exact absurd long.1 (Nat.lt_irrefl _)
          | cons closing behind =>
              rw [remaining] at stops spelled
              obtain rfl : closing = '"' := by simpa using stops
              have closed : '"' ∉ rest.takeWhile (· ≠ '"') := by
                intro member
                have other := List.all_eq_true.1 List.all_takeWhile _ member
                exact absurd rfl (of_decide_eq_true other)
              refine ⟨Nat.pos_of_ne_zero asked.1, lead, _, behind, ?_, isLead, closed, long.2⟩
              rw [spelled]
      · cases split
  · cases split

theorem HasLongLiteral.isCutAt
    {pieces : List Text} (has : HasLongLiteral width line lead literal behind)
    (split : splitPrint width line = some pieces) :
    IsCutAt width lead literal behind pieces := by
  have positive := (exists_hasLongLiteral_of_splitPrint split).1
  obtain ⟨first, others, parts, whole⟩ := has.splitPrint_eq positive
  obtain rfl := Option.some.inj (split.symm.trans whole)
  have nonempty : literal ≠ [] := by
    rintro rfl
    exact Nat.not_lt_zero _ has.long
  have contents : ((lead ++ first) :: others.map fun part => Text.spaces leadLength ++ part).map
      (List.drop leadLength) = chunks width literal ('"' :: behind) := by
    rw [parts, List.map_cons, List.drop_left' has.lead.length_eq, List.map_map]
    refine congrArg _ (List.map_id'' (fun part => ?_) others)
    exact List.drop_left' (Text.length_spaces leadLength)
  have count : ((lead ++ first) :: others.map fun part => Text.spaces leadLength ++ part).length =
      (chunks width literal ('"' :: behind)).length := by
    rw [← contents, List.length_map]
  exact
    { count := count.trans (length_chunks positive nonempty _)
      first := by
        rintro piece ⟨⟩
        exact List.prefix_append _ _
      later := by
        intro piece member
        obtain ⟨later, -, rfl⟩ := List.mem_map.1 member
        exact List.prefix_append _ _
      full := by
        intro index piece found further
        refine full_part positive nonempty ?_ (count ▸ further)
        rw [← contents, List.getElem?_map, found, Option.map_some]
      last := by
        intro piece final
        rw [count]
        refine last_part positive nonempty ?_
        rw [← contents, List.getLast?_map, Option.mem_def.1 final, Option.map_some]
      spelled := by rw [contents, flatten_chunks] }

/-- The literal of a PRINT or INPUT is cut as it is asked for. A line has pieces exactly if the
width is positive and the line begins with a literal longer than that. There are as few pieces as
can hold the literal. Each of them but the last has as many characters of it as the width, the last
one has those that remain, at least one, with the closing quote and all that follows, and behind the
lead the pieces spell the line. The loop that takes a width of characters off what is left of the
line, while more than a width is left of the literal, gives these pieces. -/
theorem splitPrint_cuts_literal (width : Nat) (line : Text) :
    ((∃ pieces, splitPrint width line = some pieces) ↔
      0 < width ∧ ∃ lead literal behind, HasLongLiteral width line lead literal behind) ∧
      (∀ pieces, splitPrint width line = some pieces →
        ∀ lead literal behind, HasLongLiteral width line lead literal behind →
          IsCutAt width lead literal behind pieces) ∧
      (line.length + leadLength < Checked.wordLimit →
        Checked.splitPrint? width line = some (splitPrint width line)) := by
  refine ⟨⟨?_, ?_⟩, fun pieces split lead literal behind has => has.isCutAt split,
    Checked.splitPrint?_eq⟩
  · rintro ⟨pieces, split⟩
    exact exists_hasLongLiteral_of_splitPrint split
  · rintro ⟨positive, lead, literal, behind, has⟩
    obtain ⟨first, others, -, split⟩ := has.splitPrint_eq positive
    exact ⟨_, split⟩

/-- Four characters make two parts of two, and the quote stays with the second one. -/
example :
    splitPrint 2 "PRINT \"ABCD\";X".toList =
      some ["PRINT \"AB".toList, "       CD\";X".toList] := by
  decide +kernel

end Statements

end Applesoft.Wrapping
