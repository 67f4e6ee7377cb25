import Applesoft.Proofs.Checked.Statements
import Applesoft.Proofs.Checked.Wrapping
import Applesoft.Proofs.Runs

namespace Applesoft.Checked

open Listing

/-- The text of a fragment with its equals sign moved to a column. -/
def alignedText? (options : Options) (column : Nat) (fragment : Fragment) : Option Text := do
  let text ← text? options fragment
  let own ← equalsOffset? options fragment
  if 0 < own ∧ own < column then
    let gap ← difference? column own
    insert? text own (Text.spaces gap)
  else
    some text

def statementText? (options : Options) (column : Nat) (fragment : Fragment) : Option Text :=
  match fragment.statement with
  | .remark =>
      (alignedText? options 0 fragment).map fun text =>
        if options.deleteExtraRemSpace then deleteExtraSpace "REM" text else text
  | .data =>
      (alignedText? options column fragment).map fun text =>
        if options.deleteExtraDataSpace then deleteExtraSpace "DATA" text else text
  | _ => alignedText? options column fragment

section Texts

variable (options : Options) (column : Nat) (fragment : Fragment)

theorem equalsColumn_le_length :
    fragment.equalsColumn options ≤ (fragment.text options).length := by
  unfold Fragment.equalsColumn Fragment.equalsIndex
  split
  · exact Nat.zero_le _
  · cases found : (fragment.text options).findIdx? (· = '=') with
    | none => exact Nat.zero_le _
    | some index => exact (List.findIdx?_eq_some_iff_getElem.1 found).1.le

theorem alignedText?_eq :
    alignedText? options column fragment = some (alignedText options column fragment) := by
  have cut := (isAscii_text options fragment).cut?_eq (equalsColumn_le_length options fragment)
  simp only [alignedText?, text?_eq, equalsOffset?_eq, Option.bind_eq_bind, Option.bind_some,
    alignedText]
  by_cases moved : 0 < fragment.equalsColumn options ∧ fragment.equalsColumn options < column
  · rw [if_pos moved, if_pos moved, difference?_eq moved.2.le, Option.bind_some, insert?, cut]
    rfl
  · rw [if_neg moved, if_neg moved]

theorem statementText?_eq :
    statementText? options column fragment = some (statementText options column fragment) := by
  rw [statementText?, statementText, alignedText?_eq, alignedText?_eq]
  cases fragment.statement <;> rfl

end Texts

/-- How many characters a byte is shown with at most. -/
def longestPiece : Nat :=
  16

theorem length_word_lt (options : Options) (token : UInt8) :
    (Rendering.word options token).length < longestPiece := by
  have keywords : ∀ spelling ∈ Keyword.spellings, spelling.toList.length < longestPiece := by
    decide +kernel
  have escapes : ∀ value < 256,
      ('\\' :: 'x' :: Numeral.hexLower 2 value).length < longestPiece := by
    decide +kernel
  unfold Rendering.word
  split
  · decide
  · split
    · next spelling found =>
        rw [Keyword.spelling?] at found
        split at found
        · obtain ⟨keyword, read, rfl⟩ := Option.map_eq_some_iff.1 found
          exact keywords keyword (List.mem_of_getElem? read)
        · cases found
    · exact escapes token.toNat token.toNat_lt

theorem length_piece_le (options : Options) (settled : Bool) (byte : UInt8) :
    (Rendering.piece options settled byte).length ≤ longestPiece := by
  have shown := length_word_lt options byte
  unfold Rendering.piece
  split
  · rw [List.length_append]
    split
    · simpa using shown.le
    · exact Nat.add_comm 1 _ ▸ shown
  · split
    · split
      · exact Nat.le_of_ble_eq_true rfl
      · exact Nat.zero_le _
    · exact Nat.le_of_ble_eq_true rfl

theorem length_renderFrom_le (options : Options) (settled : Bool) (bytes : Bytes) :
    (Rendering.renderFrom options settled bytes).length ≤ longestPiece * bytes.length := by
  induction bytes generalizing settled with
  | nil => exact Nat.zero_le _
  | cons byte rest hypothesis =>
      have shown := length_piece_le options settled byte
      have behind := hypothesis
        (Rendering.settledAfter settled (Rendering.piece options settled byte))
      rw [Rendering.renderFrom, List.length_append, List.length_cons, Nat.mul_add_one]
      omega

theorem length_text_le (options : Options) (fragment : Fragment) :
    (fragment.text options).length ≤ longestPiece * fragment.body.length + 5 := by
  have rendered : (fragment.impliedKeyword options ++
      Rendering.render options fragment.body).length ≤ longestPiece * fragment.body.length + 5 := by
    have bytes := length_renderFrom_le options true fragment.body
    have keyword : (fragment.impliedKeyword options).length ≤ 5 := by
      unfold Fragment.impliedKeyword
      split
      · split <;> decide
      · decide
    rw [List.length_append, Rendering.render]
    omega
  unfold Fragment.text
  simp only
  split
  · exact rendered
  · exact rendered
  · obtain ⟨ending, whole, _⟩ := Text.exists_trimEnd_append
      (fragment.impliedKeyword options ++ Rendering.render options fragment.body)
    calc _ ≤ _ + ending.length := Nat.le_add_right _ _
      _ = _ := List.length_append.symm.trans (congrArg List.length whole.symm)
      _ ≤ _ := rendered

theorem length_replaceFirst_le
    {pattern replacement : Text} (shorter : replacement.length ≤ pattern.length) (text : Text) :
    (replaceFirst pattern replacement text).length ≤ text.length := by
  induction text with
  | nil => exact le_rfl
  | cons character rest hypothesis =>
      rw [replaceFirst]
      split
      · next found =>
          have inside := (List.isPrefixOf_iff_prefix.1 found).length_le
          rw [List.length_append, List.length_drop]
          omega
      · exact Nat.succ_le_succ hypothesis

/-- Only assignments have room put into their text. -/
theorem length_statementText_le
    {options : Options} {fragment : Fragment} (other : fragment.statement ≠ .assignment)
    (column : Nat) :
    (statementText options column fragment).length ≤ (fragment.text options).length := by
  have aligned (column : Nat) : alignedText options column fragment = fragment.text options := by
    have unaligned : fragment.equalsColumn options = 0 := by
      simp [Fragment.equalsColumn, Fragment.assignPosition, other]
    rw [alignedText, unaligned]
    rfl
  have shortened (keyword : String) (text : Text) :
      (deleteExtraSpace keyword text).length ≤ text.length := by
    apply length_replaceFirst_le
    rw [List.length_append, List.length_append]
    exact Nat.add_le_add_left (by decide) _
  unfold statementText
  simp only [aligned]
  split
  · split
    · exact shortened _ _
    · exact le_rfl
  · split
    · exact shortened _ _
    · exact le_rfl
  · exact le_rfl

/-- Wraps a text that is longer than a width. -/
def wrap? (width : Nat) (breaker : Char) (wrapped : WrappedStatement) (text : Text) :
    Option Pieces :=
  if width = 0 ∨ text.length ≤ width then
    some (Pieces.whole text)
  else
    (splitLine? width breaker text).map fun pieces =>
      let tooLong := ∃ piece ∈ pieces, width < piece.length
      Pieces.ofList text (if tooLong then [.noBreakPoint wrapped] else []) pieces

/-- Cuts the literal of a PRINT or INPUT. -/
def cutLiteral? (options : Options) (fragment : Fragment) (text : Text) : Option Pieces :=
  if options.wrapPrintAt ≠ 0 ∧ text.count '"' = 2 ∧ fragment.containsControl = false then
    (splitPrint? options.wrapPrintAt text).map fun parts =>
      match parts with
      | some pieces => Pieces.ofList text [] pieces
      | none => Pieces.whole text
  else
    some (Pieces.whole text)

def piecesOf? (options : Options) (fragment : Fragment) (text : Text) : Option Pieces :=
  match fragment.statement with
  | .remark => wrap? options.wrapRemAt ' ' .rem text
  | .data => wrap? options.wrapDataAt ',' .data text
  | .dim => some (Pieces.ofDim options text)
  | .print => cutLiteral? options fragment text
  | .input => cutLiteral? options fragment text
  | _ => some (Pieces.whole text)

section Pieces

variable {options : Options} {fragment : Fragment} {text : Text}

theorem wrap?_eq
    (width : Nat) (breaker : Char) (wrapped : WrappedStatement)
    (short : text.length + 1 < wordLimit) :
    wrap? width breaker wrapped text = some (Pieces.wrap width breaker wrapped text) := by
  rw [wrap?, Pieces.wrap]
  by_cases whole : width = 0 ∨ text.length ≤ width
  · have alone : Wrapping.splitLine width breaker text = [text] := by
      rw [Wrapping.splitLine, Wrapping.splitFrom, if_pos whole]
    have fits : ¬ (width ≠ 0 ∧ width < text.length) := by omega
    simp [whole, alone, fits, Pieces.ofList, Pieces.whole]
  · have nonzero : width ≠ 0 := fun zero => whole (Or.inl zero)
    rw [if_neg whole, splitLine?_eq short]
    simp [nonzero]

theorem cutLiteral?_eq (short : text.length + Wrapping.leadLength < wordLimit) :
    cutLiteral? options fragment text = some (Pieces.ofPrint options fragment text) := by
  rw [cutLiteral?, Pieces.ofPrint]
  by_cases asked : options.wrapPrintAt = 0
  · have uncut : Wrapping.splitPrint options.wrapPrintAt text = none :=
      if_neg fun both => both.1 asked
    rw [if_neg fun all => all.1 asked, uncut, ite_self]
  · simp only [ne_eq, asked, not_false_eq_true, true_and, splitPrint?_eq short, Option.map_some]
    split <;> rfl

/-- Nothing is refused on the way from a fragment to its pieces. -/
theorem piecesOf?_eq
    (small : longestPiece * fragment.body.length + 16 < wordLimit) (column : Nat) :
    piecesOf? options fragment (statementText options column fragment) =
      some (Pieces.ofText options fragment (statementText options column fragment)) := by
  have length := length_text_le options fragment
  have short (other : fragment.statement ≠ .assignment) :
      (statementText options column fragment).length + 7 < wordLimit := by
    have shown := @length_statementText_le options fragment other column
    omega
  have shortLine (other : fragment.statement ≠ .assignment) :
      (statementText options column fragment).length + 1 < wordLimit := by
    have enough := short other
    omega
  rw [piecesOf?, Pieces.ofText]
  cases kind : fragment.statement with
  | remark => exact wrap?_eq _ _ _ (shortLine (by simp [kind]))
  | data => exact wrap?_eq _ _ _ (shortLine (by simp [kind]))
  | print => exact cutLiteral?_eq (short (by simp [kind]))
  | input => exact cutLiteral?_eq (short (by simp [kind]))
  | _ => rfl

end Pieces

end Applesoft.Checked
