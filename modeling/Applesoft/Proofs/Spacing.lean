import Applesoft.Fragment
import Applesoft.Proofs.Targets

/-!
The spaces of rendered text. A token asks for a space before it, and whether it gets one depends on
all the text so far. So byte strings that are rendered one by one lack at most the space between
them, and everything else of their text stays as it is.

The main statement says when that space is there. Rendered text has only characters from the space
up to the last one of ASCII, one byte each, so that a place in its characters is the same place in
its bytes.
-/

namespace Applesoft

namespace Text

/-- Whether all characters of a text are ASCII and none is one of the control characters below the
space. -/
def IsPlain (text : Text) : Prop :=
  ∀ character ∈ text, 0x20 ≤ character.toNat ∧ character.toNat ≤ 0x7F

instance (text : Text) : Decidable (IsPlain text) :=
  decidable_of_iff
    ((text.all fun character => 0x20 ≤ character.toNat ∧ character.toNat ≤ 0x7F) = true)
    (by simp [IsPlain])

def withoutSpaces (text : Text) : Text :=
  text.filter (· ≠ ' ')

theorem withoutSpaces_append (left right : Text) :
    withoutSpaces (left ++ right) = withoutSpaces left ++ withoutSpaces right :=
  List.filter_append left right

theorem isPlain_nil : IsPlain [] :=
  fun _ member => absurd member List.not_mem_nil

theorem isPlain_singleton {character : Char}
    (plain : 0x20 ≤ character.toNat ∧ character.toNat ≤ 0x7F) : IsPlain [character] :=
  fun _ member => List.mem_singleton.1 member ▸ plain

namespace IsPlain

variable {text left right : Text}

theorem append (leftPlain : IsPlain left) (rightPlain : IsPlain right) : IsPlain (left ++ right) :=
  List.forall_mem_append.2 ⟨leftPlain, rightPlain⟩

theorem of_append (plain : IsPlain (left ++ right)) : IsPlain left :=
  (List.forall_mem_append.1 plain).1

theorem newline_notMem (plain : IsPlain text) : '\n' ∉ text :=
  fun member => absurd (plain _ member) (by decide)

/-- As many characters at the front of a plain text are as many bytes. -/
theorem encode_take (plain : IsPlain text) (place : Nat) :
    Utf8.encode (text.take place) = (Utf8.encode text).take place := by
  induction text generalizing place with
  | nil => simp [Utf8.encode]
  | cons character rest hypothesis =>
      obtain ⟨byte, single⟩ : ∃ byte, String.utf8EncodeChar character = [byte] := by
        rw [← List.length_eq_one_iff, String.length_utf8EncodeChar]
        exact (Utf8.utf8Size_eq_one_iff character).2 (plain character List.mem_cons_self).2
      cases place with
      | zero => rfl
      | succ place =>
          have behind := hypothesis (List.forall_mem_cons.1 plain).2 place
          rw [Utf8.encode, Utf8.encode] at behind
          rw [List.take_succ_cons, Utf8.encode, Utf8.encode, List.flatMap_cons, List.flatMap_cons,
            single, List.singleton_append, List.singleton_append, List.take_succ_cons, behind]

end IsPlain

end Text

open Text (IsPlain isPlain_nil isPlain_singleton withoutSpaces withoutSpaces_append)

namespace Rendering

variable (options : Options)

theorem isPlain_word (token : UInt8) : IsPlain (word options token) := by
  have keywords : ∀ spelling ∈ Keyword.spellings, IsPlain spelling.toList := by
    decide +kernel
  have escapes : ∀ value < 256, IsPlain ('\\' :: 'x' :: Numeral.hexLower 2 value) := by
    decide +kernel
  unfold word
  split
  · exact isPlain_nil
  · split
    · next spelling found =>
        rw [Keyword.spelling?] at found
        split at found
        · obtain ⟨keyword, read, rfl⟩ := Option.map_eq_some_iff.1 found
          exact keywords keyword (List.mem_of_getElem? read)
        · cases found
    · exact escapes token.toNat token.toNat_lt

theorem isPlain_piece (settled : Bool) (byte : UInt8) : IsPlain (piece options settled byte) := by
  unfold piece
  split
  · refine IsPlain.append ?_ (isPlain_word options byte)
    split
    · exact isPlain_nil
    · exact isPlain_singleton (by decide)
  · next noToken =>
      have low : byte.toNat ≤ 127 := by
        simpa [Keyword.isToken, UInt8.lt_iff_toNat_lt] using noToken
      split
      · next control =>
          split
          · have below : byte.toNat < 32 := by
              simpa [isControl, UInt8.lt_iff_toNat_lt] using control
            have shown : (byte + 64).toNat = byte.toNat + 64 := by
              rw [UInt8.toNat_add]
              exact Nat.mod_eq_of_lt (by change byte.toNat + 64 < 256; omega)
            refine (isPlain_singleton (by decide)).append (isPlain_singleton ?_)
            rw [toNat_toCharacter, shown]
            omega
          · exact isPlain_nil
      · next noControl =>
          have above : 32 ≤ byte.toNat := by
            simpa [isControl, UInt8.lt_iff_toNat_lt] using noControl
          apply isPlain_singleton
          rw [toNat_toCharacter]
          omega

theorem isPlain_renderFrom (settled : Bool) (bytes : Bytes) :
    IsPlain (renderFrom options settled bytes) := by
  induction bytes generalizing settled with
  | nil => exact isPlain_nil
  | cons byte rest hypothesis => exact (isPlain_piece options settled byte).append (hypothesis _)

end Rendering

theorem Fragment.isPlain_text (options : Options) (fragment : Fragment) :
    IsPlain (fragment.text options) := by
  have rendered :
      IsPlain (fragment.impliedKeyword options ++ Rendering.render options fragment.body) := by
    refine IsPlain.append ?_ (Rendering.isPlain_renderFrom options true fragment.body)
    unfold impliedKeyword
    split
    · split
      · exact isPlain_nil
      · decide
    · exact isPlain_nil
  unfold text
  simp only
  split
  · exact rendered
  · exact rendered
  · obtain ⟨ending, whole, _⟩ := Text.exists_trimEnd_append
      (fragment.impliedKeyword options ++ Rendering.render options fragment.body)
    rw [whole] at rendered
    exact rendered.of_append

namespace Rendering

/-- Whether a byte leaves no mark in a text: a control character that is not shown. -/
def isDropped (options : Options) (byte : UInt8) : Bool :=
  isControl byte && !options.showCaret

/-- Whether a token is the first byte that is not dropped. It may have no keyword, or be a THEN that
is not spelled out. -/
def beginsWithToken (options : Options) (bytes : Bytes) : Bool :=
  (bytes.find? fun byte => !isDropped options byte).any Keyword.isToken

/-- What stands between the texts of two byte strings when these are rendered as one. -/
def gap (options : Options) (left right : Bytes) : Text :=
  if beginsWithToken options right = true ∧ render options left ≠ [] ∧
      (render options left).getLast? ≠ some ' ' then
    [' ']
  else
    []

variable {options : Options}

theorem isControl_eq_false_of_isToken {byte : UInt8} (token : Keyword.isToken byte = true) :
    isControl byte = false := by
  simp only [Keyword.isToken, isControl, decide_eq_true_eq, decide_eq_false_iff_not,
    UInt8.lt_iff_toNat_lt, UInt8.reduceToNat] at token ⊢
  omega

theorem piece_of_isToken
    {byte : UInt8} (token : Keyword.isToken byte = true) (settled : Bool) :
    piece options settled byte = (if settled then [] else [' ']) ++ piece options true byte := by
  rw [piece, piece, if_pos token, if_pos token]
  rfl

theorem piece_of_not_isToken
    {byte : UInt8} (noToken : ¬ Keyword.isToken byte = true) (settled : Bool) :
    piece options settled byte = piece options true byte := by
  rw [piece, piece, if_neg noToken, if_neg noToken]

theorem piece_eq_nil_of_isDropped
    {byte : UInt8} (dropped : isDropped options byte = true) (settled : Bool) :
    piece options settled byte = [] := by
  rw [isDropped, Bool.and_eq_true, Bool.not_eq_true'] at dropped
  have noToken : ¬ Keyword.isToken byte = true := by
    intro token
    rw [isControl_eq_false_of_isToken token] at dropped
    exact Bool.false_ne_true dropped.1
  rw [piece, if_neg noToken, if_pos dropped.1, dropped.2]
  rfl

theorem piece_ne_nil
    {byte : UInt8} (kept : isDropped options byte = false)
    (noToken : ¬ Keyword.isToken byte = true) (settled : Bool) :
    piece options settled byte ≠ [] := by
  rw [piece, if_neg noToken]
  split
  · next control =>
      rw [isDropped, control, Bool.true_and, Bool.not_eq_false'] at kept
      rw [if_pos kept]
      exact List.cons_ne_nil _ _
  · exact List.cons_ne_nil _ _

theorem settledAfter_of_ne_nil {added : Text} (nonempty : added ≠ []) (settled : Bool) :
    settledAfter settled added = settledAfter true added := by
  rw [settledAfter, settledAfter, List.isEmpty_eq_false_iff.2 nonempty]
  rfl

/-- Text that is not settled matters to the bytes behind it in one way: if they begin with a token,
there is a space before it. The induction passes over the bytes that are dropped. -/
theorem renderFrom_eq (settled : Bool) (bytes : Bytes) :
    renderFrom options settled bytes =
      (if beginsWithToken options bytes && !settled then [' '] else []) ++
        renderFrom options true bytes := by
  induction bytes with
  | nil => simp [renderFrom, beginsWithToken]
  | cons byte rest hypothesis =>
      by_cases dropped : isDropped options byte = true
      · have begins : beginsWithToken options (byte :: rest) = beginsWithToken options rest := by
          simp [beginsWithToken, dropped]
        rw [renderFrom, renderFrom, piece_eq_nil_of_isDropped dropped,
          piece_eq_nil_of_isDropped dropped, begins]
        exact hypothesis
      · rw [Bool.not_eq_true] at dropped
        have begins : beginsWithToken options (byte :: rest) = Keyword.isToken byte := by
          simp [beginsWithToken, dropped]
        rw [renderFrom, renderFrom, begins]
        by_cases token : Keyword.isToken byte = true
        · rw [piece_of_isToken token settled, token, Bool.true_and]
          cases settled with
          | true => rfl
          | false =>
              have settledBehind (added : Text) :
                  settledAfter false ([' '] ++ added) = settledAfter true added := by
                rw [settledAfter_append]
                rfl
              simp only [Bool.false_eq_true, if_false, Bool.not_false, if_true, settledBehind,
                List.append_assoc]
        · rw [piece_of_not_isToken token settled,
            settledAfter_of_ne_nil (piece_ne_nil dropped token true) settled]
          rw [Bool.not_eq_true] at token
          simp [token]

theorem gap_eq (left right : Bytes) :
    gap options left right =
      if beginsWithToken options right && !settledAfter true (render options left) then [' ']
      else [] := by
  have settled : settledAfter true (render options left) = true ↔
      render options left = [] ∨ (render options left).getLast? = some ' ' := by
    rw [settledAfter]
    split
    · next empty => simp [List.isEmpty_iff.1 empty]
    · next nonempty =>
        rw [List.isEmpty_iff] at nonempty
        simp [nonempty]
  unfold gap
  refine if_congr ?_ rfl rfl
  rw [Bool.and_eq_true, Bool.not_eq_true', ← Bool.not_eq_true, settled, not_or]

/-- A byte has the same characters wherever it is rendered, but for spaces. -/
theorem withoutSpaces_renderFrom (settled : Bool) (bytes : Bytes) :
    withoutSpaces (renderFrom options settled bytes) =
      bytes.flatMap fun byte => withoutSpaces (piece options true byte) := by
  induction bytes generalizing settled with
  | nil => rfl
  | cons byte rest hypothesis =>
      have first : withoutSpaces (piece options settled byte) =
          withoutSpaces (piece options true byte) := by
        by_cases token : Keyword.isToken byte = true
        · rw [piece_of_isToken token settled, withoutSpaces_append]
          cases settled <;> rfl
        · rw [piece_of_not_isToken token settled]
      rw [renderFrom, withoutSpaces_append, hypothesis, first, List.flatMap_cons]

/-- Two byte strings are rendered as one by what they are rendered as by themselves, with one space
between them if the second begins with a token and the first leaves text that does not end in a
space. Apart from spaces nothing depends on what stands before. Rendered text, that of a fragment
too, has only characters from the space up to the end of ASCII, no line feed among them, and its
characters are at the same places as its bytes. -/
theorem render_append_across_gap (options : Options) (left right : Bytes) :
    render options (left ++ right) =
        render options left ++ gap options left right ++ render options right ∧
      withoutSpaces (render options (left ++ right)) =
        withoutSpaces (render options left) ++ withoutSpaces (render options right) ∧
      ∀ text, (text = render options left ∨ ∃ fragment : Fragment, text = fragment.text options) →
        IsPlain text ∧ '\n' ∉ text ∧
          ∀ place, Utf8.encode (text.take place) = (Utf8.encode text).take place := by
  refine ⟨?_, ?_, ?_⟩
  · calc
      render options (left ++ right) =
          render options left ++
            renderFrom options (settledAfter true (render options left)) right :=
        renderFrom_append options true left right
      _ = render options left ++ (gap options left right ++ render options right) := by
        rw [renderFrom_eq, gap_eq]
        rfl
      _ = render options left ++ gap options left right ++ render options right :=
        (List.append_assoc _ _ _).symm
  · simp only [render, withoutSpaces_renderFrom, List.flatMap_append]
  · intro text rendered
    have plain : IsPlain text := by
      rcases rendered with rfl | ⟨fragment, rfl⟩
      · exact isPlain_renderFrom options true left
      · exact fragment.isPlain_text options
    exact ⟨plain, plain.newline_notMem, plain.encode_take⟩

/-- A THEN that is not spelled out leaves its space behind, and the control character in front of it
leaves nothing. -/
example :
    gap { showThen := false, showCaret := false } [0x41] [0x07, Keyword.thenToken] = [' '] := by
  decide

end Rendering

end Applesoft
