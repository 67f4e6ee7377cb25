import Mathlib.Data.List.Basic
import Applesoft.Listing.Layout
import Applesoft.Proofs.Breaks

namespace Applesoft

namespace Text

def ink (text : Text) : Text :=
  text.filter fun character => character ≠ ' ' ∧ character ≠ '\n'

theorem ink_append (left right : Text) : ink (left ++ right) = ink left ++ ink right :=
  List.filter_append left right

theorem ink_flatten (parts : List Text) : ink parts.flatten = parts.flatMap ink := by
  rw [ink, List.filter_flatten, List.flatMap_def]
  rfl

@[simp]
theorem ink_spaces (count : Nat) : ink (spaces count) = [] := by
  rw [ink, List.filter_eq_nil_iff]
  intro character member
  rw [List.eq_of_mem_replicate member]
  simp

theorem ink_padRight (width : Nat) (text : Text) : ink (padRight width text) = ink text := by
  rw [padRight, ink_append, ink_spaces, List.append_nil]

end Text

open Text (ink ink_append ink_flatten ink_spaces)

namespace Wrapping

/-- Whether pieces are a line in parts that hang below each other behind the lead of the line. -/
inductive Hangs (indent : Nat) : Text → List Text → Prop
  | intro {lead first : Text} {others : List Text} :
      lead ≠ [] →
      Hangs indent (lead ++ (first :: others).flatten)
        ((lead ++ first) :: others.map fun part => Text.spaces indent ++ part)

theorem flatMap_ink_map_spaces (indent : Nat) (parts : List Text) :
    (parts.map fun part => Text.spaces indent ++ part).flatMap ink = ink parts.flatten := by
  rw [List.flatMap_map, ink_flatten]
  refine List.flatMap_congr fun part _ => ?_
  rw [ink_append, ink_spaces, List.nil_append]

theorem Hangs.flatMap_ink
    {indent : Nat} {line : Text} {pieces : List Text} (hangs : Hangs indent line pieces) :
    pieces.flatMap ink = ink line := by
  cases hangs
  rw [List.flatMap_cons, flatMap_ink_map_spaces, ← ink_append, List.flatten_cons,
    List.append_assoc]

/-- A break at a space drops the space; any other break drops nothing. -/
theorem ink_take_append_drop
    {text : Text} {breaker : Char} {index : Nat} (read : text[index]? = some breaker) :
    ink (text.take (index + kept breaker)) ++ ink (text.drop (index + 1)) = ink text := by
  obtain ⟨within, shape⟩ := List.getElem?_eq_some_iff.1 read
  by_cases space : breaker = ' '
  · have behind : ink (text.drop index) = ink (text.drop (index + 1)) := by
      rw [List.drop_eq_getElem_cons within, shape, space]
      rfl
    rw [kept, if_pos space, Nat.add_zero, ← behind, ← ink_append, List.take_append_drop]
  · rw [kept, if_neg space, ← ink_append, List.take_append_drop]

theorem IsBrokenInto.flatMap_ink
    {width floor : Nat} {breaker : Char} {text : Text} {pieces : List Text}
    (broken : IsBrokenInto width breaker floor text pieces) :
    pieces.flatMap ink = ink text := by
  induction broken with
  | whole _ => simp
  | broken _ last _ hypothesis =>
      rw [List.flatMap_cons, hypothesis, ink_append, ink_spaces, List.nil_append,
        ink_take_append_drop last.1.holds]

theorem takeOptional_append (taken : Char → Bool) (text : Text) :
    (takeOptional taken text).1 ++ (takeOptional taken text).2 = text := by
  unfold takeOptional
  split
  · rfl
  · split
    · rfl
    · rfl

/-- An array and what follows it spell the text that it is taken from. -/
theorem append_of_takeArray?
    {text array rest : Text} (found : takeArray? text = some (array, rest)) :
    array ++ rest = text := by
  unfold takeArray? at found
  split at found
  · cases found
  · next first tail =>
      split at found
      · have stem := List.takeWhile_append_dropWhile (p := isStemCharacter) (l := tail)
        have suffix := takeOptional_append (fun taken => taken = '$' || taken = '%')
          (tail.dropWhile isStemCharacter)
        simp only at found
        split at found
        · next inside named =>
            split at found
            · next behind closed =>
                have subscripts := List.takeWhile_append_dropWhile
                  (p := fun inner => !isParenthesis inner) (l := inside)
                have separator :=
                  takeOptional_append (fun taken => taken = ',' || taken = ':') behind
                simp only [Option.some.injEq, Prod.mk.injEq] at found
                obtain ⟨rfl, rfl⟩ := found
                rw [closed] at subscripts
                rw [named] at suffix
                simp only [List.append_assoc, List.cons_append, separator, subscripts, suffix,
                  stem]
            · cases found
        · cases found
      · cases found

theorem arrays?_nil : arrays? [] = some [] := by
  rw [arrays?, if_pos List.isEmpty_nil]

theorem arrays?_of_takeArray?
    {text array rest : Text} (taken : takeArray? text = some (array, rest)) :
    arrays? text = (arrays? rest).map (array :: ·) := by
  have nonempty : ¬text.isEmpty = true := by
    rw [List.isEmpty_iff]
    rintro rfl
    cases taken
  rw [arrays?, if_neg nonempty]
  split
  · next absent =>
      rw [taken] at absent
      cases absent
  · next other others same =>
      obtain ⟨rfl, rfl⟩ := Prod.mk.inj (Option.some.inj (taken.symm.trans same))
      rfl

theorem arrays?_of_takeArray?_eq_none
    {text : Text} (nonempty : ¬text.isEmpty = true) (absent : takeArray? text = none) :
    arrays? text = none := by
  rw [arrays?, if_neg nonempty]
  split
  · rfl
  · next other others taken =>
      rw [absent] at taken
      cases taken

theorem flatten_of_arrays?
    {text : Text} {arrays : List Text} (found : arrays? text = some arrays) :
    arrays.flatten = text := by
  induction text using arrays?.induct generalizing arrays with
  | case1 text empty =>
      obtain rfl := List.isEmpty_iff.1 empty
      rw [arrays?_nil] at found
      obtain rfl := Option.some.inj found
      rfl
  | case2 text nonempty absent =>
      rw [arrays?_of_takeArray?_eq_none nonempty absent] at found
      cases found
  | case3 text nonempty array rest taken hypothesis =>
      rw [arrays?_of_takeArray? taken] at found
      obtain ⟨further, furtherFound, rfl⟩ := Option.map_eq_some_iff.1 found
      rw [List.flatten_cons, hypothesis furtherFound, append_of_takeArray? taken]

theorem hangs_of_splitDim
    {line : Text} {pieces : List Text} (found : splitDim line = some pieces) :
    Hangs 4 line pieces := by
  unfold splitDim at found
  split at found
  · next begins =>
      obtain ⟨behind, rfl⟩ := List.isPrefixOf_iff_prefix.1 begins
      split at found
      · next first others arrays =>
          obtain rfl := Option.some.inj found
          have spelled : (first :: others).flatten = behind := flatten_of_arrays? arrays
          rw [← spelled]
          exact Hangs.intro (by simp)
      · cases found
  · cases found

theorem flatten_chunks (width : Nat) (literal behind : Text) :
    (chunks width literal behind).flatten = literal ++ behind := by
  induction literal using chunks.induct width with
  | case1 literal whole =>
      rw [chunks, if_pos whole]
      simp
  | case2 literal long hypothesis =>
      rw [chunks, if_neg long, List.flatten_cons, hypothesis, ← List.append_assoc,
        List.take_append_drop]

theorem hangs_of_splitPrint
    {width : Nat} {line : Text} {pieces : List Text}
    (found : splitPrint width line = some pieces) :
    Hangs leadLength line pieces := by
  unfold splitPrint at found
  split at found
  · simp only at found
    split at found
    · next closed =>
        split at found
        · next first others parts =>
            obtain rfl := Option.some.inj found
            have whole := List.prefix_iff_eq_append.1
              (List.takeWhile_prefix (· ≠ '"') (l := line.drop leadLength))
            have spelled := flatten_chunks width ((line.drop leadLength).takeWhile (· ≠ '"'))
              ((line.drop leadLength).drop ((line.drop leadLength).takeWhile (· ≠ '"')).length)
            rw [parts, whole] at spelled
            have long : leadLength < line.length := by
              have lengths := closed.1
              rw [List.length_drop] at lengths
              omega
            have lead : line.take leadLength ≠ [] := by
              rw [ne_eq, List.take_eq_nil_iff, not_or]
              exact ⟨by decide, by rintro rfl; cases long⟩
            have hangs : Hangs leadLength
                (line.take leadLength ++ (first :: others).flatten) _ := Hangs.intro lead
            rwa [spelled, List.take_append_drop] at hangs
        · cases found
    · cases found
  · cases found

end Wrapping

namespace Listing

theorem ink_replaceFirst
    {pattern replacement : Text} (same : ink replacement = ink pattern) (text : Text) :
    ink (replaceFirst pattern replacement text) = ink text := by
  induction text with
  | nil => rfl
  | cons character rest hypothesis =>
      rw [replaceFirst]
      split
      · next begins =>
          have whole := List.prefix_iff_eq_append.1 (List.isPrefixOf_iff_prefix.1 begins)
          rw [ink_append, same, ← ink_append, whole]
      · rw [← List.singleton_append, ink_append, hypothesis, ← ink_append]
        rfl

theorem ink_deleteExtraSpace (keyword : String) (text : Text) :
    ink (deleteExtraSpace keyword text) = ink text := by
  apply ink_replaceFirst
  rw [ink_append, ink_append]
  rfl

theorem ink_alignedText (options : Options) (column : Nat) (fragment : Fragment) :
    ink (alignedText options column fragment) = ink (fragment.text options) := by
  unfold alignedText
  simp only
  split
  · rw [ink_append, ink_append, ink_spaces, List.append_nil, ← ink_append,
      List.take_append_drop]
  · rfl

theorem ink_statementText (options : Options) (column : Nat) (fragment : Fragment) :
    ink (statementText options column fragment) = ink (fragment.text options) := by
  unfold statementText
  split
  · simp only
    split
    · rw [ink_deleteExtraSpace, ink_alignedText]
    · rw [ink_alignedText]
  · simp only
    split
    · rw [ink_deleteExtraSpace, ink_alignedText]
    · rw [ink_alignedText]
  · rw [ink_alignedText]

namespace Pieces

/-- What pieces have in them, one behind the other. -/
def content (pieces : Pieces) : Text :=
  pieces.first ++ pieces.others.flatten

theorem ink_content_ofList
    {text : Text} {anomalies : List Anomaly} {list : List Text}
    (same : list.flatMap ink = ink text) :
    ink (ofList text anomalies list).content = ink text := by
  cases list with
  | nil => rw [ofList, content, List.flatten_nil, List.append_nil]
  | cons first others =>
      rw [← same, ← ink_flatten]
      rfl

theorem ink_content_whole (text : Text) : ink (whole text).content = ink text := by
  rw [whole, content, List.flatten_nil, List.append_nil]

theorem ink_content_wrap (width : Nat) (breaker : Char) (wrapped : WrappedStatement) (text : Text) :
    ink (wrap width breaker wrapped text).content = ink text :=
  ink_content_ofList (Wrapping.isBrokenInto_splitLine width breaker text).flatMap_ink

theorem ink_content_ofDim (options : Options) (text : Text) :
    ink (ofDim options text).content = ink text := by
  unfold ofDim
  split
  · split
    · next pieces found => exact ink_content_ofList (Wrapping.hangs_of_splitDim found).flatMap_ink
    · exact ink_content_whole text
  · exact ink_content_whole text

theorem ink_content_ofPrint (options : Options) (fragment : Fragment) (text : Text) :
    ink (ofPrint options fragment text).content = ink text := by
  unfold ofPrint
  split
  · split
    · next pieces found => exact ink_content_ofList (Wrapping.hangs_of_splitPrint found).flatMap_ink
    · exact ink_content_whole text
  · exact ink_content_whole text

theorem ink_content_ofText (options : Options) (fragment : Fragment) (text : Text) :
    ink (ofText options fragment text).content = ink text := by
  unfold ofText
  split
  · exact ink_content_wrap _ _ _ text
  · exact ink_content_wrap _ _ _ text
  · exact ink_content_ofDim options text
  · exact ink_content_ofPrint options fragment text
  · exact ink_content_ofPrint options fragment text
  · exact ink_content_whole text

theorem flatMap_ink_rows (margin : Text) (pieces : Pieces) :
    (pieces.rows margin).flatMap ink = ink margin ++ ink pieces.content := by
  rw [rows, List.flatMap_cons, Wrapping.flatMap_ink_map_spaces, content, ink_append, ink_append,
    List.append_assoc]

theorem flatMap_ink_join (shown : List Text) (pieces : Pieces) :
    (pieces.join shown).flatMap ink = shown.flatMap ink ++ ink pieces.content := by
  have lowest : shown.dropLast.flatMap ink ++ ink (shown.getLast?.getD [] ++ [' ']) =
      shown.flatMap ink := by
    rcases List.eq_nil_or_concat shown with rfl | ⟨front, last, rfl⟩
    · rfl
    · simp [ink]
  rw [join, List.flatMap_append, flatMap_ink_rows, ← List.append_assoc, lowest]

end Pieces

end Listing

end Applesoft
