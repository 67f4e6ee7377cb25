import Mathlib.Data.List.Nodup
import Mathlib.Data.List.TakeWhile
import Applesoft.Command.Arguments

/-!
How options are written in a command line. Each is written by its long name or its letter, with its
value behind it or in the same argument, and the options stand one behind the other. Two dashes may
end them.

The main statement is that the arguments which are read are those that write options in this way,
none of them twice, and that just these options are read from them.
-/

namespace Applesoft.Command

def OptionName.longForm (option : OptionName) : Text :=
  '-' :: '-' :: option.long.toList

def OptionName.Admits (option : OptionName) (value : Text) : Prop :=
  ∃ form, option.value = some form ∧ form.admits value = true

/-- Whether a text can follow an option as its value. -/
def IsPlain (argument : Text) : Prop :=
  ∀ letter rest, argument ≠ '-' :: letter :: rest

/-- The arguments that give an option a value; the value of a flag is empty. -/
inductive Writing (option : OptionName) : Text → List Text → Prop
  | flag (bare : option.value = none) : Writing option [] [option.longForm]
  | apart {value : Text} (admitted : option.Admits value) (plain : IsPlain value) :
      Writing option value [option.longForm, value]
  | joined {value : Text} (admitted : option.Admits value) :
      Writing option value [option.longForm ++ '=' :: value]
  | letterApart {letter : Char} {value : Text} (named : option.letter = some letter)
      (admitted : option.Admits value) (plain : IsPlain value) :
      Writing option value [['-', letter], value]
  | letterJoined {letter first : Char} {rest : Text} (named : option.letter = some letter)
      (admitted : option.Admits (first :: rest)) (direct : first ≠ '=') :
      Writing option (first :: rest) ['-' :: letter :: first :: rest]
  | letterEquals {letter : Char} {value : Text} (named : option.letter = some letter)
      (admitted : option.Admits value) :
      Writing option value ['-' :: letter :: '=' :: value]

/-- The arguments that give options values, in their order. -/
inductive Spelled (accepted : List OptionName) : List Text → Given → Prop
  | nothing : Spelled accepted [] []
  | ended : Spelled accepted [['-', '-']] []
  | option {option : OptionName} {value : Text} {words rest : List Text} {further : Given}
      (member : option ∈ accepted) (written : Writing option value words)
      (behind : Spelled accepted rest further) :
      Spelled accepted (words ++ rest) ((option.long.toList, value) :: further)

/-- Whether options can be told apart. -/
structure AreDistinct (accepted : List OptionName) : Prop where
  longs : ∀ left ∈ accepted, ∀ right ∈ accepted, left.long = right.long → left = right
  letters : ∀ left ∈ accepted, ∀ right ∈ accepted,
    left.letter.isSome → left.letter = right.letter → left = right
  named : ∀ option ∈ accepted, option.long.toList ≠ [] ∧ '=' ∉ option.long.toList
  noDash : ∀ option ∈ accepted, option.letter ≠ some '-'

namespace ArgumentForm

theorem ofText_plain {argument : Text} (plain : IsPlain argument) :
    ofText argument = .plain argument := by
  unfold ofText
  split
  · exact absurd rfl (plain _ _)
  · exact absurd rfl (plain _ _)
  · exact absurd rfl (plain _ _)
  · rfl

theorem ofText_long {name : Text} (nonempty : name ≠ []) (noEquals : '=' ∉ name) :
    ofText ('-' :: '-' :: name) = .long name none := by
  have whole : name.dropWhile (· ≠ '=') = [] := by
    apply List.dropWhile_eq_nil_iff.2
    intro character member
    exact decide_eq_true (ne_of_mem_of_not_mem member noEquals)
  cases name with
  | nil => exact absurd rfl nonempty
  | cons first rest => simp only [ofText, whole]

theorem ofText_long_value {name : Text} (value : Text) (noEquals : '=' ∉ name) :
    ofText ('-' :: '-' :: name ++ '=' :: value) = .long name (some value) := by
  have before : ∀ character ∈ name, decide (character ≠ '=') = true := by
    intro character member
    exact decide_eq_true (ne_of_mem_of_not_mem member noEquals)
  have behind : (name ++ '=' :: value).dropWhile (· ≠ '=') = '=' :: value := by
    rw [List.dropWhile_append_of_pos before]
    rfl
  have front : (name ++ '=' :: value).takeWhile (· ≠ '=') = name := by
    rw [List.takeWhile_append_of_pos before]
    exact List.append_nil name
  cases shape : name ++ '=' :: value with
  | nil => simp at shape
  | cons first rest =>
      rw [shape] at behind front
      rw [List.cons_append, List.cons_append, shape]
      simp only [ofText, behind, front]

theorem ofText_short {letter : Char} (rest : Text) (noDash : letter ≠ '-') :
    ofText ('-' :: letter :: rest) = .short letter rest := by
  unfold ofText
  split
  · next shape => simp_all
  · next shape => simp_all
  · next shape => simp_all
  · next other => exact absurd rfl (other _ _)

theorem isPlain_of_ofText {argument text : Text} (form : ofText argument = .plain text) :
    IsPlain argument := by
  unfold ofText at form
  split at form
  · cases form
  · split at form <;> cases form
  · cases form
  · next other => exact other

/-- Every argument has one of five forms. -/
theorem ofText_cases (argument : Text) :
    (ofText argument = .endOfOptions ∧ argument = ['-', '-']) ∨
      (∃ name, ofText argument = .long name none ∧ argument = '-' :: '-' :: name) ∨
      (∃ name value, ofText argument = .long name (some value) ∧
        argument = '-' :: '-' :: name ++ '=' :: value) ∨
      (∃ letter rest, ofText argument = .short letter rest ∧ argument = '-' :: letter :: rest) ∨
      (ofText argument = .plain argument ∧ IsPlain argument) := by
  unfold ofText
  split
  · exact Or.inl ⟨rfl, rfl⟩
  · next rest _ =>
      split
      · exact Or.inr (Or.inl ⟨rest, rfl, rfl⟩)
      · next first value dropped =>
          have equals : first = '=' := by
            have stops := List.head?_dropWhile_not (fun character => decide (character ≠ '=')) rest
            rw [dropped] at stops
            simpa using stops
          have whole := List.takeWhile_append_dropWhile (p := (· ≠ '=')) (l := rest)
          rw [dropped, equals] at whole
          refine Or.inr (Or.inr (Or.inl ⟨_, value, rfl, ?_⟩))
          rw [List.cons_append, List.cons_append, whole]
  · next letter rest _ _ => exact Or.inr (Or.inr (Or.inr (Or.inl ⟨letter, rest, rfl, rfl⟩)))
  · next other => exact Or.inr (Or.inr (Or.inr (Or.inr ⟨rfl, other⟩)))

end ArgumentForm

theorem give_eq_ok_iff (option value : Text) (given after : Given) :
    give option value given = .ok after ↔
      option ∉ given.map Prod.fst ∧ after = given ++ [(option, value)] := by
  rw [give]
  by_cases again : option ∈ given.map Prod.fst
  · have found : (given.lookup option).isSome = true := by
      rw [List.lookup_isSome_iff]
      obtain ⟨entry, member, rfl⟩ := List.mem_map.1 again
      exact ⟨entry, member, beq_self_eq_true entry.1⟩
    rw [if_pos found]
    simp [again]
  · have absent : ¬ (given.lookup option).isSome = true := by
      rw [List.lookup_isSome_iff]
      intro found
      obtain ⟨entry, member, same⟩ := found
      exact again (List.mem_map.2 ⟨entry, member, (eq_of_beq same).symm⟩)
    rw [if_neg absent]
    simp [again, eq_comm]

theorem giveValue_eq_ok_iff (option : OptionName) (value : Text) (given after : Given) :
    giveValue option value given = .ok after ↔
      option.Admits value ∧ option.long.toList ∉ given.map Prod.fst ∧
        after = given ++ [(option.long.toList, value)] := by
  have admits : (option.value.any fun form => form.admits value) = true ↔ option.Admits value :=
    Option.any_eq_true ..
  rw [giveValue, ← admits, ← give_eq_ok_iff]
  split
  · next admitted => simp [admitted]
  · next refused => simp [refused]

theorem find?_eq_some_iff_of_unique
    {alpha : Type} {wanted : alpha → Bool} {list : List alpha}
    (unique : ∀ left ∈ list, ∀ right ∈ list, wanted left = true → wanted right = true →
      left = right) (element : alpha) :
    list.find? wanted = some element ↔ element ∈ list ∧ wanted element = true := by
  constructor
  · intro found
    exact ⟨List.mem_of_find?_eq_some found, List.find?_some found⟩
  · intro suits
    cases found : list.find? wanted with
    | none => exact absurd suits.2 (List.find?_eq_none.1 found element suits.1)
    | some other =>
        rw [unique other (List.mem_of_find?_eq_some found) element suits.1
          (List.find?_some found) suits.2]

section Accepted

variable {accepted : List OptionName}

theorem AreDistinct.find?_long (distinct : AreDistinct accepted) (name : Text)
    (option : OptionName) :
    (accepted.find? fun option => option.long.toList = name) = some option ↔
      option ∈ accepted ∧ option.long.toList = name := by
  rw [find?_eq_some_iff_of_unique]
  · rw [decide_eq_true_eq]
  · intro left leftMember right rightMember leftNamed rightNamed
    rw [decide_eq_true_eq] at leftNamed rightNamed
    exact distinct.longs left leftMember right rightMember
      (String.toList_inj.1 (leftNamed.trans rightNamed.symm))

theorem AreDistinct.find?_letter (distinct : AreDistinct accepted) (letter : Char)
    (option : OptionName) :
    (accepted.find? fun option => option.letter = some letter) = some option ↔
      option ∈ accepted ∧ option.letter = some letter := by
  rw [find?_eq_some_iff_of_unique]
  · rw [decide_eq_true_eq]
  · intro left leftMember right rightMember leftNamed rightNamed
    rw [decide_eq_true_eq] at leftNamed rightNamed
    exact distinct.letters left leftMember right rightMember
      (Option.isSome_of_eq_some leftNamed) (leftNamed.trans rightNamed.symm)

variable {given all : Given} {rest : List Text}

theorem readFrom_ofText_long
    {argument name : Text} {value : Option Text}
    (form : ArgumentForm.ofText argument = .long name value) :
    readFrom accepted given none (argument :: rest) =
      (readLong accepted given name value).bind fun taken =>
        readFrom accepted taken.1 taken.2 rest := by
  simp only [readFrom, form]
  rfl

theorem readFrom_ofText_short
    {argument text : Text} {letter : Char}
    (form : ArgumentForm.ofText argument = .short letter text) :
    readFrom accepted given none (argument :: rest) =
      (readShort accepted given letter text).bind fun taken =>
        readFrom accepted taken.1 taken.2 rest := by
  simp only [readFrom, form]
  rfl

theorem readFrom_value
    (option : OptionName) {value : Text} (plain : IsPlain value) :
    readFrom accepted given (some option) (value :: rest) =
      (giveValue option value given).bind fun after => readFrom accepted after none rest := by
  simp only [readFrom, ArgumentForm.ofText_plain plain]
  rfl

section Written

variable {option : OptionName}

theorem readFrom_longForm
    (distinct : AreDistinct accepted) (member : option ∈ accepted) :
    readFrom accepted given none (option.longForm :: rest) =
      (readLong accepted given option.long.toList none).bind fun taken =>
        readFrom accepted taken.1 taken.2 rest := by
  obtain ⟨nonempty, noEquals⟩ := distinct.named option member
  exact readFrom_ofText_long (ArgumentForm.ofText_long nonempty noEquals)

theorem readFrom_longForm_value
    (distinct : AreDistinct accepted) (member : option ∈ accepted) (value : Text) :
    readFrom accepted given none ((option.longForm ++ '=' :: value) :: rest) =
      (readLong accepted given option.long.toList (some value)).bind fun taken =>
        readFrom accepted taken.1 taken.2 rest :=
  readFrom_ofText_long
    (ArgumentForm.ofText_long_value value (distinct.named option member).2)

theorem readFrom_letter
    (distinct : AreDistinct accepted) (member : option ∈ accepted) {letter : Char}
    (named : option.letter = some letter) (text : Text) :
    readFrom accepted given none (('-' :: letter :: text) :: rest) =
      (readShort accepted given letter text).bind fun taken =>
        readFrom accepted taken.1 taken.2 rest := by
  have noDash := ne_of_apply_ne some (named ▸ distinct.noDash option member)
  exact readFrom_ofText_short (ArgumentForm.ofText_short text noDash)

/-- An option that is written once more than before is given. -/
theorem readFrom_words
    (distinct : AreDistinct accepted) {value : Text} {words : List Text}
    (member : option ∈ accepted) (written : Writing option value words)
    (new : option.long.toList ∉ given.map Prod.fst) :
    readFrom accepted given none (words ++ rest) =
      readFrom accepted (given ++ [(option.long.toList, value)]) none rest := by
  have long := (distinct.find?_long option.long.toList option).2 ⟨member, rfl⟩
  have found {letter : Char} (named : option.letter = some letter) :=
    (distinct.find?_letter letter option).2 ⟨member, named⟩
  have taken (admitted : option.Admits value) : giveValue option value given =
      .ok (given ++ [(option.long.toList, value)]) :=
    (giveValue_eq_ok_iff option value given _).2 ⟨admitted, new, rfl⟩
  cases written with
  | flag bare =>
      have once : give option.long.toList [] given = .ok (given ++ [(option.long.toList, [])]) :=
        (give_eq_ok_iff _ _ _ _).2 ⟨new, rfl⟩
      rw [List.singleton_append, readFrom_longForm distinct member]
      simp only [readLong, long, bare, once]
      rfl
  | apart admitted plain =>
      obtain ⟨form, valued, _⟩ := id admitted
      rw [List.cons_append, List.singleton_append, readFrom_longForm distinct member]
      simp only [readLong, long, valued]
      refine (readFrom_value option plain).trans ?_
      rw [taken admitted]
      rfl
  | joined admitted =>
      obtain ⟨form, valued, _⟩ := id admitted
      rw [List.singleton_append, readFrom_longForm_value distinct member]
      simp only [readLong, long, valued, taken admitted]
      rfl
  | letterApart named admitted plain =>
      rw [List.cons_append, List.singleton_append, readFrom_letter distinct member named]
      simp only [readShort, found named]
      refine (readFrom_value option plain).trans ?_
      rw [taken admitted]
      rfl
  | letterJoined named admitted direct =>
      rw [List.singleton_append, readFrom_letter distinct member named]
      simp only [readShort, found named]
      split
      · next shape => cases shape
      · next shape => exact absurd (List.cons.inj shape).1 direct
      · rw [taken admitted]
        rfl
  | letterEquals named admitted =>
      rw [List.singleton_append, readFrom_letter distinct member named]
      simp only [readShort, found named, taken admitted]
      rfl

end Written

theorem readFrom_of_spelled
    (distinct : AreDistinct accepted) {arguments : List Text} {further : Given}
    (spelled : Spelled accepted arguments further) (given : Given)
    (once : ((given ++ further).map Prod.fst).Nodup) :
    readFrom accepted given none arguments = .ok (given ++ further) := by
  induction spelled generalizing given with
  | nothing =>
      rw [List.append_nil]
      rfl
  | ended =>
      rw [List.append_nil]
      rfl
  | @option option value words rest further member written behind hypothesis =>
      have regrouped : given ++ (option.long.toList, value) :: further =
          (given ++ [(option.long.toList, value)]) ++ further := by simp
      have new : option.long.toList ∉ given.map Prod.fst := by
        rw [List.map_append, List.map_cons] at once
        intro before
        exact (List.nodup_append.1 once).2.2 _ before _ List.mem_cons_self rfl
      rw [readFrom_words distinct member written new, regrouped]
      exact hypothesis _ (regrouped ▸ once)

theorem except_bind_eq_ok_iff
    {error alpha beta : Type} {first : Except error alpha} {behind : alpha → Except error beta}
    {result : beta} :
    first.bind behind = .ok result ↔ ∃ middle, first = .ok middle ∧ behind middle = .ok result := by
  cases first with
  | error cause => simp [Except.bind]
  | ok middle => simp [Except.bind]

/-- An argument that gives an option leaves none waiting. -/
theorem given_of_done
    {reading : Except Stop Given} {after : Given} {next : Option OptionName}
    (taken : (reading.bind fun given => .ok (given, none)) = .ok (after, next)) :
    reading = .ok after ∧ next = none := by
  obtain ⟨middle, read, same⟩ := except_bind_eq_ok_iff.1 taken
  obtain ⟨rfl, rfl⟩ := Prod.mk.inj (Except.ok.inj same)
  exact ⟨read, rfl⟩

theorem readLong_none_cases
    (distinct : AreDistinct accepted) {name : Text} {after : Given} {next : Option OptionName}
    (taken : readLong accepted given name none = .ok (after, next)) :
    ∃ option ∈ accepted, option.long.toList = name ∧
      ((option.value = none ∧ give name [] given = .ok after ∧ next = none) ∨
        (after = given ∧ next = some option)) := by
  unfold readLong at taken
  split at taken
  · split at taken <;> cases taken
  · next option found =>
      obtain ⟨member, long⟩ := (distinct.find?_long name option).1 found
      refine ⟨option, member, long, ?_⟩
      split at taken
      · next absent => cases absent
      · obtain ⟨rfl, rfl⟩ := Prod.mk.inj (Except.ok.inj taken)
        exact Or.inr ⟨rfl, rfl⟩
      · next bare _ => exact Or.inl ⟨bare, given_of_done taken⟩
      · next absent => cases absent

theorem readLong_some_cases
    (distinct : AreDistinct accepted) {name value : Text} {after : Given}
    {next : Option OptionName}
    (taken : readLong accepted given name (some value) = .ok (after, next)) :
    ∃ option ∈ accepted, option.long.toList = name ∧
      giveValue option value given = .ok after ∧ next = none := by
  unfold readLong at taken
  split at taken
  · split at taken <;> cases taken
  · next option found =>
      obtain ⟨member, long⟩ := (distinct.find?_long name option).1 found
      refine ⟨option, member, long, ?_⟩
      split at taken
      · next same =>
          obtain rfl := Option.some.inj same
          exact given_of_done taken
      · next absent => cases absent
      · next absent => cases absent
      · cases taken

theorem readShort_cases
    (distinct : AreDistinct accepted) {letter : Char} {text : Text} {after : Given}
    {next : Option OptionName}
    (taken : readShort accepted given letter text = .ok (after, next)) :
    ∃ option ∈ accepted, option.letter = some letter ∧
      ((text = [] ∧ after = given ∧ next = some option) ∨
        (∃ value, text = '=' :: value ∧ giveValue option value given = .ok after ∧ next = none) ∨
        (∃ first rest, text = first :: rest ∧ first ≠ '=' ∧
          giveValue option text given = .ok after ∧ next = none)) := by
  unfold readShort at taken
  split at taken
  · split at taken <;> cases taken
  · next option found =>
      obtain ⟨member, named⟩ := (distinct.find?_letter letter option).1 found
      refine ⟨option, member, named, ?_⟩
      split at taken
      · obtain ⟨rfl, rfl⟩ := Prod.mk.inj (Except.ok.inj taken)
        exact Or.inl ⟨rfl, rfl, rfl⟩
      · next value => exact Or.inr (Or.inl ⟨value, rfl, given_of_done taken⟩)
      · next nonempty noEquals =>
          cases text with
          | nil => exact absurd rfl nonempty
          | cons first rest =>
              refine Or.inr (Or.inr ⟨first, rest, rfl, ?_, given_of_done taken⟩)
              rintro rfl
              exact noEquals rest rfl

/-- An option that waits takes the next argument as its value. -/
theorem readFrom_waiting_cases
    {option : OptionName} {arguments : List Text}
    (read : readFrom accepted given (some option) arguments = .ok all) :
    ∃ value rest, arguments = value :: rest ∧ IsPlain value ∧ option.Admits value ∧
      option.long.toList ∉ given.map Prod.fst ∧
        readFrom accepted (given ++ [(option.long.toList, value)]) none rest = .ok all := by
  cases arguments with
  | nil => cases read
  | cons argument rest =>
      by_cases plain : IsPlain argument
      · rw [readFrom_value option plain] at read
        obtain ⟨after, taken, onward⟩ := except_bind_eq_ok_iff.1 read
        obtain ⟨admitted, new, rfl⟩ := (giveValue_eq_ok_iff option argument given after).1 taken
        exact ⟨argument, rest, rfl, plain, admitted, new, onward⟩
      · cases form : ArgumentForm.ofText argument with
        | plain text => exact absurd (ArgumentForm.isPlain_of_ofText form) plain
        | _ =>
            simp only [readFrom, form] at read
            cases read

/-- An argument that is read where an option is due ends the options, gives one, or begins one whose
value follows. -/
theorem readFrom_none_cases
    (distinct : AreDistinct accepted) {argument : Text}
    (read : readFrom accepted given none (argument :: rest) = .ok all) :
    (argument = ['-', '-'] ∧ rest = [] ∧ all = given) ∨
      ∃ option ∈ accepted,
        (∃ value, Writing option value [argument] ∧ option.long.toList ∉ given.map Prod.fst ∧
          readFrom accepted (given ++ [(option.long.toList, value)]) none rest = .ok all) ∨
        ((∀ value, option.Admits value → IsPlain value → Writing option value [argument, value]) ∧
          readFrom accepted given (some option) rest = .ok all) := by
  obtain ⟨form, rfl⟩ | ⟨name, form, rfl⟩ | ⟨name, value, form, rfl⟩ | ⟨letter, text, form, rfl⟩ |
      ⟨form, _⟩ := ArgumentForm.ofText_cases argument
  · cases rest with
    | nil => exact Or.inl ⟨rfl, rfl, (Except.ok.inj read).symm⟩
    | cons text others => cases read
  · rw [readFrom_ofText_long form] at read
    obtain ⟨⟨after, next⟩, taken, onward⟩ := except_bind_eq_ok_iff.1 read
    obtain ⟨option, member, rfl, ⟨bare, once, rfl⟩ | ⟨rfl, rfl⟩⟩ :=
      readLong_none_cases distinct taken
    · obtain ⟨new, rfl⟩ := (give_eq_ok_iff ..).1 once
      exact Or.inr ⟨option, member, Or.inl ⟨[], .flag bare, new, onward⟩⟩
    · exact Or.inr ⟨option, member, Or.inr ⟨fun value => .apart, onward⟩⟩
  · rw [readFrom_ofText_long form] at read
    obtain ⟨⟨after, next⟩, taken, onward⟩ := except_bind_eq_ok_iff.1 read
    obtain ⟨option, member, rfl, once, rfl⟩ := readLong_some_cases distinct taken
    obtain ⟨admitted, new, rfl⟩ := (giveValue_eq_ok_iff ..).1 once
    exact Or.inr ⟨option, member, Or.inl ⟨value, .joined admitted, new, onward⟩⟩
  · rw [readFrom_ofText_short form] at read
    obtain ⟨⟨after, next⟩, taken, onward⟩ := except_bind_eq_ok_iff.1 read
    obtain ⟨option, member, named, ⟨rfl, rfl, rfl⟩ | ⟨value, rfl, once, rfl⟩ |
        ⟨first, behind, rfl, direct, once, rfl⟩⟩ := readShort_cases distinct taken
    · exact Or.inr ⟨option, member, Or.inr ⟨fun value => .letterApart named, onward⟩⟩
    · obtain ⟨admitted, new, rfl⟩ := (giveValue_eq_ok_iff ..).1 once
      exact Or.inr ⟨option, member, Or.inl ⟨value, .letterEquals named admitted, new, onward⟩⟩
    · obtain ⟨admitted, new, rfl⟩ := (giveValue_eq_ok_iff ..).1 once
      exact Or.inr
        ⟨option, member, Or.inl ⟨_, .letterJoined named admitted direct, new, onward⟩⟩
  · simp only [readFrom, form] at read
    cases read

theorem spelled_of_readFrom
    (distinct : AreDistinct accepted) (arguments : List Text) (given : Given)
    (read : readFrom accepted given none arguments = .ok all)
    (once : (given.map Prod.fst).Nodup) :
    ∃ further, Spelled accepted arguments further ∧ all = given ++ further ∧
      (all.map Prod.fst).Nodup := by
  have again {option : OptionName} (value : Text)
      (new : option.long.toList ∉ given.map Prod.fst) :
      ((given ++ [(option.long.toList, value)]).map Prod.fst).Nodup := by
    rw [List.map_append, List.map_singleton, ← List.concat_eq_append]
    exact once.concat new
  cases arguments with
  | nil =>
      obtain rfl := Except.ok.inj read
      exact ⟨[], .nothing, (List.append_nil _).symm, once⟩
  | cons argument rest =>
      obtain ⟨rfl, rfl, rfl⟩ | ⟨option, member, ⟨value, written, new, onward⟩ | ⟨begun, waiting⟩⟩ :=
        readFrom_none_cases distinct read
      · exact ⟨[], .ended, (List.append_nil _).symm, once⟩
      · obtain ⟨further, spelled, rfl, distinctAll⟩ :=
          spelled_of_readFrom distinct rest _ onward (again value new)
        exact ⟨(option.long.toList, value) :: further, .option member written spelled, by simp,
          distinctAll⟩
      · obtain ⟨value, others, rfl, plain, admitted, new, onward⟩ :=
          readFrom_waiting_cases waiting
        obtain ⟨further, spelled, rfl, distinctAll⟩ :=
          spelled_of_readFrom distinct others _ onward (again value new)
        exact ⟨(option.long.toList, value) :: further,
          .option member (begun value admitted plain) spelled, by simp, distinctAll⟩
termination_by arguments.length

/-- The options that are read from arguments are those that are written in them, if none is written
twice. -/
theorem readArguments_eq_ok_iff
    (distinct : AreDistinct accepted) (arguments : List Text) (given : Given) :
    readArguments accepted arguments = .ok given ↔
      Spelled accepted arguments given ∧ (given.map Prod.fst).Nodup := by
  constructor
  · intro read
    obtain ⟨further, spelled, rfl, once⟩ :=
      spelled_of_readFrom distinct arguments [] read List.nodup_nil
    exact ⟨spelled, once⟩
  · intro written
    exact readFrom_of_spelled distinct written.1 [] written.2

end Accepted

end Applesoft.Command
