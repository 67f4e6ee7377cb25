import Applesoft.Proofs.Collisions
import Applesoft.Proofs.RoundTrip

/-!
What a recorded name looks like. Names are read by one class of bytes, in which a type suffix counts
as much as a letter does. So a name is recorded in one piece for as long as bytes of the class
follow each other, and only an array mark is sure to end it.

The main statement compares this with the names of the language, which end with their type suffix.
Every recorded name begins with a letter and has an array mark at its end or nowhere; it is a name
of the language exactly if no type suffix in it has another byte of the class behind it. Where all
recorded names are, references that stand next to each other are told apart, and the names of a
bucket are confused by the interpreter.
-/

namespace Applesoft

namespace Variable

def isTypeSuffix (byte : UInt8) : Bool :=
  byte = Punctuation.dollar || byte = Punctuation.percent

def isStemByte (byte : UInt8) : Bool :=
  isUpper byte || isDigit byte

theorem isNameByte_eq (byte : UInt8) :
    isNameByte byte = (isStemByte byte || isTypeSuffix byte) := by
  simp only [isNameByte, isStemByte, isTypeSuffix, Bool.or_assoc]

theorem isStemByte_of_isUpper {byte : UInt8} (upper : isUpper byte = true) :
    isStemByte byte = true := by
  rw [isStemByte, upper, Bool.true_or]

theorem isNameByte_of_isStemByte {byte : UInt8} (stem : isStemByte byte = true) :
    isNameByte byte = true := by
  rw [isNameByte_eq, stem, Bool.true_or]

theorem isTypeSuffix_eq_false_of_isStemByte {byte : UInt8} (stem : isStemByte byte = true) :
    isTypeSuffix byte = false := by
  rw [isTypeSuffix, Bool.or_eq_false_iff, decide_eq_false_iff_not, decide_eq_false_iff_not]
  constructor
  · rintro rfl
    exact absurd stem (by decide)
  · rintro rfl
    exact absurd stem (by decide)

theorem ascii_of_isStemByte {byte : UInt8} (stem : isStemByte byte = true) :
    byte.toNat ≤ 127 := by
  simp only [isStemByte, isUpper, isDigit, Bool.or_eq_true, Bool.and_eq_true, decide_eq_true_eq,
    UInt8.le_iff_toNat_le, UInt8.reduceToNat] at stem
  omega

/-- What stands behind the name of an array. -/
def arrayMark (isArray : Bool) : Bytes :=
  if isArray then [Punctuation.leftParenthesis] else []

theorem arrayMark_injective : Function.Injective arrayMark := by
  intro left right same
  cases left <;> cases right <;> first | rfl | cases same

theorem eq_of_mem_arrayMark
    {isArray : Bool} {byte : UInt8} (member : byte ∈ arrayMark isArray) :
    byte = Punctuation.leftParenthesis := by
  cases isArray with
  | false => cases member
  | true => exact List.mem_singleton.1 member

theorem isNameByte_eq_false_of_mem_arrayMark
    {isArray : Bool} {byte : UInt8} (member : byte ∈ arrayMark isArray) :
    isNameByte byte = false := by
  rw [eq_of_mem_arrayMark member]
  decide

/-- What is read as one name: bytes of names that begin with a letter, and an array mark or none. -/
@[ext]
structure Run where
  body : Bytes
  isArray : Bool
  letter : body.head?.any isUpper = true
  named : ∀ byte ∈ body, isNameByte byte = true

namespace Run

def bytes (run : Run) : Bytes :=
  run.body ++ arrayMark run.isArray

def name (run : Run) : Text :=
  run.bytes.map toCharacter

/-- Whether a type suffix in a run has another byte of a name behind it. -/
def goesOn (run : Run) : Bool :=
  run.body.dropLast.any isTypeSuffix

theorem body_ne_nil (run : Run) : run.body ≠ [] := by
  intro empty
  have letter := run.letter
  rw [empty] at letter
  cases letter

theorem takeWhile_bytes (run : Run) : run.bytes.takeWhile isNameByte = run.body :=
  takeWhile_append_of_head? run.named fun _ first =>
    isNameByte_eq_false_of_mem_arrayMark (List.mem_of_mem_head? first)

theorem name_injective : Function.Injective name := by
  intro left right same
  have bytes : left.bytes = right.bytes := toCharacter_injective.list_map same
  have body : left.body = right.body := by
    rw [← left.takeWhile_bytes, bytes, right.takeWhile_bytes]
  rw [Run.bytes, Run.bytes, body] at bytes
  exact Run.ext body (arrayMark_injective (List.append_cancel_left bytes))

end Run

theorem exists_run_of_mem_nameOfRun
    {run : Bytes} {array : Bool} {name : Text}
    (named : ∀ byte ∈ run, isNameByte byte = true) (member : name ∈ nameOfRun run array) :
    ∃ recorded : Run, recorded.name = name := by
  unfold nameOfRun at member
  split at member
  · cases member
  · next first rest reversed =>
      split at member
      · next letter =>
          obtain rfl := List.mem_singleton.1 member
          have allNamed : ∀ byte ∈ first :: rest, isNameByte byte = true := by
            rw [← reversed]
            simpa using named
          refine ⟨⟨first :: rest, array, letter, allNamed⟩, ?_⟩
          rw [Run.name, Run.bytes, List.map_append]
          cases array <;> rfl
      · cases member

/-- Whatever is read as a name is a run, with the bytes that have been read before. -/
theorem exists_run_of_mem_namesFrom
    {run : Bytes} {lexemes : List Lexeme} {name : Text}
    (named : ∀ byte ∈ run, isNameByte byte = true) (member : name ∈ namesFrom run lexemes) :
    ∃ recorded : Run, recorded.name = name := by
  have anew : ∀ byte ∈ ([] : Bytes), isNameByte byte = true := by simp
  induction lexemes generalizing run with
  | nil => exact exists_run_of_mem_nameOfRun named member
  | cons lexeme rest hypothesis =>
      cases lexeme with
      | code byte =>
          rw [namesFrom] at member
          split at member
          · next name => exact hypothesis (List.forall_mem_cons.2 ⟨name, named⟩) member
          · rcases List.mem_append.1 member with finished | later
            · exact exists_run_of_mem_nameOfRun named finished
            · exact hypothesis anew later
      | literal contents | remark contents =>
          rcases List.mem_append.1 member with finished | later
          · exact exists_run_of_mem_nameOfRun named finished
          · exact hypothesis anew later

/-- Whether a lexeme goes on with a name that has been begun. -/
def isNamed : Lexeme → Bool
  | .code byte => isNameByte byte
  | _ => false

/-- Whether some lexemes go on with no name: neither a byte of a name nor an array mark is the first
of them. -/
def EndsNames (lexemes : List Lexeme) : Prop :=
  ∀ lexeme ∈ lexemes.head?, isNamed lexeme = false ∧ lexeme ≠ .code Punctuation.leftParenthesis

/-- Whether what lies between some lexemes and others is read apart from them: no name is under way
in front, and none goes on behind. -/
structure StandsApart (before after : List Lexeme) : Prop where
  before : ∀ lexeme ∈ before.getLast?, isNamed lexeme = false
  after : EndsNames after

theorem namesFrom_append
    {run : Bytes} {before : List Lexeme} (rest : List Lexeme)
    (ends : ∀ lexeme ∈ before.getLast?, isNamed lexeme = false)
    (started : before = [] → run = []) :
    namesFrom run (before ++ rest) = namesFrom run before ++ names rest := by
  induction before generalizing run with
  | nil =>
      rw [started rfl]
      rfl
  | cons lexeme others hypothesis =>
      have endsLater : ∀ lexeme ∈ others.getLast?, isNamed lexeme = false := by
        cases others with
        | nil => simp
        | cons next further => simpa using ends
      have anew : namesFrom [] (others ++ rest) = namesFrom [] others ++ names rest :=
        hypothesis endsLater fun _ => rfl
      cases lexeme with
      | code byte =>
          rw [List.cons_append, namesFrom, namesFrom]
          split
          · next name =>
              refine hypothesis endsLater fun last => ?_
              subst last
              have alone : isNameByte byte = false := ends _ rfl
              rw [name] at alone
              contradiction
          · rw [anew, List.append_assoc]
      | literal contents | remark contents =>
          rw [List.cons_append, namesFrom, namesFrom, anew, List.append_assoc]

theorem namesFrom_named
    {run bytes : Bytes} (rest : List Lexeme) (named : ∀ byte ∈ bytes, isNameByte byte = true) :
    namesFrom run (bytes.map .code ++ rest) = namesFrom (bytes.reverse ++ run) rest := by
  induction bytes generalizing run with
  | nil => rfl
  | cons byte others hypothesis =>
      rw [List.forall_mem_cons] at named
      rw [List.map_cons, List.cons_append, namesFrom, if_pos named.1, hypothesis named.2,
        List.reverse_cons, List.append_assoc]
      rfl

theorem namesFrom_of_ended
    {run : Bytes} {rest : List Lexeme} (ends : EndsNames rest) :
    namesFrom run rest = nameOfRun run false ++ names rest := by
  cases rest with
  | nil => exact (List.append_nil _).symm
  | cons lexeme others =>
      obtain ⟨unnamed, noMark⟩ := ends lexeme rfl
      cases lexeme with
      | code byte =>
          have other : byte ≠ Punctuation.leftParenthesis := fun same => noMark (same ▸ rfl)
          have unnamedByte : ¬ isNameByte byte = true := by
            rw [isNamed] at unnamed
            simp [unnamed]
          rw [names, namesFrom, namesFrom, if_neg unnamedByte, if_neg unnamedByte,
            decide_eq_false other]
          rfl
      | literal contents | remark contents => rfl

namespace Run

def lexemes (run : Run) : List Lexeme :=
  run.bytes.map .code

theorem nameOfRun_reverse (run : Run) :
    nameOfRun run.body.reverse run.isArray = [run.name] := by
  have letter := run.letter
  rw [nameOfRun, List.reverse_reverse, name, bytes, List.map_append]
  cases shape : run.body with
  | nil => exact absurd shape run.body_ne_nil
  | cons first rest =>
      rw [shape] at letter
      change isUpper first = true at letter
      dsimp only
      rw [if_pos letter]
      cases run.isArray <;> rfl

theorem names_append
    (run : Run) {rest : List Lexeme} (ends : run.isArray = true ∨ EndsNames rest) :
    names (run.lexemes ++ rest) = run.name :: names rest := by
  rw [names, lexemes, bytes, List.map_append, List.append_assoc, namesFrom_named _ run.named,
    List.append_nil, ← List.singleton_append, ← nameOfRun_reverse]
  cases array : run.isArray with
  | true => rfl
  | false =>
      rcases ends with isArray | ends
      · rw [array] at isArray
        cases isArray
      · exact namesFrom_of_ended ends

/-- A run with another one behind it, read as one. -/
def append (left right : Run) : Run where
  body := left.body ++ right.body
  isArray := right.isArray
  letter := by
    rw [List.head?_append_of_ne_nil _ left.body_ne_nil]
    exact left.letter
  named := by
    intro byte member
    exact (List.mem_append.1 member).elim (left.named byte) (right.named byte)

/-- The runs that are read where some follow each other: one goes on into the next, unless it is
an array. -/
def merge : List Run → List Run
  | [] => []
  | run :: rest =>
      match merge rest with
      | [] => [run]
      | next :: others =>
          if run.isArray then run :: next :: others else run.append next :: others

/-- Whether runs are told apart: each that has another one behind it is an array. -/
def AreApart (runs : List Run) : Prop :=
  runs.IsChain fun left _ => left.isArray = true

theorem merge_eq_nil_iff (runs : List Run) : merge runs = [] ↔ runs = [] := by
  cases runs with
  | nil => simp [merge]
  | cons run rest =>
      rw [merge]
      split
      · simp
      · split <;> simp

theorem flatMap_lexemes_merge (runs : List Run) :
    (merge runs).flatMap lexemes = runs.flatMap lexemes := by
  induction runs with
  | nil => rfl
  | cons run rest hypothesis =>
      rw [merge, List.flatMap_cons, ← hypothesis]
      split
      · next last => rw [last]; simp
      · next next others shape =>
          rw [shape]
          split
          · rfl
          · next single =>
              rw [Bool.not_eq_true] at single
              simp [lexemes, bytes, append, arrayMark, single]

theorem areApart_merge (runs : List Run) : AreApart (merge runs) := by
  induction runs with
  | nil => exact .nil
  | cons run rest hypothesis =>
      rw [merge]
      split
      · exact .singleton run
      · next next others shape =>
          rw [shape] at hypothesis
          split
          · next array => exact .cons_cons array hypothesis
          · cases others with
            | nil => exact .singleton _
            | cons further beyond =>
                obtain ⟨array, chain⟩ := List.isChain_cons_cons.1 hypothesis
                exact .cons_cons array chain

theorem names_flatMap_lexemes
    {runs : List Run} {after : List Lexeme} (apart : AreApart runs) (ends : EndsNames after) :
    names (runs.flatMap lexemes ++ after) = runs.map name ++ names after := by
  induction runs with
  | nil => rfl
  | cons run rest hypothesis =>
      rw [List.flatMap_cons, List.append_assoc, names_append, List.map_cons, List.cons_append]
      · exact congrArg _ (hypothesis apart.tail)
      · cases rest with
        | nil => exact .inr ends
        | cons next others => exact .inl (List.isChain_cons_cons.1 apart).1

/-- Runs that follow each other are read as their merged ones, between lexemes that they stand apart
from. -/
theorem names_of_adjacent
    {before after : List Lexeme} (runs : List Run) (apart : StandsApart before after) :
    names (before ++ runs.flatMap lexemes ++ after) =
      names before ++ (merge runs).map name ++ names after := by
  rw [List.append_assoc, names, namesFrom_append _ apart.before fun _ => rfl,
    ← flatMap_lexemes_merge, names_flatMap_lexemes (areApart_merge runs) apart.after,
    List.append_assoc]
  rfl

/-- Whether no letter or digit can go on with a run: it ends with a type suffix or an array
mark. -/
def isClosed (run : Run) : Bool :=
  run.isArray || run.body.getLast?.any isTypeSuffix

theorem goesOn_append
    {left : Run} (right : Run) (closed : left.isClosed = true) (single : left.isArray = false) :
    (left.append right).goesOn = true := by
  rw [isClosed, single, Bool.false_or, Option.any_eq_true] at closed
  obtain ⟨suffix, last, isSuffix⟩ := closed
  have body : (left.append right).body.dropLast = left.body ++ right.body.dropLast :=
    List.dropLast_append_of_ne_nil right.body_ne_nil
  rw [goesOn, body, List.any_eq_true]
  exact ⟨suffix, List.mem_append_left _ (List.mem_of_getLast? last), isSuffix⟩

/-- Where closed runs follow each other, they are told apart or one of them is seen to go on. -/
theorem merge_eq_self_or_exists_goesOn
    {runs : List Run} (closed : runs.IsChain fun left _ => left.isClosed = true) :
    merge runs = runs ∨ ∃ run ∈ merge runs, run.goesOn = true := by
  induction runs with
  | nil => exact .inl rfl
  | cons run rest hypothesis =>
      rw [merge]
      split
      · next last =>
          rw [merge_eq_nil_iff] at last
          rw [last]
          exact .inl rfl
      · next next others shape =>
          have later := hypothesis closed.tail
          rw [shape] at later
          split
          · rcases later with same | ⟨seen, member, goes⟩
            · exact .inl (congrArg _ same)
            · exact .inr ⟨seen, List.mem_cons_of_mem _ member, goes⟩
          · next single =>
              have nonempty : rest ≠ [] := by
                rw [ne_eq, ← merge_eq_nil_iff, shape]
                exact List.cons_ne_nil _ _
              obtain ⟨second, further, rfl⟩ := List.exists_cons_of_ne_nil nonempty
              have runClosed := (List.isChain_cons_cons.1 closed).1
              rw [Bool.not_eq_true] at single
              exact .inr ⟨_, List.mem_cons_self, goesOn_append next runClosed single⟩

end Run

inductive Kind where
  | real
  | string
  | integer
  deriving DecidableEq, Repr

def Kind.suffix : Kind → Bytes
  | .real => []
  | .string => [Punctuation.dollar]
  | .integer => [Punctuation.percent]

theorem Kind.suffix_injective : Function.Injective Kind.suffix := by
  intro left right same
  cases left <;> cases right <;> first | rfl | cases same

theorem Kind.isTypeSuffix_of_mem_suffix
    {kind : Kind} {byte : UInt8} (member : byte ∈ kind.suffix) :
    isTypeSuffix byte = true := by
  cases kind with
  | real => cases member
  | string | integer =>
      obtain rfl := List.mem_singleton.1 member
      decide

theorem Kind.exists_suffix_eq {byte : UInt8} (suffix : isTypeSuffix byte = true) :
    ∃ kind : Kind, kind.suffix = [byte] := by
  rw [isTypeSuffix, Bool.or_eq_true, decide_eq_true_eq, decide_eq_true_eq] at suffix
  rcases suffix with rfl | rfl
  · exact ⟨.string, rfl⟩
  · exact ⟨.integer, rfl⟩

/-- A variable as the language writes it: letters and digits that begin with a letter, at most one
type suffix, and at most one array mark. -/
@[ext]
structure Reference where
  stem : Bytes
  kind : Kind
  isArray : Bool
  letter : stem.head?.any isUpper = true
  stemmed : ∀ byte ∈ stem, isStemByte byte = true

namespace Reference

theorem stem_ne_nil (reference : Reference) : reference.stem ≠ [] := by
  intro empty
  have letter := reference.letter
  rw [empty] at letter
  cases letter

def run (reference : Reference) : Run where
  body := reference.stem ++ reference.kind.suffix
  isArray := reference.isArray
  letter := by
    rw [List.head?_append_of_ne_nil _ reference.stem_ne_nil]
    exact reference.letter
  named := by
    intro byte member
    rcases List.mem_append.1 member with stem | suffix
    · exact isNameByte_of_isStemByte (reference.stemmed byte stem)
    · rw [isNameByte_eq, Kind.isTypeSuffix_of_mem_suffix suffix, Bool.or_true]

def name (reference : Reference) : Text :=
  reference.run.name

theorem run_injective : Function.Injective run := by
  intro left right same
  have stemOf (reference : Reference) :
      reference.run.body.takeWhile isStemByte = reference.stem := by
    refine takeWhile_append_of_head? reference.stemmed fun byte first => ?_
    by_contra stem
    rw [Bool.not_eq_false] at stem
    have suffix := Kind.isTypeSuffix_of_mem_suffix (List.mem_of_mem_head? first)
    rw [isTypeSuffix_eq_false_of_isStemByte stem] at suffix
    contradiction
  have stem : left.stem = right.stem := by rw [← stemOf left, same, stemOf right]
  have body : left.stem ++ left.kind.suffix = right.stem ++ right.kind.suffix :=
    congrArg Run.body same
  rw [stem] at body
  exact Reference.ext stem (Kind.suffix_injective (List.append_cancel_left body))
    (congrArg Run.isArray same)

theorem name_injective : Function.Injective name :=
  Run.name_injective.comp run_injective

theorem goesOn_run (reference : Reference) : reference.run.goesOn = false := by
  have front : reference.run.body.dropLast ⊆ reference.stem := by
    change (reference.stem ++ reference.kind.suffix).dropLast ⊆ reference.stem
    cases reference.kind with
    | real =>
        rw [Kind.suffix, List.append_nil]
        exact List.dropLast_subset _
    | string | integer =>
        rw [Kind.suffix, List.dropLast_concat]
        exact List.Subset.refl _
  rw [Run.goesOn, List.any_eq_false]
  intro byte member
  rw [Bool.not_eq_true]
  exact isTypeSuffix_eq_false_of_isStemByte (reference.stemmed byte (front member))

/-- A run is a reference of the language if and only if no type suffix in it has anything but an
array mark behind it. -/
theorem exists_run_eq_iff (recorded : Run) :
    (∃ reference : Reference, reference.run = recorded) ↔ recorded.goesOn = false := by
  constructor
  · rintro ⟨reference, rfl⟩
    exact reference.goesOn_run
  · intro single
    obtain ⟨front, last, shape⟩ :=
      (List.eq_nil_or_concat' recorded.body).resolve_left recorded.body_ne_nil
    have letter := recorded.letter
    have named := recorded.named
    rw [Run.goesOn, shape, List.dropLast_concat, List.any_eq_false] at single
    rw [shape] at letter named
    have stemmed : ∀ byte ∈ front, isStemByte byte = true := by
      intro byte member
      have name := named byte (List.mem_append_left _ member)
      rwa [isNameByte_eq, Bool.eq_false_iff.2 (single byte member), Bool.or_false] at name
    have lastName := named last List.mem_concat_self
    rw [isNameByte_eq, Bool.or_eq_true] at lastName
    rcases lastName with stem | suffix
    · have allStemmed : ∀ byte ∈ front ++ [last], isStemByte byte = true := by
        intro byte member
        rcases List.mem_append.1 member with inFront | isLast
        · exact stemmed byte inFront
        · rwa [List.mem_singleton.1 isLast]
      refine ⟨⟨front ++ [last], .real, recorded.isArray, letter, allStemmed⟩, ?_⟩
      exact Run.ext ((List.append_nil _).trans shape.symm) rfl
    · have nonempty : front ≠ [] := by
        rintro rfl
        have upper : isUpper last = true := letter
        rw [isTypeSuffix_eq_false_of_isStemByte (isStemByte_of_isUpper upper)] at suffix
        contradiction
      rw [List.head?_append_of_ne_nil _ nonempty] at letter
      obtain ⟨kind, same⟩ := Kind.exists_suffix_eq suffix
      refine ⟨⟨front, kind, recorded.isArray, letter, stemmed⟩, ?_⟩
      exact Run.ext (by rw [shape, ← same]; rfl) rfl

/-- What the interpreter sees of a reference: two characters of its stem, its kind, and whether it
is an array. -/
def seen (reference : Reference) : Reference where
  stem := reference.stem.take 2
  kind := reference.kind
  isArray := reference.isArray
  letter := by
    rw [List.head?_take]
    exact reference.letter
  stemmed := fun byte member => reference.stemmed byte (List.mem_of_mem_take member)

def IsConfused (left right : Reference) : Prop :=
  left.seen = right.seen

end Reference

theorem peel_append
    {taken : Char → Bool} {text ending : Text} (nonempty : text ≠ [])
    (kept : ∀ character ∈ text, taken character = false)
    (all : ∀ character ∈ ending, taken character = true) (short : ending.length ≤ 1) :
    peel taken (text ++ ending) = (text, ending) := by
  cases ending with
  | nil =>
      obtain ⟨front, last, rfl⟩ := (List.eq_nil_or_concat' text).resolve_left nonempty
      have keptLast := kept last List.mem_concat_self
      simp [peel, keptLast]
  | cons last rest =>
      obtain rfl : rest = [] := by simpa using short
      have takenLast := all last List.mem_cons_self
      simp [peel, takenLast, nonempty]

theorem ascii_map_toCharacter
    {bytes : Bytes} (ascii : ∀ byte ∈ bytes, byte.toNat ≤ 127) :
    ∀ character ∈ bytes.map toCharacter, character.toNat ≤ 127 := by
  rw [List.forall_mem_map]
  intro byte member
  rw [toNat_toCharacter]
  exact ascii byte member

theorem significant_of_ascii {text : Text} (ascii : ∀ character ∈ text, character.toNat ≤ 127) :
    significant text = text.take 2 := by
  cases text with
  | nil => rfl
  | cons first rest =>
      rw [significant, if_pos ((Utf8.utf8Size_eq_one_iff first).2 (ascii first List.mem_cons_self))]
      rfl

theorem peel_arrayMark (run : Run) :
    peel (· = '(') run.name =
      (run.body.map toCharacter, (arrayMark run.isArray).map toCharacter) := by
  have isMark (byte : UInt8) : toCharacter byte = '(' ↔ byte = Punctuation.leftParenthesis :=
    toCharacter_eq_iff byte rfl
  rw [Run.name, Run.bytes, List.map_append]
  refine peel_append (by simpa using run.body_ne_nil) ?_ ?_ ?_
  · rw [List.forall_mem_map]
    intro byte member
    rw [decide_eq_false_iff_not, isMark]
    rintro rfl
    exact absurd (run.named _ member) (by decide)
  · rw [List.forall_mem_map]
    intro byte member
    rw [decide_eq_true_eq, isMark]
    exact eq_of_mem_arrayMark member
  · cases run.isArray <;> decide

theorem peel_suffix (reference : Reference) :
    peel (fun last => last = '$' || last = '%') (reference.run.body.map toCharacter) =
      (reference.stem.map toCharacter, reference.kind.suffix.map toCharacter) := by
  have isSuffix (byte : UInt8) :
      (decide (toCharacter byte = '$') || decide (toCharacter byte = '%')) =
        isTypeSuffix byte := by
    have dollar : toCharacter byte = '$' ↔ byte = Punctuation.dollar :=
      toCharacter_eq_iff byte rfl
    have percent : toCharacter byte = '%' ↔ byte = Punctuation.percent :=
      toCharacter_eq_iff byte rfl
    simp only [dollar, percent, isTypeSuffix]
  rw [Reference.run, List.map_append]
  refine peel_append (by simpa using reference.stem_ne_nil) ?_ ?_ ?_
  · rw [List.forall_mem_map]
    intro byte member
    rw [isSuffix]
    exact isTypeSuffix_eq_false_of_isStemByte (reference.stemmed byte member)
  · rw [List.forall_mem_map]
    intro byte member
    rw [isSuffix]
    exact Kind.isTypeSuffix_of_mem_suffix member
  · cases reference.kind <;> decide

/-- The collision key of a reference is the name of what the interpreter sees of it. -/
theorem collisionKey_name (reference : Reference) :
    collisionKey reference.name = reference.seen.name := by
  have ascii : ∀ byte ∈ reference.stem, byte.toNat ≤ 127 :=
    fun byte member => ascii_of_isStemByte (reference.stemmed byte member)
  have spelled (shown : Reference) : shown.name = shown.stem.map toCharacter ++
      shown.kind.suffix.map toCharacter ++ (arrayMark shown.isArray).map toCharacter := by
    rw [← List.map_append, ← List.map_append]
    rfl
  simp only [collisionKey]
  rw [Reference.name, peel_arrayMark, peel_suffix,
    Utf8.length_encode_of_ascii (ascii_map_toCharacter ascii), List.length_map,
    significant_of_ascii (ascii_map_toCharacter ascii), ← List.map_take, ← Reference.name,
    spelled reference.seen]
  split
  · next short =>
      have whole : reference.seen.stem = reference.stem := List.take_of_length_le short
      rw [whole, spelled]
      rfl
  · rfl

theorem collisionKey_eq_iff (left right : Reference) :
    collisionKey left.name = collisionKey right.name ↔ left.IsConfused right := by
  rw [collisionKey_name, collisionKey_name]
  exact Reference.name_injective.eq_iff

end Variable

namespace Program

open Variable

/-- Whether the variables of a program are recorded as references of the language. -/
structure RecordsReferences (program : Program) : Prop where
  keys : ∀ name ∈ program.symbols.references.keys,
    ∃ reference : Reference, reference.name = name
  /-- References that stand next to each other are recorded one by one. -/
  adjacent : ∀ line ∈ program.lines, ∀ fragment ∈ line.lookedThrough,
    ∀ before after (references : List Reference),
      Lexeme.scan fragment.body =
        before ++ (references.map Reference.run).flatMap Run.lexemes ++ after →
      StandsApart before after →
      (references.map Reference.run).IsChain (fun left _ => left.isClosed = true) →
      line.namesOf fragment = names before ++ references.map Reference.name ++ names after
  /-- The names of a bucket are confused by the interpreter. -/
  buckets : ∀ key names, program.symbols.collisions.get? key = some names →
    ∀ left ∈ names, ∀ right ∈ names, ∃ first second : Reference,
      first.name = left ∧ second.name = right ∧ first.IsConfused second

theorem mem_keys_references_iff (image : Bytes) (name : Text) :
    name ∈ (decode image).symbols.references.keys ↔
      ∃ line ∈ (decode image).lines, ∃ fragment ∈ line.lookedThrough,
        name ∈ line.namesOf fragment := by
  rw [Symbols.symbols_eq_ofLog, Symbols.mem_keys_references_ofLog, Symbols.namesIn,
    entriesOf_name?_log]
  simp [occurrences]

theorem exists_lines_of_mem_namesOf
    {image : Bytes} {line : Line} {fragment : Fragment} {name : Text}
    (lineMember : line ∈ (decode image).lines) (looked : fragment ∈ line.lookedThrough)
    (member : name ∈ line.namesOf fragment) :
    ∃ lines, (decode image).symbols.references.get? name = some lines ∧ line.number ∈ lines := by
  have occurs : (line.number, name) ∈ (decode image).occurrences := by
    refine List.mem_flatMap.2 ⟨line, lineMember, List.mem_flatMap.2 ⟨fragment, looked, ?_⟩⟩
    exact List.mem_map.2 ⟨name, member, rfl⟩
  have under : line.number ∈ Symbols.linesUnder name (decode image).occurrences :=
    List.mem_map.2 ⟨_, List.mem_filter.2 ⟨occurs, decide_eq_true rfl⟩, rfl⟩
  rw [Symbols.get?_references, entriesOf_name?_log, Symbols.entered,
    if_neg (by simpa using List.ne_nil_of_mem under)]
  exact ⟨_, rfl, (mem_destutter_iff _ _).2 under⟩

theorem names_scan_body
    {image : Bytes} {line : Line} {fragment : Fragment}
    (lineMember : line ∈ (decode image).lines) (looked : fragment ∈ line.lookedThrough) :
    names (Lexeme.scan fragment.body) = line.namesOf fragment := by
  obtain ⟨record, _, rfl⟩ := List.mem_map.1 lineMember
  obtain ⟨placed, kind⟩ := List.mem_filter.1 looked
  exact Line.names_scan_body placed (of_decide_eq_true kind).1

theorem exists_run_of_mem_keys
    {image : Bytes} {name : Text} (member : name ∈ (decode image).symbols.references.keys) :
    ∃ run : Run, run.name = name := by
  obtain ⟨line, lineMember, fragment, looked, inFragment⟩ :=
    (mem_keys_references_iff image name).1 member
  rw [← names_scan_body lineMember looked, names] at inFragment
  exact exists_run_of_mem_namesFrom (by simp) inFragment

theorem namesOf_of_adjacent
    {image : Bytes} {line : Line} {fragment : Fragment} {before after : List Lexeme}
    {runs : List Run} (lineMember : line ∈ (decode image).lines)
    (looked : fragment ∈ line.lookedThrough)
    (shape : Lexeme.scan fragment.body = before ++ runs.flatMap Run.lexemes ++ after)
    (apart : StandsApart before after) :
    line.namesOf fragment = names before ++ (Run.merge runs).map Run.name ++ names after := by
  rw [← names_scan_body lineMember looked, shape, Run.names_of_adjacent runs apart]

/-- References that stand next to each other are recorded one by one if no recorded name goes on
behind a type suffix. -/
theorem namesOf_of_adjacent_references
    {image : Bytes} {line : Line} {fragment : Fragment} {before after : List Lexeme}
    {references : List Reference} (lineMember : line ∈ (decode image).lines)
    (looked : fragment ∈ line.lookedThrough)
    (single : ∀ run : Run, run.name ∈ (decode image).symbols.references.keys → run.goesOn = false)
    (shape : Lexeme.scan fragment.body =
      before ++ (references.map Reference.run).flatMap Run.lexemes ++ after)
    (apart : StandsApart before after)
    (closed : (references.map Reference.run).IsChain fun left _ => left.isClosed = true) :
    line.namesOf fragment = names before ++ references.map Reference.name ++ names after := by
  have recorded := namesOf_of_adjacent lineMember looked shape apart
  rcases Run.merge_eq_self_or_exists_goesOn closed with same | ⟨run, member, goes⟩
  · rw [recorded, same, List.map_map]
    rfl
  · have inFragment : run.name ∈ line.namesOf fragment := by
      rw [recorded]
      exact List.mem_append_left _
        (List.mem_append_right _ (List.mem_map.2 ⟨run, member, rfl⟩))
    have key := (mem_keys_references_iff image run.name).2
      ⟨line, lineMember, fragment, looked, inFragment⟩
    rw [single run key] at goes
    contradiction

theorem isConfused_of_mem_bucket
    {image : Bytes} {key : Text} {bucket : List Text} {first second : Reference}
    (found : (decode image).symbols.collisions.get? key = some bucket)
    (firstMember : first.name ∈ bucket) (secondMember : second.name ∈ bucket) :
    first.IsConfused second := by
  have consistent := Symbols.isConsistent_symbols (decode image)
  obtain ⟨firstKey, _⟩ := consistent.members key bucket found _ firstMember
  obtain ⟨secondKey, _⟩ := consistent.members key bucket found _ secondMember
  rw [← collisionKey_eq_iff, firstKey, secondKey]

/-- Every recorded name is a run of bytes of names that begins with a letter, and runs that follow
each other are recorded as one, up to the next array mark. Those names of a bucket that the language
has are confused by the interpreter. So all are recorded as the language has them if and only if no
recorded name goes on behind a type suffix. -/
theorem recordsReferences_iff (image : Bytes) :
    let program := decode image
    (∀ name ∈ program.symbols.references.keys, ∃ run : Run, run.name = name) ∧
      (∀ line ∈ program.lines, ∀ fragment ∈ line.lookedThrough,
        (∀ name ∈ line.namesOf fragment, ∃ lines,
          program.symbols.references.get? name = some lines ∧ line.number ∈ lines) ∧
        ∀ before after runs,
          Lexeme.scan fragment.body = before ++ runs.flatMap Run.lexemes ++ after →
          StandsApart before after →
          line.namesOf fragment =
            names before ++ (Run.merge runs).map Run.name ++ names after) ∧
      (∀ key bucket, program.symbols.collisions.get? key = some bucket →
        ∀ first second : Reference, first.name ∈ bucket → second.name ∈ bucket →
          first.IsConfused second) ∧
      (program.RecordsReferences ↔
        ∀ run : Run, run.name ∈ program.symbols.references.keys → run.goesOn = false) := by
  intro program
  refine ⟨fun name member => exists_run_of_mem_keys member, ?_, ?_, ?_, ?_⟩
  · intro line lineMember fragment looked
    refine ⟨fun name member => exists_lines_of_mem_namesOf lineMember looked member, ?_⟩
    intro before after runs shape apart
    exact namesOf_of_adjacent lineMember looked shape apart
  · intro key bucket found first second firstMember secondMember
    exact isConfused_of_mem_bucket found firstMember secondMember
  · intro records run member
    obtain ⟨reference, same⟩ := records.keys run.name member
    rw [← Run.name_injective same]
    exact reference.goesOn_run
  · intro single
    have keys : ∀ name ∈ program.symbols.references.keys,
        ∃ reference : Reference, reference.name = name := by
      intro name member
      obtain ⟨run, rfl⟩ := exists_run_of_mem_keys member
      obtain ⟨reference, rfl⟩ := (Reference.exists_run_eq_iff run).2 (single run member)
      exact ⟨reference, rfl⟩
    refine ⟨keys, ?_, ?_⟩
    · intro line lineMember fragment looked before after references shape apart closed
      exact namesOf_of_adjacent_references lineMember looked single shape apart closed
    · intro key bucket found left leftMember right rightMember
      have consistent := Symbols.isConsistent_symbols program
      obtain ⟨first, rfl⟩ := keys left (consistent.members key bucket found left leftMember).2
      obtain ⟨second, rfl⟩ :=
        keys right (consistent.members key bucket found right rightMember).2
      exact ⟨first, second, rfl, rfl, isConfused_of_mem_bucket found leftMember rightMember⟩

/-- Two strings that stand next to each other are recorded as one name, which is none of the
language, and it shares a bucket with the first of them. -/
theorem not_recordsReferences_of_adjacent_strings :
    let program := decode (encode 0x801
      [(10, [0xBA, 0x41, 0x42, 0x24, 0x43, 0x24]), (20, [0xBA, 0x41, 0x42, 0x24])])
    program.symbols.references.entries =
        [("AB$".toList, [20]), ("AB$C$".toList, [10])] ∧
      program.symbols.collisions.get? "AB$".toList =
        some ["AB$C$".toList, "AB$".toList] ∧
      ¬ program.RecordsReferences := by
  intro program
  have table : program.symbols.references.entries =
      [("AB$".toList, [20]), ("AB$C$".toList, [10])] := by decide +kernel
  refine ⟨table, by decide +kernel, fun records => ?_⟩
  have named : ∀ byte ∈ ([0x41, 0x42, 0x24, 0x43, 0x24] : Bytes), isNameByte byte = true :=
    List.all_eq_true.1 (by decide)
  let run : Run := ⟨_, false, by decide, named⟩
  obtain ⟨reference, same⟩ := records.keys "AB$C$".toList (by
    rw [Table.keys, table]
    decide)
  have whole : reference.run = run := Run.name_injective (same.trans rfl)
  have goes : run.goesOn = true := rfl
  rw [← whole, reference.goesOn_run] at goes
  exact Bool.false_ne_true goes

end Program

end Applesoft
