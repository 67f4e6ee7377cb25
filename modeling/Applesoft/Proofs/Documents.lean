import Applesoft.Json.Parser
import Applesoft.Proofs.Import

/-!
JSON texts as they are written. A document is the tree of a text, in which an object has its fields
in their order and as often as they come, and a text is the tokens of its document.

The main statement is that a text is read if and only if it is that of a document with at most 127
containers inside each other, and that what is read is the value of the document.
-/

namespace Applesoft.Json

/-- Whether a value is not a container. -/
def isScalar : Json → Bool
  | .array _ => false
  | .object _ => false
  | _ => true

/-- What a text says, value by value. -/
inductive Document where
  | scalar (value : Json) (isScalar : value.isScalar = true)
  | array (items : List Document)
  | object (fields : List (Text × Document))

namespace Document

mutual

/-- The value of a document; of the fields of an object with one name the last one counts. -/
def value : Document → Json
  | .scalar value _ => value
  | .array items => .array (itemValues items)
  | .object fields => ofFields (fieldValues fields)

def itemValues : List Document → List Json
  | [] => []
  | item :: rest => item.value :: itemValues rest

def fieldValues : List (Text × Document) → List (Text × Json)
  | [] => []
  | (name, item) :: rest => (name, item.value) :: fieldValues rest

end

mutual

/-- How many containers are inside each other. -/
def depth : Document → Nat
  | .scalar _ _ => 0
  | .array items => itemDepth items + 1
  | .object fields => fieldDepth fields + 1

def itemDepth : List Document → Nat
  | [] => 0
  | item :: rest => max item.depth (itemDepth rest)

def fieldDepth : List (Text × Document) → Nat
  | [] => 0
  | (_, item) :: rest => max item.depth (fieldDepth rest)

end

/-- Parts with a comma before each. -/
def continued (parts : List (List Token)) : List Token :=
  parts.flatMap (.comma :: ·)

/-- Parts with commas between them. -/
def separated : List (List Token) → List Token
  | [] => []
  | first :: others => first ++ continued others

mutual

def tokens : Document → List Token
  | .scalar value _ => [.scalar value]
  | .array items => .openArray :: separated (itemTokens items) ++ [.closeArray]
  | .object fields => .openObject :: separated (fieldTokens fields) ++ [.closeObject]

def itemTokens : List Document → List (List Token)
  | [] => []
  | item :: rest => item.tokens :: itemTokens rest

def fieldTokens : List (Text × Document) → List (List Token)
  | [] => []
  | (name, item) :: rest =>
      (.scalar (.string name) :: .colon :: item.tokens) :: fieldTokens rest

end

theorem continued_cons (part : List Token) (rest : List (List Token)) :
    continued (part :: rest) = .comma :: part ++ continued rest :=
  List.flatMap_cons

theorem fieldValues_eq_map (fields : List (Text × Document)) :
    fieldValues fields = fields.map fun field => (field.1, field.2.value) := by
  induction fields with
  | nil => rfl
  | cons field rest hypothesis => rw [fieldValues, hypothesis, List.map_cons]

end Document

namespace ReaderState

open Document

variable {frames : List Frame} {result : Json}

@[simp]
theorem complete_array (json : Json) (items : List Json) (frames : List Frame) :
    complete json (.array items :: frames) = .arrayNext (json :: items) frames :=
  rfl

@[simp]
theorem complete_object (json : Json) (fields : List (Text × Json)) (name : Text)
    (frames : List Frame) :
    complete json (.object fields name :: frames) = .objectNext ((name, json) :: fields) frames :=
  rfl

theorem foldlM_cons_of_step
    {state next : ReaderState} {token : Token} (taken : step state token = some next)
    (rest : List Token) : (token :: rest).foldlM step state = rest.foldlM step next := by
  rw [List.foldlM_cons, taken]
  rfl

/-- A value may be the first item of an array. -/
theorem step_arrayStart {token : Token} (opens : token ≠ .closeArray) :
    step (.arrayStart frames) token = step (.value (.array [] :: frames)) token := by
  cases token with
  | closeArray => exact absurd rfl opens
  | openArray => rfl
  | openObject => rfl
  | closeObject => rfl
  | comma => rfl
  | colon => rfl
  | scalar value => rfl

/-- What does not end an object at once begins its first field. -/
theorem step_objectStart {token : Token} (opens : token ≠ .closeObject) :
    step (.objectStart frames) token = beginField [] frames token := by
  cases token with
  | closeObject => exact absurd rfl opens
  | openObject => rfl
  | openArray => rfl
  | closeArray => rfl
  | comma => rfl
  | colon => rfl
  | scalar value => rfl

theorem exists_tokens_eq_cons (document : Document) :
    ∃ first rest, document.tokens = first :: rest ∧ first ≠ .closeArray := by
  cases document with
  | scalar value isScalar => exact ⟨.scalar value, [], rfl, Token.noConfusion⟩
  | array items => exact ⟨.openArray, _, rfl, Token.noConfusion⟩
  | object fields => exact ⟨.openObject, _, rfl, Token.noConfusion⟩

theorem foldlM_tokens_arrayStart (document : Document) :
    document.tokens.foldlM step (.arrayStart frames) =
      document.tokens.foldlM step (.value (.array [] :: frames)) := by
  obtain ⟨first, rest, shape, opens⟩ := exists_tokens_eq_cons document
  rw [shape, List.foldlM_cons, List.foldlM_cons, step_arrayStart opens]

mutual

/-- The tokens of a document take the reader across its value. -/
theorem foldlM_tokens (document : Document) (frames : List Frame)
    (shallow : frames.length + document.depth ≤ depthLimit) :
    document.tokens.foldlM step (.value frames) = some (complete document.value frames) := by
  cases document with
  | scalar value isScalar => rfl
  | array items =>
      rw [depth] at shallow
      have opened : step (.value frames) .openArray = some (.arrayStart frames) :=
        if_pos (by omega)
      cases items with
      | nil =>
          have written : (Document.array []).tokens = [.openArray, .closeArray] := rfl
          rw [written, foldlM_cons_of_step opened]
          rfl
      | cons first others =>
          rw [itemDepth] at shallow
          have one := foldlM_tokens first (.array [] :: frames) (by simp; omega)
          have more := foldlM_itemTokens others [first.value] frames (by omega)
          rw [tokens, itemTokens, separated, List.cons_append, foldlM_cons_of_step opened,
            List.append_assoc, List.foldlM_append, foldlM_tokens_arrayStart, one]
          exact more
  | object fields =>
      rw [depth] at shallow
      have opened : step (.value frames) .openObject = some (.objectStart frames) :=
        if_pos (by omega)
      cases fields with
      | nil =>
          have written : (Document.object []).tokens = [.openObject, .closeObject] := rfl
          rw [written, foldlM_cons_of_step opened]
          rfl
      | cons first others =>
          obtain ⟨name, item⟩ := first
          rw [fieldDepth] at shallow
          have one := foldlM_tokens item (.object [] name :: frames) (by simp; omega)
          have more := foldlM_fieldTokens others [(name, item.value)] frames (by omega)
          rw [tokens, fieldTokens, separated, List.cons_append, foldlM_cons_of_step opened,
            List.append_assoc, List.cons_append, List.cons_append, foldlM_cons_of_step rfl,
            foldlM_cons_of_step rfl, List.foldlM_append, one]
          exact more

theorem foldlM_itemTokens (items : List Document) (read : List Json) (frames : List Frame)
    (shallow : frames.length + 1 + itemDepth items ≤ depthLimit) :
    (continued (itemTokens items) ++ [Token.closeArray]).foldlM step (.arrayNext read frames) =
      some (complete (.array (read.reverse ++ itemValues items)) frames) := by
  cases items with
  | nil =>
      rw [itemValues, List.append_nil]
      rfl
  | cons item rest =>
      rw [itemDepth] at shallow
      have one := foldlM_tokens item (.array read :: frames) (by simp; omega)
      have more := foldlM_itemTokens rest (item.value :: read) frames (by omega)
      rw [itemTokens, itemValues, continued_cons, List.append_assoc, List.cons_append,
        foldlM_cons_of_step rfl, List.foldlM_append, one]
      simpa using more

theorem foldlM_fieldTokens (fields : List (Text × Document)) (read : List (Text × Json))
    (frames : List Frame) (shallow : frames.length + 1 + fieldDepth fields ≤ depthLimit) :
    (continued (fieldTokens fields) ++ [Token.closeObject]).foldlM step (.objectNext read frames) =
      some (complete (ofFields (read.reverse ++ fieldValues fields)) frames) := by
  cases fields with
  | nil =>
      rw [fieldValues, List.append_nil]
      rfl
  | cons field rest =>
      obtain ⟨name, item⟩ := field
      rw [fieldDepth] at shallow
      have one := foldlM_tokens item (.object read name :: frames) (by simp; omega)
      have more := foldlM_fieldTokens rest ((name, item.value) :: read) frames (by omega)
      rw [fieldTokens, fieldValues, continued_cons, List.append_assoc, List.cons_append,
        List.cons_append, List.cons_append, foldlM_cons_of_step rfl, foldlM_cons_of_step rfl,
        foldlM_cons_of_step rfl, List.foldlM_append, one]
      simpa using more

end

theorem step_value_cases
    {token : Token} {next : ReaderState} (taken : step (.value frames) token = some next) :
    (∃ json, token = .scalar json ∧ next = complete json frames) ∨
      (token = .openArray ∧ frames.length < depthLimit ∧ next = .arrayStart frames) ∨
        (token = .openObject ∧ frames.length < depthLimit ∧ next = .objectStart frames) := by
  cases token with
  | scalar json => exact Or.inl ⟨json, rfl, (Option.some.inj taken).symm⟩
  | openArray =>
      rw [step, beginValue, Option.ite_none_right_eq_some] at taken
      exact Or.inr (Or.inl ⟨rfl, taken.1, (Option.some.inj taken.2).symm⟩)
  | openObject =>
      rw [step, beginValue, Option.ite_none_right_eq_some] at taken
      exact Or.inr (Or.inr ⟨rfl, taken.1, (Option.some.inj taken.2).symm⟩)
  | closeArray => cases taken
  | closeObject => cases taken
  | comma => cases taken
  | colon => cases taken

theorem step_arrayNext_cases
    {items : List Json} {token : Token} {next : ReaderState}
    (taken : step (.arrayNext items frames) token = some next) :
    (token = .closeArray ∧ next = complete (.array items.reverse) frames) ∨
      (token = .comma ∧ next = .value (.array items :: frames)) := by
  cases token with
  | closeArray => exact Or.inl ⟨rfl, (Option.some.inj taken).symm⟩
  | comma => exact Or.inr ⟨rfl, (Option.some.inj taken).symm⟩
  | scalar json => cases taken
  | openArray => cases taken
  | openObject => cases taken
  | closeObject => cases taken
  | colon => cases taken

theorem step_objectNext_cases
    {fields : List (Text × Json)} {token : Token} {next : ReaderState}
    (taken : step (.objectNext fields frames) token = some next) :
    (token = .closeObject ∧ next = complete (ofFields fields.reverse) frames) ∨
      (token = .comma ∧ next = .fieldName fields frames) := by
  cases token with
  | closeObject => exact Or.inl ⟨rfl, (Option.some.inj taken).symm⟩
  | comma => exact Or.inr ⟨rfl, (Option.some.inj taken).symm⟩
  | scalar json => cases taken
  | openArray => cases taken
  | openObject => cases taken
  | closeArray => cases taken
  | colon => cases taken

theorem beginField_cases
    {fields : List (Text × Json)} {token : Token} {next : ReaderState}
    (taken : beginField fields frames token = some next) :
    ∃ name, token = .scalar (.string name) ∧ next = .fieldColon fields name frames := by
  unfold beginField at taken
  split at taken
  · next name => exact ⟨name, rfl, (Option.some.inj taken).symm⟩
  · cases taken

theorem step_fieldColon_cases
    {fields : List (Text × Json)} {name : Text} {token : Token} {next : ReaderState}
    (taken : step (.fieldColon fields name frames) token = some next) :
    token = .colon ∧ next = .value (.object fields name :: frames) := by
  cases token with
  | colon => exact ⟨rfl, (Option.some.inj taken).symm⟩
  | scalar json => cases taken
  | openArray => cases taken
  | openObject => cases taken
  | closeArray => cases taken
  | closeObject => cases taken
  | comma => cases taken

/-- A reader that has more to come goes on with a step. -/
theorem exists_step
    {state : ReaderState} {tokens : List Token} (waiting : state ≠ .finished result)
    (read : tokens.foldlM step state = some (.finished result)) :
    ∃ token rest next, tokens = token :: rest ∧ step state token = some next ∧
      rest.foldlM step next = some (.finished result) := by
  cases tokens with
  | nil => exact absurd (Option.some.inj read) waiting
  | cons token rest =>
      rw [List.foldlM_cons, Option.bind_eq_bind, Option.bind_eq_some_iff] at read
      obtain ⟨next, taken, onward⟩ := read
      exact ⟨token, rest, next, rfl, taken, onward⟩

/-- A field begins with its name and a colon. -/
theorem exists_field
    {fields : List (Text × Json)} {tokens : List Token} {token : Token} {next : ReaderState}
    (begun : beginField fields frames token = some next)
    (read : tokens.foldlM step next = some (.finished result)) :
    ∃ name rest, token = .scalar (.string name) ∧ tokens = .colon :: rest ∧
      rest.foldlM step (.value (.object fields name :: frames)) = some (.finished result) := by
  obtain ⟨name, rfl, rfl⟩ := beginField_cases begun
  obtain ⟨mark, rest, after, rfl, taken, onward⟩ := exists_step ReaderState.noConfusion read
  obtain ⟨rfl, rfl⟩ := step_fieldColon_cases taken
  exact ⟨name, rest, rfl, rfl, onward⟩

/-- Whether no container stands as a single token. -/
def IsFlat (tokens : List Token) : Prop :=
  ∀ json, .scalar json ∈ tokens → json.isScalar = true

theorem IsFlat.of_append (front : List Token) {rest : List Token} (flat : IsFlat (front ++ rest)) :
    IsFlat rest :=
  fun json member => flat json (List.mem_append_right front member)

mutual

/-- A reader that waits for a value and gets to the end has read a document. -/
theorem exists_document
    (tokens : List Token) (frames : List Frame) (flat : IsFlat tokens)
    (room : frames.length ≤ depthLimit)
    (read : tokens.foldlM step (.value frames) = some (.finished result)) :
    ∃ (document : Document) (rest : List Token), tokens = document.tokens ++ rest ∧
      frames.length + document.depth ≤ depthLimit ∧
      rest.foldlM step (complete document.value frames) = some (.finished result) := by
  obtain ⟨token, rest, next, rfl, taken, onward⟩ := exists_step ReaderState.noConfusion read
  have later : IsFlat rest := IsFlat.of_append [token] flat
  obtain ⟨json, rfl, rfl⟩ | ⟨rfl, inside, rfl⟩ | ⟨rfl, inside, rfl⟩ := step_value_cases taken
  · exact ⟨Document.scalar json (flat json List.mem_cons_self), rest, rfl, room, onward⟩
  · obtain ⟨first, others, after, shape, begun, further⟩ :=
      exists_step ReaderState.noConfusion onward
    by_cases closes : first = .closeArray
    · obtain rfl := closes
      obtain rfl := Option.some.inj begun
      exact ⟨.array [], others, congrArg _ shape, inside, further⟩
    · have atStart : rest.foldlM step (.value (.array [] :: frames)) =
          some (.finished result) := by
        rw [shape, List.foldlM_cons, ← step_arrayStart closes, begun]
        exact further
      obtain ⟨item, behind, rfl, shallow, next⟩ :=
        exists_document rest (.array [] :: frames) later inside atStart
      obtain ⟨items, last, rfl, depths, done⟩ :=
        exists_items behind [item.value] frames (later.of_append _) inside next
      refine ⟨.array (item :: items), last, ?_, ?_, done⟩
      · simp [Document.tokens, itemTokens, separated]
      · rw [depth, itemDepth]
        rw [List.length_cons] at shallow
        omega
  · obtain ⟨first, others, after, rfl, begun, further⟩ :=
      exists_step ReaderState.noConfusion onward
    by_cases closes : first = .closeObject
    · obtain rfl := closes
      obtain rfl := Option.some.inj begun
      exact ⟨.object [], others, rfl, inside, further⟩
    · rw [step_objectStart closes] at begun
      obtain ⟨name, written, rfl, rfl, fieldRead⟩ := exists_field begun further
      have inner : IsFlat written := later.of_append [.scalar (.string name), .colon]
      obtain ⟨item, behind, rfl, shallow, next⟩ :=
        exists_document written (.object [] name :: frames) inner inside fieldRead
      obtain ⟨fields, last, rfl, depths, done⟩ :=
        exists_fields behind [(name, item.value)] frames (inner.of_append _) inside next
      refine ⟨.object ((name, item) :: fields), last, ?_, ?_, done⟩
      · simp [Document.tokens, fieldTokens, separated]
      · rw [depth, fieldDepth]
        rw [List.length_cons] at shallow
        omega
termination_by tokens.length
decreasing_by all_goals grind

theorem exists_items
    (tokens : List Token) (before : List Json) (frames : List Frame) (flat : IsFlat tokens)
    (room : frames.length < depthLimit)
    (read : tokens.foldlM step (.arrayNext before frames) = some (.finished result)) :
    ∃ items rest, tokens = continued (itemTokens items) ++ .closeArray :: rest ∧
      frames.length + 1 + itemDepth items ≤ depthLimit ∧
      rest.foldlM step (complete (.array (before.reverse ++ itemValues items)) frames) =
        some (.finished result) := by
  obtain ⟨token, rest, next, rfl, taken, onward⟩ := exists_step ReaderState.noConfusion read
  have later : IsFlat rest := IsFlat.of_append [token] flat
  obtain ⟨rfl, rfl⟩ | ⟨rfl, rfl⟩ := step_arrayNext_cases taken
  · refine ⟨[], rest, rfl, room, ?_⟩
    rw [itemValues, List.append_nil]
    exact onward
  · obtain ⟨item, behind, rfl, shallow, next⟩ :=
      exists_document rest (.array before :: frames) later room onward
    obtain ⟨items, last, rfl, depths, done⟩ :=
      exists_items behind (item.value :: before) frames (later.of_append _) room next
    refine ⟨item :: items, last, ?_, ?_, ?_⟩
    · rw [itemTokens, continued_cons]
      simp
    · rw [itemDepth]
      rw [List.length_cons] at shallow
      omega
    · simpa [itemValues] using done
termination_by tokens.length
decreasing_by
  all_goals
    subst_vars
    simp only [List.length_append, List.length_cons]
    omega

theorem exists_fields
    (tokens : List Token) (before : List (Text × Json)) (frames : List Frame)
    (flat : IsFlat tokens) (room : frames.length < depthLimit)
    (read : tokens.foldlM step (.objectNext before frames) = some (.finished result)) :
    ∃ fields rest, tokens = continued (fieldTokens fields) ++ .closeObject :: rest ∧
      frames.length + 1 + fieldDepth fields ≤ depthLimit ∧
      rest.foldlM step (complete (ofFields (before.reverse ++ fieldValues fields)) frames) =
        some (.finished result) := by
  obtain ⟨token, rest, next, rfl, taken, onward⟩ := exists_step ReaderState.noConfusion read
  have later : IsFlat rest := IsFlat.of_append [token] flat
  obtain ⟨rfl, rfl⟩ | ⟨rfl, rfl⟩ := step_objectNext_cases taken
  · refine ⟨[], rest, rfl, room, ?_⟩
    rw [fieldValues, List.append_nil]
    exact onward
  · obtain ⟨first, others, after, rfl, begun, further⟩ :=
      exists_step ReaderState.noConfusion onward
    obtain ⟨name, written, rfl, rfl, fieldRead⟩ := exists_field begun further
    have inner : IsFlat written := later.of_append [.scalar (.string name), .colon]
    obtain ⟨item, behind, rfl, shallow, next⟩ :=
      exists_document written (.object before name :: frames) inner room fieldRead
    obtain ⟨fields, last, rfl, depths, done⟩ :=
      exists_fields behind ((name, item.value) :: before) frames (inner.of_append _) room next
    refine ⟨(name, item) :: fields, last, ?_, ?_, ?_⟩
    · rw [fieldTokens, continued_cons]
      simp
    · rw [fieldDepth]
      rw [List.length_cons] at shallow
      omega
    · simpa [fieldValues] using done
termination_by tokens.length
decreasing_by
  all_goals
    subst_vars
    simp only [List.length_append, List.length_cons]
    omega

end

end ReaderState

namespace Token

open ReaderState (IsFlat)

theorem isScalar_readNumber? {text : Text} {json : Json} (read : readNumber? text = some json) :
    json.isScalar = true := by
  unfold readNumber? at read
  split at read
  · split_ifs at read with allowed natural
    · exact Option.some.inj read ▸ rfl
    · exact Option.some.inj read ▸ rfl
  · cases read

theorem isScalar_word? {text : Text} {json : Json} (read : word? text = some json) :
    json.isScalar = true := by
  unfold word? at read
  split_ifs at read with isNull isTrue isFalse
  · exact Option.some.inj read ▸ rfl
  · exact Option.some.inj read ▸ rfl
  · exact Option.some.inj read ▸ rfl
  · exact isScalar_readNumber? read

theorem isFlat_append {front rest : List Token} (flatFront : IsFlat front) (flat : IsFlat rest) :
    IsFlat (front ++ rest) := by
  intro json member
  cases List.mem_append.1 member with
  | inl inFront => exact flatFront json inFront
  | inr behind => exact flat json behind

theorem isFlat_scalar {json : Json} (isScalar : json.isScalar = true) :
    IsFlat [.scalar json] := by
  intro other member
  obtain rfl := Token.scalar.inj (List.mem_singleton.1 member)
  exact isScalar

theorem isFlat_stepBetween (character : Char) : IsFlat (stepBetween character).2.toList := by
  intro json member
  have found : (stepBetween character).2 = some (.scalar json) := Option.mem_toList.1 member
  unfold stepBetween at found
  split_ifs at found
  split at found
  · next mark marked =>
      obtain rfl := Option.some.inj found
      unfold punctuation? at marked
      split at marked <;> cases marked
  · cases found

/-- The only token that ends in a string is the string. -/
theorem exists_string_of_stepString
    {contents : Text} {state : StringState} {character : Char} {mode : Mode} {token : Token}
    (taken : stepString contents state character = some (mode, some token)) :
    ∃ text, token = .scalar (.string text) := by
  unfold stepString at taken
  grind [Option.map_eq_some_iff]

/-- The tokens of a text are marks and scalars. -/
theorem isFlat_scanFrom {mode : Mode} {text : Text} {tokens : List Token}
    (scanned : scanFrom mode text = some tokens) :
    IsFlat tokens := by
  fun_induction scanFrom mode text generalizing tokens with
  | case1 =>
      obtain rfl := Option.some.inj scanned
      intro json member
      cases member
  | case2 characters =>
      obtain ⟨json, read, rfl⟩ := Option.map_eq_some_iff.1 scanned
      exact isFlat_scalar (isScalar_word? read)
  | case3 => cases scanned
  | case4 character rest mode token stepped hypothesis =>
      obtain ⟨later, further, rfl⟩ := Option.map_eq_some_iff.1 scanned
      have marks := isFlat_stepBetween character
      rw [stepped] at marks
      exact isFlat_append marks (hypothesis further)
  | case5 => cases scanned
  | case6 characters character rest ends json read mode token stepped hypothesis =>
      obtain ⟨later, further, rfl⟩ := Option.map_eq_some_iff.1 scanned
      have marks := isFlat_stepBetween character
      rw [stepped] at marks
      exact isFlat_append (isFlat_append (isFlat_scalar (isScalar_word? read)) marks)
        (hypothesis further)
  | case7 characters character rest inside hypothesis => exact hypothesis scanned
  | case8 => cases scanned
  | case9 contents state character rest mode stepped hypothesis => exact hypothesis scanned
  | case10 contents state character rest mode token stepped hypothesis =>
      obtain ⟨later, further, rfl⟩ := Option.map_eq_some_iff.1 scanned
      obtain ⟨text, rfl⟩ := exists_string_of_stepString stepped
      exact isFlat_append (isFlat_scalar rfl) (hypothesis further)

end Token

theorem lookup_entries (table : Table Text Json) (name : Text) :
    table.entries.lookup name = table.get? name := by
  rw [Table.get?]
  induction table.entries with
  | nil => rfl
  | cons entry rest hypothesis =>
      obtain ⟨key, held⟩ := entry
      rw [List.lookup_cons, hypothesis]
      by_cases same : name = key
      · simp [same]
      · rw [beq_eq_false_iff_ne.2 same]
        simp [Ne.symm same]

/-- Of several fields with one name, the last one is found. -/
theorem field?_ofFields (fields : List (Text × Json)) (name : Text) :
    (ofFields fields).field? name = fields.reverse.lookup name := by
  rw [ofFields_eq, field?, lookup_entries]
  induction fields using List.reverseRecOn with
  | nil => rfl
  | append_singleton front last hypothesis =>
      obtain ⟨key, held⟩ := last
      rw [Table.ofEntries_concat, List.reverse_append, List.reverse_singleton,
        List.singleton_append, List.lookup_cons, ← hypothesis]
      by_cases same : name = key
      · rw [same, Table.get?_alter_self, beq_self_eq_true]
      · rw [Table.get?_alter_of_ne _ _ same, beq_eq_false_iff_ne.2 same]

/-- Whether a text is that of a document, as far as containers may be inside each other. -/
def IsWritten (text : Text) (document : Document) : Prop :=
  Token.scan text = some document.tokens ∧ document.depth ≤ ReaderState.depthLimit

theorem parse?_of_isWritten {text : Text} {document : Document}
    (written : IsWritten text document) :
    parse? text = some document.value := by
  have read := ReaderState.foldlM_tokens document [] (by simpa using written.2)
  rw [parse?, written.1]
  simp only [Option.bind_eq_bind, Option.bind_some, read]
  rfl

/-- Reading a text gives the value of the document whose text it is, and nothing for any other
text. -/
theorem parse?_eq_some_iff (text : Text) (json : Json) :
    parse? text = some json ↔ ∃ document, IsWritten text document ∧ document.value = json := by
  constructor
  · intro parsed
    rw [parse?, Option.bind_eq_bind, Option.bind_eq_some_iff] at parsed
    obtain ⟨tokens, scanned, parsed⟩ := parsed
    rw [Option.bind_eq_bind, Option.bind_eq_some_iff] at parsed
    obtain ⟨state, read, finished⟩ := parsed
    have ended : state = .finished json := by
      cases state with
      | finished value => exact congrArg _ (Option.some.inj finished)
      | _ => cases finished
    obtain rfl := ended
    obtain ⟨document, rest, rfl, shallow, onward⟩ := ReaderState.exists_document tokens []
      (Token.isFlat_scanFrom scanned) (Nat.zero_le _) read
    cases rest with
    | nil =>
        have same := ReaderState.finished.inj (Option.some.inj onward)
        rw [List.append_nil] at scanned
        exact ⟨document, ⟨scanned, by simpa using shallow⟩, same⟩
    | cons token others => cases onward
  · intro exists_document
    obtain ⟨document, written, rfl⟩ := exists_document
    exact parse?_of_isWritten written

end Applesoft.Json
