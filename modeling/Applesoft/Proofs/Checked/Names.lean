import Applesoft.Proofs.Checked.Access

namespace Applesoft.Checked

open Variable

/-- The name in a finished run of name bytes, last byte first, unless the run is empty. -/
def nameOfRun? (run : Bytes) (array : Bool) : Option (List Text) :=
  if run.isEmpty then
    some []
  else
    run.reverse[0]?.map fun first =>
      if isUpper first then
        [run.reverse.map toCharacter ++ if array then ['('] else []]
      else
        []

/-- The names in some bytes, after an unfinished run of name bytes and inside or outside of a
literal. -/
def namesFrom? : Bytes → Bool → Bytes → Option (List Text)
  | _, _, [] => some []
  | run, quoted, byte :: rest =>
      if quoted && byte ≠ Punctuation.quote then
        namesFrom? run quoted rest
      else if isNameByte byte then
        namesFrom? (byte :: run) quoted rest
      else do
        let finished ← nameOfRun? run (byte = Punctuation.leftParenthesis)
        let later ← namesFrom? [] (quoted != (byte = Punctuation.quote)) rest
        some (finished ++ later)

/-- The names in the body of a statement, with a zero behind it that ends the last one. -/
def names? (body : Bytes) : Option (List Text) :=
  namesFrom? [] false (body ++ [0])

theorem nameOfRun?_eq (run : Bytes) (array : Bool) :
    nameOfRun? run array = some (nameOfRun run array) := by
  rw [nameOfRun?, nameOfRun]
  rcases List.eq_nil_or_concat' run with rfl | ⟨front, first, rfl⟩
  · rfl
  · simp

section Scanning

variable {byte : UInt8} {opened : Bytes}

theorem scanFrom_remark (rest : Bytes) :
    Lexeme.scanFrom none (Keyword.remToken :: rest) = [.remark (Keyword.remToken :: rest)] := by
  rw [Lexeme.scanFrom, if_pos rfl]

theorem scanFrom_opening (rest : Bytes) :
    Lexeme.scanFrom none (Punctuation.quote :: rest) =
      Lexeme.scanFrom (some [Punctuation.quote]) rest := by
  rw [Lexeme.scanFrom, if_neg (by decide), if_pos rfl]

theorem scanFrom_code
    (noRemark : byte ≠ Keyword.remToken) (noQuote : byte ≠ Punctuation.quote) (rest : Bytes) :
    Lexeme.scanFrom none (byte :: rest) = .code byte :: Lexeme.scanFrom none rest := by
  rw [Lexeme.scanFrom, if_neg noRemark, if_neg noQuote]

theorem scanFrom_closing (rest : Bytes) :
    Lexeme.scanFrom (some opened) (Punctuation.quote :: rest) =
      .literal (Punctuation.quote :: opened).reverse :: Lexeme.scanFrom none rest := by
  rw [Lexeme.scanFrom, if_pos rfl]

theorem scanFrom_inside (noQuote : byte ≠ Punctuation.quote) (rest : Bytes) :
    Lexeme.scanFrom (some opened) (byte :: rest) =
      Lexeme.scanFrom (some (byte :: opened)) rest := by
  rw [Lexeme.scanFrom, if_neg noQuote]

end Scanning

/-- A literal that is open comes first, and ends a name before it. -/
theorem endsNames_scanFrom (opened bytes : Bytes) :
    EndsNames (Lexeme.scanFrom (some opened) bytes) := by
  induction bytes generalizing opened with
  | nil => simp [EndsNames, Lexeme.scanFrom, isNamed]
  | cons byte rest hypothesis =>
      by_cases isQuote : byte = Punctuation.quote
      · rw [isQuote, scanFrom_closing]
        simp [EndsNames, isNamed]
      · rw [scanFrom_inside isQuote]
        exact hypothesis _

section Steps

variable {run rest : Bytes} {byte : UInt8}

theorem namesFrom?_quote (quoted : Bool) :
    namesFrom? run quoted (Punctuation.quote :: rest) =
      (namesFrom? [] (!quoted) rest).map fun later => nameOfRun run false ++ later := by
  have noName : isNameByte Punctuation.quote = false := by decide
  have noMark : ¬ Punctuation.quote = Punctuation.leftParenthesis := by decide
  rw [namesFrom?]
  cases quoted <;> simp [noName, noMark, nameOfRun?_eq, Option.map_eq_bind]

theorem namesFrom?_inside (noQuote : byte ≠ Punctuation.quote) :
    namesFrom? run true (byte :: rest) = namesFrom? run true rest := by
  rw [namesFrom?, if_pos (by simpa using noQuote)]

theorem namesFrom?_name (name : isNameByte byte = true) :
    namesFrom? run false (byte :: rest) = namesFrom? (byte :: run) false rest := by
  rw [namesFrom?, if_neg (by simp), if_pos name]

theorem namesFrom?_end
    (noQuote : byte ≠ Punctuation.quote) (noName : isNameByte byte = false) :
    namesFrom? run false (byte :: rest) = (namesFrom? [] false rest).map fun later =>
      nameOfRun run (byte = Punctuation.leftParenthesis) ++ later := by
  rw [namesFrom?]
  simp [noName, noQuote, nameOfRun?_eq, Option.map_eq_bind]

end Steps

/-- The bytes have the names of their lexemes, as long as no remark is among these. No name is under
way in a literal that is open. -/
theorem namesFrom?_eq
    {opened : Option Bytes} {run bytes : Bytes}
    (noRemark : ∀ contents, .remark contents ∉ Lexeme.scanFrom opened bytes)
    (apart : opened.isSome = true → run = []) :
    namesFrom? run opened.isSome (bytes ++ [0]) =
      some (namesFrom run (Lexeme.scanFrom opened bytes)) := by
  induction bytes generalizing opened run with
  | nil =>
      have differs : (0 : UInt8) ≠ Punctuation.quote := by decide
      cases opened with
      | none =>
          rw [Option.isSome_none, List.nil_append, namesFrom?_end differs (by decide)]
          exact congrArg some (List.append_nil _)
      | some contents =>
          obtain rfl := apart rfl
          rw [Option.isSome_some, List.nil_append, namesFrom?_inside differs]
          rfl
  | cons byte rest hypothesis =>
      by_cases isQuote : byte = Punctuation.quote
      · subst isQuote
        rw [List.cons_append, namesFrom?_quote]
        cases opened with
        | none =>
            rw [scanFrom_opening] at noRemark ⊢
            have inside := hypothesis noRemark fun _ => rfl
            rw [Option.isSome_some] at inside
            rw [namesFrom_of_ended (endsNames_scanFrom _ _), Option.isSome_none, Bool.not_false,
              inside, Option.map_some]
            rfl
        | some contents =>
            obtain rfl := apart rfl
            rw [scanFrom_closing] at noRemark ⊢
            have behind : namesFrom? [] (none : Option Bytes).isSome (rest ++ [0]) =
                some (names (Lexeme.scanFrom none rest)) := by
              apply hypothesis
              · exact fun remark member => noRemark remark (List.mem_cons_of_mem _ member)
              · exact fun isOpen => by cases isOpen
            rw [Option.isSome_none] at behind
            rw [Option.isSome_some, Bool.not_true, behind, Option.map_some]
            rfl
      · cases opened with
        | none =>
            have noRem : byte ≠ Keyword.remToken := by
              rintro rfl
              rw [scanFrom_remark] at noRemark
              exact noRemark _ List.mem_cons_self
            rw [scanFrom_code noRem isQuote] at noRemark ⊢
            have later : ∀ contents, .remark contents ∉ Lexeme.scanFrom none rest :=
              fun contents member => noRemark contents (List.mem_cons_of_mem _ member)
            have behind (started : Bytes) :
                namesFrom? started (none : Option Bytes).isSome (rest ++ [0]) =
                  some (namesFrom started (Lexeme.scanFrom none rest)) :=
              hypothesis later fun isOpen => by cases isOpen
            rw [Option.isSome_none] at behind ⊢
            rw [List.cons_append, namesFrom]
            by_cases name : isNameByte byte = true
            · rw [namesFrom?_name name, if_pos name, behind]
            · rw [namesFrom?_end isQuote (Bool.eq_false_of_not_eq_true name), if_neg name, behind,
                Option.map_some]
        | some contents =>
            obtain rfl := apart rfl
            rw [scanFrom_inside isQuote] at noRemark ⊢
            rw [Option.isSome_some, List.cons_append, namesFrom?_inside isQuote]
            exact hypothesis noRemark fun _ => rfl

theorem names?_eq
    {body : Bytes} (noRemark : ∀ contents, .remark contents ∉ Lexeme.scan body) :
    names? body = some (names (Lexeme.scan body)) :=
  namesFrom?_eq noRemark fun isOpen => by cases isOpen

/-- The place in front of a byte of a class, unless it is the first one. -/
def stepBack? (passed : UInt8 → Bool) (bytes : Bytes) (place : Nat) : Option Nat := do
  let byte ← bytes[place]?
  if passed byte && 0 < place then difference? place 1 else some place

/-- The key of a name, which is cut behind its second byte and behind its stem. -/
def collisionKey? (name : Text) : Option Text :=
  let bytes := Utf8.encode name
  if bytes.isEmpty then
    some []
  else do
    let last ← difference? bytes.length 1
    let typed ← stepBack? (· = Punctuation.leftParenthesis) bytes last
    let stem ← stepBack? isTypeSuffix bytes typed
    if stem ≤ 1 then
      some name
    else
      let significant ← front? name 2
      let ending ← back? name (stem + 1)
      some (significant ++ ending)

theorem encode_map_toCharacter
    {bytes : Bytes} (ascii : ∀ byte ∈ bytes, byte.toNat ≤ 127) :
    Utf8.encode (bytes.map toCharacter) = bytes := by
  have single : ∀ value < 128, String.utf8EncodeChar (Char.ofNat value) = [UInt8.ofNat value] := by
    decide +kernel
  induction bytes with
  | nil => rfl
  | cons byte rest hypothesis =>
      rw [List.forall_mem_cons] at ascii
      rw [List.map_cons, Utf8.encode, List.flatMap_cons, ← Utf8.encode, hypothesis ascii.2,
        toCharacter, single byte.toNat (by omega), UInt8.ofNat_toNat]
      rfl

theorem peel_concat (taken : Char → Bool) (front : Text) (last : Char) :
    peel taken (front ++ [last]) =
      if taken last && !front.isEmpty then (front, [last]) else (front ++ [last], []) := by
  simp [peel]

theorem isArrayMark_toCharacter (byte : UInt8) :
    decide (toCharacter byte = '(') = decide (byte = Punctuation.leftParenthesis) := by
  rw [decide_eq_decide]
  exact toCharacter_eq_iff byte rfl

theorem isTypeSuffix_toCharacter (byte : UInt8) :
    (decide (toCharacter byte = '$') || decide (toCharacter byte = '%')) = isTypeSuffix byte := by
  have dollar : toCharacter byte = '$' ↔ byte = Punctuation.dollar :=
    toCharacter_eq_iff byte rfl
  have percent : toCharacter byte = '%' ↔ byte = Punctuation.percent :=
    toCharacter_eq_iff byte rfl
  simp only [dollar, percent, isTypeSuffix]

section Keys

variable {bytes : Bytes} {place : Nat}

/-- To step back over a byte is to peel its character off. -/
theorem exists_stepBack?
    {passed : UInt8 → Bool} {taken : Char → Bool}
    (same : ∀ byte, taken (toCharacter byte) = passed byte) (inside : place < bytes.length) :
    ∃ before ≤ place, stepBack? passed bytes place = some before ∧
      peel taken ((bytes.take (place + 1)).map toCharacter) =
        ((bytes.take (before + 1)).map toCharacter,
          ((bytes.take (place + 1)).drop (before + 1)).map toCharacter) := by
  have front : bytes.take (place + 1) = bytes.take place ++ [bytes[place]] :=
    List.take_succ_eq_append_getElem inside
  have length : (bytes.take place).length = place := List.length_take_of_le inside.le
  have begun : ((bytes.take place).map toCharacter).isEmpty = decide (place = 0) := by
    rw [List.isEmpty_map, Bool.eq_iff_iff, List.isEmpty_iff_length_eq_zero, length,
      decide_eq_true_iff]
  have peeled := peel_concat taken ((bytes.take place).map toCharacter) (toCharacter bytes[place])
  have read : stepBack? passed bytes place =
      if passed bytes[place] && 0 < place then difference? place 1 else some place := by
    rw [stepBack?, List.getElem?_eq_getElem inside]
    rfl
  rw [begun, same] at peeled
  rw [read]
  by_cases back : passed bytes[place] = true ∧ 0 < place
  · have taken : (passed bytes[place] && !decide (place = 0)) = true := by
      simpa [Nat.pos_iff_ne_zero] using back
    refine ⟨place - 1, by omega, ?_, ?_⟩
    · rw [if_pos (by simpa using back), difference?_eq back.2]
    · rw [if_pos taken] at peeled
      rw [Nat.sub_add_cancel back.2, front, List.map_append, List.map_singleton, peeled,
        List.drop_left' length, List.map_singleton]
  · have kept : ¬ (passed bytes[place] && !decide (place = 0)) = true := by
      simpa [Nat.pos_iff_ne_zero] using back
    refine ⟨place, le_rfl, if_neg (by simpa using back), ?_⟩
    rw [if_neg kept] at peeled
    rw [front, List.map_append, List.map_singleton, peeled, List.drop_eq_nil_of_le]
    · rfl
    · rw [List.length_append, length, List.length_singleton]

theorem collisionKey?_eq (ascii : ∀ byte ∈ bytes, byte.toNat ≤ 127) :
    collisionKey? (bytes.map toCharacter) = some (collisionKey (bytes.map toCharacter)) := by
  by_cases empty : bytes = []
  · subst empty
    rfl
  have positive := List.length_pos_iff.2 empty
  obtain ⟨typed, typedInside, typedFound, typedPeeled⟩ :=
    @exists_stepBack? bytes (bytes.length - 1) (· = Punctuation.leftParenthesis) (· = '(')
      isArrayMark_toCharacter (by omega)
  obtain ⟨stem, stemInside, stemFound, stemPeeled⟩ :=
    @exists_stepBack? bytes typed isTypeSuffix (fun last => last = '$' || last = '%')
      isTypeSuffix_toCharacter (by omega)
  rw [Nat.sub_add_cancel positive, List.take_length] at typedPeeled
  have stemAscii : ∀ byte ∈ bytes.take (stem + 1), byte.toNat ≤ 127 :=
    fun byte member => ascii byte (List.mem_of_mem_take member)
  have stemLength : (bytes.take (stem + 1)).length = stem + 1 :=
    List.length_take_of_le (by omega)
  have nonempty : bytes.isEmpty = false := List.isEmpty_eq_false_iff.2 empty
  have isAscii : IsAscii (bytes.map toCharacter) :=
    isAscii_iff.2 (ascii_map_toCharacter ascii)
  have ending : (bytes.take (typed + 1)).drop (stem + 1) ++ bytes.drop (typed + 1) =
      bytes.drop (stem + 1) := by
    have whole := List.take_append_drop (typed + 1) bytes
    have inside : stem + 1 ≤ (bytes.take (typed + 1)).length := by
      rw [List.length_take_of_le (by omega)]
      omega
    conv_rhs => rw [← whole, List.drop_append_of_le_length inside]
  simp only [collisionKey?, collisionKey, encode_map_toCharacter ascii, nonempty,
    difference?_eq positive, typedFound, stemFound, typedPeeled, stemPeeled,
    encode_map_toCharacter stemAscii, stemLength,
    significant_of_ascii (ascii_map_toCharacter stemAscii),
    Option.bind_eq_bind, Option.bind_some, Bool.false_eq_true, if_false]
  by_cases short : stem ≤ 1
  · rw [if_pos short, if_pos (by omega)]
  · have twoBytes : min 2 (stem + 1) = 2 := by omega
    have cutFront : front? (bytes.map toCharacter) 2 = some ((bytes.take 2).map toCharacter) := by
      rw [front?, isAscii.cut?_eq (by rw [List.length_map]; omega), Option.map_some, List.map_take]
    have cutBack : back? (bytes.map toCharacter) (stem + 1) =
        some ((bytes.drop (stem + 1)).map toCharacter) := by
      rw [back?, isAscii.cut?_eq (by rw [List.length_map]; omega), Option.map_some, List.map_drop]
    rw [if_neg short, if_neg (by omega), cutFront, cutBack, ← List.map_take, List.take_take,
      twoBytes, List.append_assoc, ← List.map_append, ending]
    rfl

end Keys

theorem ascii_of_isNameByte {byte : UInt8} (name : isNameByte byte = true) : byte.toNat ≤ 127 := by
  rw [isNameByte_eq, Bool.or_eq_true] at name
  rcases name with stem | suffix
  · exact ascii_of_isStemByte stem
  · simp only [isTypeSuffix, Bool.or_eq_true, decide_eq_true_eq] at suffix
    rcases suffix with rfl | rfl <;> decide

/-- Whatever is read as a name has a key. -/
theorem collisionKey?_name (run : Run) :
    collisionKey? run.name = some (collisionKey run.name) := by
  apply collisionKey?_eq
  intro byte member
  rcases List.mem_append.1 member with named | mark
  · exact ascii_of_isNameByte (run.named byte named)
  · rw [eq_of_mem_arrayMark mark]
    decide

end Applesoft.Checked
