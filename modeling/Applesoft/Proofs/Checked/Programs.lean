import Applesoft.Proofs.Checked.Lines

namespace Applesoft.Checked

/-- Enters what has been found in a line. -/
def addFinding? (line : UInt16) (symbols : Symbols) (finding : Finding) : Option Symbols :=
  match finding with
  | .reference name => do
      let key ← collisionKey? name
      some { symbols with
        references := symbols.references.alter name (Symbols.enterLine line)
        collisions := symbols.collisions.alter key (Symbols.enterName name) }
  | _ => some (symbols.addFinding line finding)

def symbols? (program : Program) : Option Symbols :=
  program.log.foldlM (fun symbols entry => addFinding? entry.1 symbols entry.2) .empty

theorem addFinding?_eq
    {line : UInt16} {finding : Finding}
    (named : ∀ name, finding = .reference name → ∃ run : Variable.Run, run.name = name)
    (symbols : Symbols) :
    addFinding? line symbols finding = some (symbols.addFinding line finding) := by
  cases finding with
  | reference name =>
      obtain ⟨run, rfl⟩ := named name rfl
      rw [addFinding?, collisionKey?_name]
      rfl
  | _ => rfl

theorem exists_run_of_mem_log
    {image : Bytes} {line : UInt16} {name : Text}
    (member : (line, .reference name) ∈ (Program.decode image).log) :
    ∃ run : Variable.Run, run.name = name := by
  apply @Program.exists_run_of_mem_keys image
  rw [Symbols.symbols_eq_ofLog, Symbols.mem_keys_references_ofLog, Symbols.namesIn]
  exact List.mem_map.2 ⟨(line, name), List.mem_filterMap.2 ⟨_, member, rfl⟩, rfl⟩

theorem symbols?_eq (image : Bytes) :
    symbols? (Program.decode image) = some (Program.decode image).symbols := by
  have entered (log : List (UInt16 × Finding)) (symbols : Symbols)
      (named : ∀ entry ∈ log, ∀ name, entry.2 = .reference name →
        ∃ run : Variable.Run, run.name = name) :
      log.foldlM (fun tables entry => addFinding? entry.1 tables entry.2) symbols =
        some (log.foldl (fun tables entry => tables.addFinding entry.1 entry.2) symbols) := by
    induction log generalizing symbols with
    | nil => rfl
    | cons entry rest hypothesis =>
        rw [List.forall_mem_cons] at named
        rw [List.foldlM_cons, addFinding?_eq named.1]
        exact hypothesis _ named.2
  rw [Symbols.symbols_eq_ofLog]
  apply entered
  rintro ⟨line, finding⟩ member name rfl
  exact exists_run_of_mem_log member

/-- Adds the bytes from a place on, up to a zero, to a length. -/
def countFrom? (image : Bytes) : Nat → Nat → Nat → Option Nat
  | 0, _, _ => none
  | rounds + 1, place, length =>
      if place < image.length then do
        let byte ← image[place]?
        if byte = 0 then
          some length
        else
          let longer ← sum? (2 ^ 16) length 1
          let next ← sum? wordLimit place 1
          countFrom? image rounds next longer
      else
        some length

/-- Where an image belongs in memory; nowhere if it has no link. -/
def address? (image : Bytes) : Option Nat :=
  if image.length < 2 then
    some 0
  else do
    let low ← image[0]?
    let high ← image[1]?
    if word low high = 0 then
      some 0
    else
      let length ← countFrom? image (image.length + 1) 4 5
      some (word low high - UInt16.ofNat length).toNat

/-- The offset of what follows the final link. -/
def extraData? (program : Program) : Option (Option Nat) := do
  let behind ← sum? wordLimit program.stop 2
  let next ← sum? wordLimit behind 1
  some (if next < program.image.length then some behind else none)

section Addresses

variable {image : Bytes}

theorem next_of_drop_eq_cons
    {byte : UInt8} {rest : Bytes} {place : Nat} (remaining : image.drop place = byte :: rest) :
    place < image.length ∧ image[place]? = some byte ∧ image.drop (place + 1) = rest := by
  have found : image[place]? = some byte := by
    simpa [remaining] using (@List.getElem?_drop _ image place 0).symm
  obtain ⟨inside, -⟩ := List.getElem?_eq_some_iff.1 found
  refine ⟨inside, found, ?_⟩
  rw [← List.drop_drop, remaining]
  rfl

theorem countFrom?_eq
    {bytes : Bytes} {place length rounds : Nat} (remaining : image.drop place = bytes)
    (enough : bytes.length < rounds)
    (fits : length + (bytes.takeWhile isPayloadByte).length < 2 ^ 16)
    (small : image.length < wordLimit) :
    countFrom? image rounds place length =
      some (length + (bytes.takeWhile isPayloadByte).length) := by
  induction bytes generalizing place length rounds with
  | nil =>
      obtain ⟨left, rfl⟩ : ∃ left, rounds = left + 1 := ⟨rounds - 1, by omega⟩
      have behind : image.length ≤ place := List.drop_eq_nil_iff.1 remaining
      rw [countFrom?, if_neg (by omega)]
      rfl
  | cons byte rest hypothesis =>
      obtain ⟨left, rfl⟩ : ∃ left, rounds = left + 1 := ⟨rounds - 1, by omega⟩
      obtain ⟨inside, found, onward⟩ := next_of_drop_eq_cons remaining
      rw [countFrom?, if_pos inside, found]
      simp only [Option.bind_eq_bind, Option.bind_some]
      by_cases zero : byte = 0
      · subst zero
        rfl
      · have payload : isPayloadByte byte = true := bne_iff_ne.2 zero
        have further := List.takeWhile_cons_of_pos payload (l := rest)
        rw [List.takeWhile_cons_of_pos payload, List.length_cons] at fits ⊢
        rw [if_neg zero, sum?_eq (by omega), sum?_eq (by omega), Option.bind_some, Option.bind_some,
          hypothesis onward (by simpa using enough) (by omega), Nat.add_assoc, Nat.add_comm 1]

/-- The length of a line that is too long for a word of sixteen bits is refused. -/
theorem countFrom?_eq_none
    {bytes : Bytes} {place length : Nat} (remaining : image.drop place = bytes)
    (fits : length < 2 ^ 16) (long : 2 ^ 16 ≤ length + (bytes.takeWhile isPayloadByte).length)
    (rounds : Nat) :
    countFrom? image rounds place length = none := by
  induction bytes generalizing place length rounds with
  | nil => exact absurd long (Nat.not_le_of_lt fits)
  | cons byte rest hypothesis =>
      obtain ⟨inside, found, onward⟩ := next_of_drop_eq_cons remaining
      have payload : isPayloadByte byte = true := by
        by_contra zero
        rw [List.takeWhile_cons_of_neg zero] at long
        exact absurd long (Nat.not_le_of_lt fits)
      rw [List.takeWhile_cons_of_pos payload, List.length_cons] at long
      cases rounds with
      | zero => rfl
      | succ rounds =>
          rw [countFrom?, if_pos inside, found]
          simp only [Option.bind_eq_bind, Option.bind_some]
          rw [if_neg (bne_iff_ne.1 payload)]
          by_cases room : length + 1 < 2 ^ 16
          · rw [sum?_eq room, Option.bind_some]
            by_cases inWord : place + 1 < wordLimit
            · rw [sum?_eq inWord, Option.bind_some]
              exact hypothesis onward room (by omega) rounds
            · rw [sum?, if_neg inWord]
              rfl
          · rw [sum?, if_neg room]
            rfl

theorem address?_eq
    (short : ((image.drop 4).takeWhile isPayloadByte).length ≤ 65530)
    (small : image.length < wordLimit) :
    address? image = some (Program.decode image).loadAddress := by
  have length := @countFrom?_eq image _ 4 5 (image.length + 1) rfl
    (by rw [List.length_drop]; omega) (by omega) small
  rcases image with _ | ⟨low, _ | ⟨high, rest⟩⟩
  · rfl
  · rfl
  · rw [address?, if_neg (by simp)]
    simp only [List.getElem?_cons_zero, List.getElem?_cons_succ, Option.bind_eq_bind,
      Option.bind_some, length]
    change _ = some (((loadAddress? (low :: high :: rest)).map UInt16.toNat).getD 0)
    rw [loadAddress?]
    by_cases zero : word low high = 0
    · rw [if_pos zero, if_pos zero]
      rfl
    · rw [if_neg zero, if_neg zero]
      rfl

/-- The bound is sharp: the address of an image that has a link is refused if its first line is any
longer. -/
theorem address?_eq_none
    {low high : UInt8} {rest : Bytes} (linked : word low high ≠ 0)
    (long : 65530 < ((rest.drop 2).takeWhile isPayloadByte).length) :
    address? (low :: high :: rest) = none := by
  have length := @countFrom?_eq_none (low :: high :: rest) (rest.drop 2) 4 5 rfl (by decide)
    (by omega) ((low :: high :: rest).length + 1)
  rw [address?, if_neg (by simp)]
  simp only [List.getElem?_cons_zero, List.getElem?_cons_succ, Option.bind_eq_bind,
    Option.bind_some]
  rw [if_neg linked, length]
  rfl

theorem extraData?_eq (small : image.length + 3 < wordLimit) :
    extraData? (Program.decode image) = some (Program.decode image).extraData := by
  have inside : (Program.decode image).stop ≤ image.length :=
    (Program.isPartition_decode image).stop_le
  rw [extraData?, sum?_eq (by omega)]
  simp only [Option.bind_eq_bind, Option.bind_some]
  rw [sum?_eq (by omega)]
  rfl

end Addresses

end Applesoft.Checked
