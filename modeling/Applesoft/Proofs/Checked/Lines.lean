import Applesoft.Proofs.Checked.Scans
import Applesoft.Proofs.Restart

namespace Applesoft.Checked

/-- What a reading gives that begins a segment at an offset and has some lexemes before it. -/
def Reading.ofLexemes (offset : Nat) (first : Bool) (marks : List Mark) (lexemes : List Lexeme)
    (stop : Nat) (terminated : Bool) : Reading where
  fragments := placeSegments offset first (Mark.segments marks)
  literals := (Lexeme.literals lexemes).map fun contents => .literal (Utf8.decode contents)
  findings := marks.flatMap Mark.findings
  stop := stop
  terminated := terminated

namespace Scan

section Lines

variable {image before payload ending : Bytes} {gathered : List Lexeme} {opened : Option Bytes}
  {awaiting first terminated : Bool} {rounds : Nat}

theorem literal?_eq
    {contents : Bytes}
    (shape : image = before ++ (Lexeme.spell gathered.reverse ++ (contents.reverse ++ ending))) :
    literal? image (before.length + (Lexeme.spell gathered.reverse).length)
        (before.length + (Lexeme.spell gathered.reverse).length + contents.length) =
      some (.literal (Utf8.decode contents.reverse)) := by
  have cut := slice?_append_append (before ++ Lexeme.spell gathered.reverse) contents.reverse ending
  rw [List.append_assoc, ← shape, List.length_append, List.length_reverse] at cut
  rw [literal?, cut, Option.map_some]

theorem spell_literal (contents : Bytes) (gathered : List Lexeme) :
    Lexeme.spell (.literal contents :: gathered).reverse =
      Lexeme.spell gathered.reverse ++ contents := by
  rw [List.reverse_cons, Lexeme.spell_append]
  exact congrArg _ (List.append_nil _)

theorem finish?_outside
    (shape : image = before ++ (Lexeme.spell gathered.reverse ++ ending))
    (solid : ∀ lexeme ∈ gathered, lexeme.bytes ≠ [])
    (named : ∀ segment ∈ Mark.segments (Mark.flush gathered), HasNames segment)
    (inRemark : Bool) :
    { behind before gathered none awaiting first with inRemark := inRemark }.finish? image
        terminated =
      some (Reading.ofLexemes before.length first (Mark.unfinished awaiting ++ Mark.flush gathered)
        [] (image.length - ending.length) terminated) := by
  have closed := @close?_flush image before ending first _ shape solid named
  have stop : image.length - ending.length =
      before.length + (Lexeme.spell gathered.reverse).length := by
    rw [shape, List.length_append, List.length_append]
    omega
  simp only [finish?, behind, Option.map_none, Option.getD_none, List.length_nil, Nat.add_zero,
    closed, Option.bind_eq_bind, Option.bind_some, Reading.ofLexemes, segments_unfinished_append,
    List.flatMap_append, stop]
  rfl

theorem finish?_inside
    {contents : Bytes}
    (shape : image = before ++ (Lexeme.spell gathered.reverse ++ (contents.reverse ++ ending)))
    (solid : ∀ lexeme ∈ .literal contents.reverse :: gathered, lexeme.bytes ≠ [])
    (named : ∀ segment ∈ Mark.segments (Mark.flush (.literal contents.reverse :: gathered)),
      HasNames segment) :
    (behind before gathered (some contents) awaiting first).finish? image terminated =
      some (Reading.ofLexemes before.length first
        (Mark.unfinished awaiting ++ Mark.flush (.literal contents.reverse :: gathered))
        [.literal contents.reverse] (image.length - ending.length) terminated) := by
  have stop : image.length - ending.length =
      before.length + (Lexeme.spell gathered.reverse).length + contents.length := by
    simp only [shape, List.length_append, List.length_reverse]
    omega
  have spelled := spell_literal contents.reverse gathered
  have closed := @close?_flush image before ending first (.literal contents.reverse :: gathered)
    (by rw [shape, spelled, List.append_assoc]) solid named
  rw [spelled, List.length_append, List.length_reverse, ← Nat.add_assoc] at closed
  simp only [finish?, behind, Option.map_some, Option.getD_some, literal?_eq shape, closed,
    Option.bind_eq_bind, Option.bind_some, Reading.ofLexemes, segments_unfinished_append,
    List.flatMap_append, stop]
  rfl

/-- The round in which the line ends: at a zero or at the end of the image. -/
theorem run?_end
    {scan : Scan} (remaining : image.drop scan.position = ending)
    (ended : ∀ byte ∈ ending.head?, byte = 0) :
    run? image (rounds + 1) scan = scan.finish? image (!ending.isEmpty) := by
  have head : image[scan.position]? = ending.head? := by
    rw [← remaining, List.head?_drop]
  rw [run?]
  cases ending with
  | nil =>
      have outside := List.drop_eq_nil_iff.1 remaining
      rw [if_neg (by omega)]
      rfl
  | cons byte rest =>
      have inside : scan.position < image.length := (List.getElem?_eq_some_iff.1 head).1
      have zero : byte = 0 := ended byte rfl
      rw [if_pos inside, head, List.head?_cons, Option.bind_eq_bind, Option.bind_some, if_pos zero]
      rfl

/-- A round that reads a byte of the line, and what is read behind it. -/
theorem run?_byte
    {scan onward : Scan} {yielded : Yield} {reading : Reading} {byte : UInt8} {rest : Bytes}
    (remaining : image.drop scan.position = byte :: rest) (nonzero : byte ≠ 0)
    (small : image.length < wordLimit)
    (advanced : scan.advance? image byte (scan.position + 1) = some (onward, yielded))
    (later : run? image rounds onward = some reading) :
    run? image (rounds + 1) scan = some (reading.behind yielded) := by
  have head : image[scan.position]? = some byte := by
    rw [← List.head?_drop, remaining]
    rfl
  have inside : scan.position < image.length := (List.getElem?_eq_some_iff.1 head).1
  rw [run?, if_pos inside, head, Option.bind_eq_bind, Option.bind_some, if_neg nonzero,
    sum?_eq (by omega)]
  simp only [Option.bind_eq_bind, Option.bind_some, advanced, later]

/-- Reads on through a remark, whose bytes only move the position. -/
theorem run?_remark
    {scan : Scan} {reading : Reading}
    (remaining : image.drop scan.position = payload ++ ending)
    (inRemark : scan.inRemark = true)
    (zeroFree : (0 : UInt8) ∉ payload) (ended : ∀ byte ∈ ending.head?, byte = 0)
    (enough : payload.length < rounds) (small : image.length < wordLimit)
    (finished : { scan with position := scan.position + payload.length }.finish? image
      (!ending.isEmpty) = some reading) :
    run? image rounds scan = some reading := by
  induction payload generalizing scan rounds with
  | nil =>
      obtain ⟨left, rfl⟩ : ∃ left, rounds = left + 1 := ⟨rounds - 1, by omega⟩
      rw [run?_end remaining ended]
      exact finished
  | cons byte rest hypothesis =>
      obtain ⟨left, rfl⟩ : ∃ left, rounds = left + 1 := ⟨rounds - 1, by omega⟩
      rw [List.mem_cons, not_or] at zeroFree
      have advanced : scan.advance? image byte (scan.position + 1) =
          some ({ scan with position := scan.position + 1 }, {}) := if_pos inRemark
      have later : run? image left { scan with position := scan.position + 1 } = some reading := by
        refine hypothesis ?_ inRemark zeroFree.2 (by simpa using enough) ?_
        · rw [← List.drop_drop, remaining]
          rfl
        · rw [List.length_cons, Nat.add_comm rest.length, ← Nat.add_assoc] at finished
          exact finished
      rw [run?_byte remaining (Ne.symm zeroFree.1) small advanced later, Reading.behind_empty]

section Steps

variable {after contents : Bytes} {byte : UInt8}

theorem advance?_closing
    (shape : image = before ++ (Lexeme.spell gathered.reverse ++
      (contents.reverse ++ Punctuation.quote :: after))) :
    (behind before gathered (some contents) awaiting first).advance? image Punctuation.quote
        (before.length + (Lexeme.spell gathered.reverse).length + contents.length + 1) =
      some (
        behind before (.literal (Punctuation.quote :: contents).reverse :: gathered) none awaiting
          first,
        { literals := [.literal (Utf8.decode (Punctuation.quote :: contents).reverse)] }) := by
  have literal := @literal?_eq image before after gathered (Punctuation.quote :: contents)
    (by rw [shape, List.reverse_cons, List.append_assoc]; rfl)
  simp only [List.length_cons, Nat.add_assoc] at literal
  simp only [advance?, behind, Option.map_some, Option.getD_some, Bool.false_eq_true, if_false,
    if_true, spell_literal, List.length_append, List.length_reverse, List.length_cons,
    Option.map_none, Option.getD_none, List.length_nil, Nat.add_zero, Nat.add_assoc, literal]

theorem advance?_within (noQuote : byte ≠ Punctuation.quote) :
    (behind before gathered (some contents) awaiting first).advance? image byte
        (before.length + (Lexeme.spell gathered.reverse).length + contents.length + 1) =
      some (behind before gathered (some (byte :: contents)) awaiting first, {}) := by
  simp only [advance?, behind, Option.map_some, Option.getD_some, Bool.false_eq_true, if_false,
    if_neg noQuote, List.length_cons, Nat.add_assoc]

theorem advance?_opening :
    (behind before gathered none awaiting first).advance? image Punctuation.quote
        (before.length + (Lexeme.spell gathered.reverse).length + 1) =
      some (behind before gathered (some [Punctuation.quote]) awaiting first, {}) := by
  have reading (scan : Scan) (next : Nat) :
      scan.advanceCode? image Punctuation.quote next = (do
        let place ← difference? next 1
        some ({ scan with position := next, opened := some place }, {})) := by
    simp [advanceCode?, show Punctuation.quote ≠ Keyword.ifToken by decide,
      show Punctuation.quote ≠ Keyword.thenToken by decide,
      show Punctuation.quote ≠ Keyword.gotoToken by decide,
      show Punctuation.quote ≠ Punctuation.colon by decide,
      show Punctuation.quote ≠ Keyword.remToken by decide]
  have outside : (behind before gathered none awaiting first).advance? image Punctuation.quote
      (before.length + (Lexeme.spell gathered.reverse).length + 1) =
        (behind before gathered none awaiting first).advanceCode? image Punctuation.quote
          (before.length + (Lexeme.spell gathered.reverse).length + 1) := rfl
  rw [outside, reading, difference?_eq (Nat.le_add_left 1 _), Nat.add_sub_cancel]
  rfl

end Steps

/-- The reading behind the token of a remark, and behind a front of the image. -/
def behindRem (before : Bytes) (awaiting first : Bool) : Scan where
  start := before.length
  position := before.length + 1
  inRemark := true
  awaiting := awaiting
  first := first

theorem advance?_rem
    {after : Bytes}
    (shape : image = before ++ (Lexeme.spell gathered.reverse ++ Keyword.remToken :: after))
    (solid : ∀ lexeme ∈ gathered, lexeme.bytes ≠ [])
    (named : ∀ segment ∈ Mark.segments (Mark.flush gathered), HasNames segment) :
    (behind before gathered none awaiting first).advance? image Keyword.remToken
        (before.length + (Lexeme.spell gathered.reverse).length + 1) =
      some (
        behindRem (before ++ Lexeme.spell gathered.reverse) awaiting
          (first && (Mark.segments (Mark.flush gathered)).isEmpty),
        Yield.ofMarks before.length first
          ((if gathered.isEmpty then [] else [.strayRemark]) ++ Mark.flush gathered)) := by
  have closed := @close?_flush image before (Keyword.remToken :: after) first _ shape solid named
  have outside (next : Nat) :
      (behind before gathered none awaiting first).advance? image Keyword.remToken next =
        (behind before gathered none awaiting first).advanceCode? image Keyword.remToken next := rfl
  have reading (scan : Scan) (next : Nat) :
      scan.advanceCode? image Keyword.remToken next = (do
        let place ← difference? next 1
        if place = scan.start then
          some ({ scan with position := next, inRemark := true }, {})
        else
          let closed ← close? image scan.first scan.start place place
          some (
            { { scan with position := next }.begin place closed with
              inRemark := true, awaiting := scan.awaiting },
            { closed with findings := .anomaly .midLineRem :: closed.findings })) := by
    simp [advanceCode?, show Keyword.remToken ≠ Keyword.ifToken by decide,
      show Keyword.remToken ≠ Keyword.thenToken by decide,
      show Keyword.remToken ≠ Keyword.gotoToken by decide,
      show Keyword.remToken ≠ Punctuation.colon by decide]
  rw [outside, reading, difference?_eq (Nat.le_add_left 1 _), Nat.add_sub_cancel]
  cases gathered with
  | nil =>
      simp [behind, behindRem, Lexeme.spell, Mark.flush, Yield.ofMarks, Mark.segments,
        placeSegments]
  | cons lexeme rest =>
      have positive := List.length_pos_iff.2
        (spell_reverse_ne_nil (solid lexeme List.mem_cons_self) rest)
      have moved : ¬ before.length + (Lexeme.spell (lexeme :: rest).reverse).length =
          before.length := by omega
      simp only [behind, Option.bind_eq_bind, Option.bind_some, if_neg moved, closed, Scan.begin,
        Yield.ofMarks, isEmpty_placeSegments, behindRem, List.length_append]
      rfl

/-- Reads on to the end of a line with a remark, behind the token of the remark. -/
theorem run?_behindRem
    (shape : image = before ++ (Keyword.remToken :: payload ++ ending))
    (named : HasNames ⟨[.remark (Keyword.remToken :: payload)], false⟩)
    (zeroFree : (0 : UInt8) ∉ payload) (ended : ∀ byte ∈ ending.head?, byte = 0)
    (enough : payload.length < rounds) (small : image.length < wordLimit) :
    run? image rounds (behindRem before awaiting first) =
      some (Reading.ofLexemes before.length first
        (Mark.unfinished awaiting ++ [.segment ⟨[.remark (Keyword.remToken :: payload)], false⟩]) []
        (image.length - ending.length) (!ending.isEmpty)) := by
  have spelled : Lexeme.spell [.remark (Keyword.remToken :: payload)].reverse =
      Keyword.remToken :: payload := List.append_nil _
  have finished := @finish?_outside image before ending [.remark (Keyword.remToken :: payload)]
    awaiting first (!ending.isEmpty) (by rw [spelled, shape])
    (List.forall_mem_singleton.2 (List.cons_ne_nil _ _)) (List.forall_mem_singleton.2 named) true
  refine run?_remark ?_ rfl zeroFree ended enough small ?_
  · change image.drop (before.length + 1) = payload ++ ending
    rw [shape, List.cons_append, ← List.drop_drop, List.drop_left]
    rfl
  · simp only [behind, spelled, Option.map_none, Option.getD_none, List.length_nil, Nat.add_zero,
      List.length_cons, Nat.add_comm payload.length, ← Nat.add_assoc] at finished
    exact finished

theorem drop_behind
    (shape : image = before ++ (Lexeme.spell gathered.reverse ++
      ((opened.getD []).reverse ++ (payload ++ ending)))) :
    image.drop (behind before gathered opened awaiting first).position = payload ++ ending := by
  change image.drop (before.length + (Lexeme.spell gathered.reverse).length +
    (opened.getD []).length) = _
  rw [shape, ← List.drop_drop, ← List.drop_drop, List.drop_left, List.drop_left,
    List.drop_left' List.length_reverse]

/-- What is read behind some marks continues them. -/
theorem behind_ofMarks
    (offset : Nat) (left right : List Mark) (lexemes : List Lexeme) (stop : Nat) :
    (Reading.ofLexemes (offset + ((Mark.segments left).flatMap Segment.span).length)
        (first && (Mark.segments left).isEmpty) right lexemes stop terminated).behind
          (Yield.ofMarks offset first left) =
      Reading.ofLexemes offset first (left ++ right) lexemes stop terminated := by
  simp only [Reading.ofLexemes, Reading.behind, Yield.append, Yield.ofMarks,
    Mark.segments_append, placeSegments_append, List.flatMap_append, List.nil_append]

/-- Reads on from the token of a remark, which closes what has been gathered. -/
theorem run?_rem
    (shape : image = before ++ (Lexeme.spell gathered.reverse ++
      Keyword.remToken :: (payload ++ ending)))
    (solid : ∀ lexeme ∈ gathered, lexeme.bytes ≠ [])
    (named : ∀ segment ∈ Mark.segments
      (Mark.divideFrom awaiting gathered [.remark (Keyword.remToken :: payload)]), HasNames segment)
    (zeroFree : (0 : UInt8) ∉ payload) (ended : ∀ byte ∈ ending.head?, byte = 0)
    (enough : payload.length < rounds) (small : image.length < wordLimit) :
    run? image (rounds + 1) (behind before gathered none awaiting first) =
      some (Reading.ofLexemes before.length first
        (Mark.divideFrom awaiting gathered [.remark (Keyword.remToken :: payload)])
        [.remark (Keyword.remToken :: payload)] (image.length - ending.length)
        (!ending.isEmpty)) := by
  rw [divideFrom_remark] at named ⊢
  rw [Mark.segments_append, segments_stray_append, segments_unfinished_append,
    segments_singleton, List.forall_mem_append] at named
  have remaining := @drop_behind image before (Keyword.remToken :: payload) ending gathered none
    awaiting first shape
  have advanced := @advance?_rem image before gathered awaiting first _ shape solid named.1
  have later := @run?_behindRem image (before ++ Lexeme.spell gathered.reverse) payload ending
    awaiting (first && (Mark.segments (Mark.flush gathered)).isEmpty) rounds
    (by rw [shape, List.append_assoc]; rfl) (named.2 _ List.mem_cons_self) zeroFree ended enough
    small
  rw [run?_byte remaining (by decide) small advanced later, ← behind_ofMarks before.length,
    segments_stray_append, Mark.flatMap_span_flush, List.length_append]
  rfl

/-- The reading of a line gives the segments of its lexemes. The induction is on the bytes of the
line that are left; each moves the border between what has been gathered, the literal that is open,
and the rest. -/
theorem run?_eq
    (shape : image = before ++ (Lexeme.spell gathered.reverse ++
      ((opened.getD []).reverse ++ (payload ++ ending))))
    (solid : ∀ lexeme ∈ gathered, lexeme.bytes ≠ []) (begun : opened ≠ some [])
    (named : ∀ segment ∈ Mark.segments
      (Mark.divideFrom awaiting gathered (Lexeme.scanFrom opened payload)), HasNames segment)
    (zeroFree : (0 : UInt8) ∉ payload) (ended : ∀ byte ∈ ending.head?, byte = 0)
    (enough : payload.length < rounds) (small : image.length < wordLimit) :
    run? image rounds (behind before gathered opened awaiting first) =
      some (Reading.ofLexemes before.length first
        (Mark.divideFrom awaiting gathered (Lexeme.scanFrom opened payload))
        (Lexeme.scanFrom opened payload) (image.length - ending.length) (!ending.isEmpty)) := by
  induction payload generalizing before gathered opened awaiting first rounds with
  | nil =>
      obtain ⟨left, rfl⟩ : ∃ left, rounds = left + 1 := ⟨rounds - 1, by omega⟩
      rw [run?_end (drop_behind shape) ended]
      cases opened with
      | none =>
          exact finish?_outside shape solid (by
            simpa [Lexeme.scanFrom, Mark.divideFrom, segments_unfinished_append] using named) false
      | some contents =>
          have present : contents.reverse ≠ [] := by
            intro empty
            exact begun (congrArg some (List.reverse_eq_nil_iff.1 empty))
          exact finish?_inside shape (List.forall_mem_cons.2 ⟨present, solid⟩) (by
            simpa [Lexeme.scanFrom, Mark.divideFrom, segments_unfinished_append] using named)
  | cons byte rest hypothesis =>
      obtain ⟨left, rfl⟩ : ∃ left, rounds = left + 1 := ⟨rounds - 1, by omega⟩
      rw [List.mem_cons, not_or] at zeroFree
      have nonzero := Ne.symm zeroFree.1
      have remaining := @drop_behind image before (byte :: rest) ending gathered opened awaiting
        first shape
      have enoughLeft : rest.length < left := by simpa using enough
      cases opened with
      | none =>
          have shapeCode : image = before ++ (Lexeme.spell gathered.reverse ++
              byte :: (rest ++ ending)) := shape
          by_cases isRem : byte = Keyword.remToken
          · subst isRem
            rw [scanFrom_remark] at named ⊢
            exact run?_rem shapeCode solid named zeroFree.2 ended enoughLeft small
          by_cases isQuote : byte = Punctuation.quote
          · subst isQuote
            rw [scanFrom_opening] at named ⊢
            have later := @hypothesis before gathered (some [Punctuation.quote]) awaiting first left
              shape solid (by simp) named zeroFree.2 enoughLeft
            exact run?_byte remaining nonzero small advance?_opening later
          · rw [scanFrom_code isRem isQuote, divideFrom_code] at named ⊢
            rw [Mark.segments_append, List.forall_mem_append] at named
            have advanced : (behind before gathered none awaiting first).advance? image byte
                ((behind before gathered none awaiting first).position + 1) = _ :=
              advanceCode?_eq shapeCode solid isRem isQuote named.1
            have later := @hypothesis
              (before ++ (Mark.segments (divideCode awaiting gathered byte).1).flatMap Segment.span)
              (divideCode awaiting gathered byte).2.2 none (divideCode awaiting gathered byte).2.1
              (first && (Mark.segments (divideCode awaiting gathered byte).1).isEmpty) left
              (by
                rw [shape, List.append_assoc, ← List.append_assoc (List.flatMap _ _),
                  span_divideCode]
                simp)
              (forall_divideCode (List.cons_ne_nil _ _) solid) (by simp) named.2 zeroFree.2
              enoughLeft
            rw [run?_byte remaining nonzero small advanced later, List.length_append,
              behind_ofMarks]
            rfl
      | some contents =>
          by_cases isQuote : byte = Punctuation.quote
          · subst isQuote
            rw [scanFrom_closing, Mark.divideFrom] at named ⊢
            have later := @hypothesis before
              (.literal (Punctuation.quote :: contents).reverse :: gathered) none awaiting first
              left (by rw [shape, spell_literal]; simp)
              (List.forall_mem_cons.2 ⟨by simp [Lexeme.bytes], solid⟩) (by simp) named zeroFree.2
              enoughLeft
            exact run?_byte remaining nonzero small (advance?_closing shape) later
          · rw [scanFrom_inside isQuote] at named ⊢
            have later := @hypothesis before gathered (some (byte :: contents)) awaiting first left
              (by rw [shape]; simp) solid (by simp) named zeroFree.2 enoughLeft
            exact run?_byte remaining nonzero small (advance?_within isQuote) later

end Lines

end Scan

/-- A remark is a segment of its own. -/
theorem eq_of_remark_mem
    {awaiting : Bool} {gathered lexemes : List Lexeme} {segment : Segment} {contents : Bytes}
    (free : ∀ remark, .remark remark ∉ gathered)
    (member : segment ∈ Mark.segments (Mark.divideFrom awaiting gathered lexemes))
    (inside : .remark contents ∈ segment.lexemes) :
    segment.lexemes = [.remark contents] := by
  have absent {front : List Lexeme} (noRemark : ∀ remark, .remark remark ∉ front)
      (within : segment.lexemes <:+: front) : segment.lexemes = [.remark contents] :=
    absurd (within.subset inside) (noRemark contents)
  have flushed {front : List Lexeme} (noRemark : ∀ remark, .remark remark ∉ front)
      (closed : segment ∈ Mark.segments (Mark.flush front)) :
      segment.lexemes = [.remark contents] := by
    have within := Mark.eq_of_mem_segments_flush closed
    apply @absent front.reverse
    · simpa using noRemark
    · exact within ▸ List.infix_rfl
  induction lexemes generalizing awaiting gathered with
  | nil =>
      rw [Mark.divideFrom, segments_unfinished_append] at member
      exact flushed free member
  | cons lexeme rest hypothesis =>
      cases lexeme with
      | literal bytes =>
          refine hypothesis ?_ member
          simpa using free
      | remark bytes =>
          rw [Mark.divideFrom, List.append_assoc, List.append_assoc, segments_stray_append,
            Mark.segments_append, segments_unfinished_append, Mark.segments_cons, List.mem_append,
            List.mem_cons] at member
          rcases member with closed | rfl | later
          · exact flushed free closed
          · exact (List.mem_singleton.1 inside) ▸ rfl
          · exact hypothesis (by simp) later
      | code byte =>
          have grown : ∀ remark, .remark remark ∉ gathered.reverse ++ [.code byte] := by
            simpa using free
          rw [divideFrom_code, Mark.segments_append, List.mem_append] at member
          rcases member with closed | later
          · apply absent grown
            apply @Mark.within_of_mem_segments awaiting
            rw [divideFrom_code, Mark.segments_append]
            exact List.mem_append_left _ closed
          · refine hypothesis (fun remark member => ?_) later
            exact @forall_divideCode (· ≠ .remark remark) awaiting gathered byte (by simp)
              (fun lexeme among same => free remark (same ▸ among)) _ member rfl

theorem hasNames_of_mem_segments
    {payload : Bytes} {segment : Segment}
    (member : segment ∈ Mark.segments (Mark.divide (Lexeme.scan payload))) :
    HasNames segment := by
  intro looked
  have scanned : Lexeme.IsScanned segment.lexemes :=
    (Lexeme.isScanned_scanFrom none payload (by simp)).of_within
      (Mark.within_of_mem_segments member)
  rw [← Segment.scan_body member]
  apply names?_eq
  intro contents inside
  rw [Segment.scan_body member] at inside
  have alone := eq_of_remark_mem (by simp) member inside
  have body : segment.body = contents := by
    rw [Segment.body, alone]
    exact List.append_nil _
  rw [alone] at scanned
  have remark : Statement.ofBody segment.body = .remark := by
    rw [Payload.ofBody_eq_remark_iff, body]
    exact scanned.1
  rw [remark] at looked
  cases looked

/-- Reads the line whose record begins at an offset, behind its link: the line and the offset behind
it. -/
def line? (image : Bytes) (offset : Nat) (link : UInt16) : Option (Line × Nat) := do
  let low ← read? image offset 2
  let high ← read? image offset 3
  let start ← sum? wordLimit offset 4
  let reading ← Scan.run? image (image.length + 1) { start := start, position := start }
  let payload ← slice? image start reading.stop
  let stop ← sum? wordLimit reading.stop reading.terminated.toNat
  some ({
    record := ⟨offset, link, word low high, payload, reading.terminated⟩
    fragments := reading.fragments
    findings := reading.literals ++ reading.findings ++
      if reading.terminated then [] else [.anomaly .unterminatedLine] }, stop)

/-- Reads the lines from an offset on, given the link before them. -/
def lines? (image : Bytes) : Nat → Nat → UInt16 → Option (List Line)
  | 0, _, _ => none
  | rounds + 1, offset, previous => do
      let room ← sum? wordLimit offset 6
      if image.length < room then
        some []
      else
        let low ← read? image offset 0
        let high ← read? image offset 1
        if previous < word low high then
          let (line, stop) ← line? image offset (word low high)
          let rest ← lines? image rounds stop (word low high)
          some (line :: rest)
        else
          some []

def decode? (image : Bytes) : Option Program :=
  (lines? image (image.length + 1) 0 0).map fun lines => ⟨image, lines⟩

section Records

variable {image : Bytes} {record : Record} {offset rounds : Nat} {previous : UInt16}

/-- The bytes of a word are at its offset and behind it. -/
theorem exists_read?_eq
    {value : UInt16} (found : wordAt? image offset = some value)
    (small : image.length < wordLimit) :
    ∃ low high, (∀ start distance, start + distance = offset →
      read? image start distance = some low ∧ read? image start (distance + 1) = some high) ∧
        value = word low high := by
  rw [wordAt?] at found
  split at found
  · next low high more remaining =>
      have length := congrArg List.length remaining
      rw [List.length_drop, List.length_cons, List.length_cons] at length
      have lowFound : image[offset]? = some low := by
        simpa [remaining] using (@List.getElem?_drop _ image offset 0).symm
      have highFound : image[offset + 1]? = some high := by
        simpa [remaining] using (@List.getElem?_drop _ image offset 1).symm
      refine ⟨low, high, fun start distance reached => ⟨?_, ?_⟩, (Option.some.inj found).symm⟩
      · rw [read?, sum?_eq (by omega), Option.bind_some, reached, lowFound]
      · rw [read?, sum?_eq (by omega), Option.bind_some, ← Nat.add_assoc, reached, highFound]
  · cases found

theorem line?_eq (placed : record.IsIn image) (small : image.length + 6 < wordLimit) :
    line? image record.start record.link = some (Line.ofRecord record, record.stop) := by
  have room := placed.room
  obtain ⟨low, high, read, number⟩ := exists_read?_eq placed.number (by omega)
  have inside := placed.payloadStop_le
  have payloadInside : record.payload.length ≤ image.length :=
    Nat.le_trans (Nat.le_add_left _ _) inside
  have front : (image.take record.payloadStart).length = record.payloadStart :=
    List.length_take_of_le placed.payloadStart_le
  have whole : image = image.take record.payloadStart ++
      (record.payload ++ image.drop record.payloadStop) := by
    rw [← placed.drop_payloadStart, List.take_append_drop]
  have reading := @Scan.run?_eq image (image.take record.payloadStart) record.payload
    (image.drop record.payloadStop) [] none false true (image.length + 1) whole (by simp) (by simp)
    (fun segment member => hasNames_of_mem_segments member) placed.zeroFree
    placed.head?_drop_payloadStop (Nat.lt_succ_of_le payloadInside) (by omega)
  have begun : Scan.behind (image.take record.payloadStart) [] none false true =
      { start := record.payloadStart, position := record.payloadStart } := by
    rw [Scan.behind, front]
    rfl
  have stop : image.length - (image.drop record.payloadStop).length = record.payloadStop := by
    rw [List.length_drop]
    omega
  have cut : slice? image record.payloadStart record.payloadStop = some record.payload := by
    rw [@slice?_eq _ image record.payloadStart record.payloadStop (Nat.le_add_right _ _) inside,
      placed.payload]
  rw [front, begun, stop, placed.isEmpty_drop_payloadStop, Bool.not_not] at reading
  obtain ⟨lowRead, highRead⟩ := read record.start 2 rfl
  have flag := Bool.toNat_le record.terminated
  rw [line?, lowRead, highRead, sum?_eq (by omega)]
  simp only [Option.bind_eq_bind, Option.bind_some]
  change (Scan.run? image (image.length + 1)
    ⟨record.payloadStart, record.payloadStart, none, false, false, true⟩).bind _ = _
  rw [reading]
  simp only [Reading.ofLexemes, Option.bind_some]
  change (slice? image record.payloadStart _).bind _ = _
  rw [cut, Option.bind_some, sum?_eq (by omega), Option.bind_some, ← number]
  rfl

/-- The lines from an offset on are those of the records that follow there. -/
theorem lines?_eq
    {records : List Record} (follow : Record.Follow image offset previous records)
    (enough : image.length < offset + rounds) (small : image.length + 6 < wordLimit) :
    lines? image rounds offset previous = some (records.map Line.ofRecord) := by
  induction records generalizing offset previous rounds with
  | nil =>
      obtain ⟨inside, ends⟩ := follow
      obtain ⟨left, rfl⟩ : ∃ left, rounds = left + 1 := ⟨rounds - 1, by omega⟩
      rw [lines?, sum?_eq (by omega)]
      simp only [Option.bind_eq_bind, Option.bind_some]
      by_cases room : image.length < offset + 6
      · rw [if_pos room]
        rfl
      · obtain ⟨link, found, small⟩ := ends.resolve_left room
        obtain ⟨low, high, read, rfl⟩ := exists_read?_eq found (by omega)
        obtain ⟨lowRead, highRead⟩ := read offset 0 rfl
        rw [if_neg room, lowRead, highRead, Option.bind_some, Option.bind_some,
          if_neg (UInt16.not_lt.2 small)]
        rfl
  | cons record rest hypothesis =>
      obtain ⟨rfl, larger, placed, remaining⟩ := follow
      have room := placed.room
      have forward : record.start + 4 ≤ record.stop :=
        Nat.le_add_right_of_le (Nat.le_add_right _ _)
      obtain ⟨left, rfl⟩ : ∃ left, rounds = left + 1 := ⟨rounds - 1, by omega⟩
      obtain ⟨low, high, read, link⟩ := exists_read?_eq placed.link (by omega)
      obtain ⟨lowRead, highRead⟩ := read record.start 0 rfl
      rw [lines?, sum?_eq (by omega), lowRead, highRead]
      simp only [Option.bind_eq_bind, Option.bind_some, ← link, line?_eq placed small]
      rw [if_neg (by omega), if_pos larger, hypothesis remaining (by omega), Option.bind_some]
      rfl

end Records

theorem decode?_eq {image : Bytes} (small : image.length + 6 < wordLimit) :
    decode? image = some (Program.decode image) := by
  rw [decode?, lines?_eq (follow_records image) (by omega) small, Option.map_some]
  rfl

end Applesoft.Checked
