import Applesoft.Lexeme

/-!
The division of a line into statements. A statement ends behind a colon and before a remark. An IF
whose THEN or GOTO is still to come also ends behind that THEN or before that GOTO, so that the
conditional statement stands alone. Bytes inside literals and remarks divide nothing.

The main statement is that the segments of a line spell its lexemes, so that no byte is lost or
counted twice.
-/

namespace Applesoft

structure Segment where
  lexemes : List Lexeme
  /-- Whether a colon ended the stretch; the colon is not among its lexemes. -/
  separated : Bool
  deriving DecidableEq, Repr

namespace Segment

def body (segment : Segment) : Bytes :=
  Lexeme.spell segment.lexemes

/-- The bytes of the whole stretch, the colon included. -/
def span (segment : Segment) : Bytes :=
  segment.body ++ if segment.separated then [Punctuation.colon] else []

end Segment

/-- What dividing a line yields, in the order of the line. -/
inductive Mark where
  | segment (segment : Segment)
  /-- An IF with neither THEN nor GOTO ends here. -/
  | unfinishedIf
  /-- A remark begins here, inside a statement. -/
  | strayRemark
  deriving DecidableEq, Repr

namespace Mark

/-- The stretch of lexemes gathered so far, last one first, unless it is empty. -/
def flush : List Lexeme → List Mark
  | [] => []
  | gathered => [.segment ⟨gathered.reverse, false⟩]

def unfinished (awaiting : Bool) : List Mark :=
  if awaiting then [.unfinishedIf] else []

/-- Divides the lexemes that follow those gathered, last one first, in the current stretch.
`awaiting` says that the stretch has an IF whose THEN or GOTO is still to come. -/
def divideFrom : Bool → List Lexeme → List Lexeme → List Mark
  | awaiting, gathered, [] => unfinished awaiting ++ flush gathered
  | awaiting, gathered, .literal contents :: rest =>
      divideFrom awaiting (.literal contents :: gathered) rest
  | awaiting, gathered, .remark contents :: rest =>
      (if gathered.isEmpty then [] else [.strayRemark]) ++ flush gathered ++
        unfinished awaiting ++
        .segment ⟨[.remark contents], false⟩ :: divideFrom false [] rest
  | awaiting, gathered, .code byte :: rest =>
      if byte = Punctuation.colon then
        unfinished awaiting ++
          .segment ⟨gathered.reverse, true⟩ :: divideFrom false [] rest
      else if byte = Keyword.ifToken then
        divideFrom true (.code byte :: gathered) rest
      else if awaiting && byte = Keyword.thenToken then
        .segment ⟨(.code byte :: gathered).reverse, false⟩ :: divideFrom false [] rest
      else if awaiting && byte = Keyword.gotoToken then
        flush gathered ++ divideFrom false [.code byte] rest
      else
        divideFrom awaiting (.code byte :: gathered) rest

def divide (lexemes : List Lexeme) : List Mark :=
  divideFrom false [] lexemes

def segments (marks : List Mark) : List Segment :=
  marks.filterMap fun mark =>
    match mark with
    | .segment stretch => some stretch
    | _ => none

theorem segments_append (left right : List Mark) :
    segments (left ++ right) = segments left ++ segments right := by
  simp [segments]

theorem segments_unfinished (awaiting : Bool) :
    segments (unfinished awaiting) = [] := by
  cases awaiting <;> simp [unfinished, segments]

theorem segments_cons (stretch : Segment) (rest : List Mark) :
    segments (.segment stretch :: rest) = stretch :: segments rest := by
  simp [segments]

theorem segments_stray (gathered : List Lexeme) :
    segments (if gathered.isEmpty then [] else [.strayRemark]) = [] := by
  split
  · rfl
  · rfl

theorem flatMap_span_flush (gathered : List Lexeme) :
    (segments (flush gathered)).flatMap Segment.span =
      Lexeme.spell gathered.reverse := by
  cases gathered with
  | nil => simp [flush, segments, Lexeme.spell]
  | cons lexeme rest =>
      simp [flush, segments, Segment.span, Segment.body]

theorem flatMap_span_divideFrom
    (awaiting : Bool) (gathered lexemes : List Lexeme) :
    (segments (divideFrom awaiting gathered lexemes)).flatMap Segment.span =
      Lexeme.spell (gathered.reverse ++ lexemes) := by
  induction lexemes generalizing awaiting gathered with
  | nil =>
      simp [divideFrom, segments_append, segments_unfinished, flatMap_span_flush]
  | cons lexeme rest hypothesis =>
      cases lexeme with
      | literal contents =>
          rw [divideFrom, hypothesis]
          simp
      | remark contents =>
          rw [divideFrom]
          simp only [segments_append, segments_unfinished, segments_cons, segments_stray,
            List.flatMap_append, List.flatMap_cons, flatMap_span_flush, hypothesis,
            List.nil_append, Segment.span, Segment.body]
          simp [Lexeme.spell]
      | code byte =>
          rw [divideFrom]
          split
          · next isColon =>
              simp only [segments_append, segments_unfinished, segments_cons,
                List.flatMap_cons, hypothesis, List.nil_append, Segment.span,
                Segment.body]
              simp [Lexeme.spell, Lexeme.bytes, isColon]
          · split
            · rw [hypothesis]
              simp
            · split
              · simp only [segments_cons, List.flatMap_cons, hypothesis, Segment.span,
                  Segment.body]
                simp [Lexeme.spell]
              · split
                · simp only [segments_append, List.flatMap_append, flatMap_span_flush,
                    hypothesis]
                  simp [Lexeme.spell]
                · rw [hypothesis]
                  simp

/-- The stretches of a line spell it. -/
theorem flatMap_span_divide (lexemes : List Lexeme) :
    (segments (divide lexemes)).flatMap Segment.span = Lexeme.spell lexemes := by
  simpa [divide] using flatMap_span_divideFrom false [] lexemes

end Mark

end Applesoft
