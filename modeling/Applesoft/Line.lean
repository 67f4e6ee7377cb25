import Applesoft.Fragment
import Applesoft.Record
import Applesoft.Segment
import Applesoft.Variable

namespace Applesoft

/-- A record divided into fragments, with what their reading brings to light. -/
structure Line where
  record : Record
  fragments : List Fragment
  /-- What the line contributes to the tables of the program, in the order it is met. -/
  findings : List Finding
  deriving DecidableEq, Repr

/-- The fragments that segments form from an offset on. -/
def placeSegments : Nat → Bool → List Segment → List Fragment
  | _, _, [] => []
  | offset, first, segment :: rest =>
      let stop := offset + segment.span.length
      { start := offset
        stop := stop
        first := first
        body := segment.body
        statement := Statement.ofBody segment.body } :: placeSegments stop false rest

/-- The findings of a segment: those of its statement, then its references to variables. -/
def Segment.findings (segment : Segment) : List Finding :=
  let statement := Statement.ofBody segment.body
  statement.findings ++
    if statement.hasVariables then
      (Variable.names segment.lexemes).map Finding.reference
    else
      []

def Mark.findings : Mark → List Finding
  | .segment stretch => stretch.findings
  | .unfinishedIf => [.anomaly .ifWithoutThen]
  | .strayRemark => [.anomaly .midLineRem]

namespace Line

def ofRecord (record : Record) : Line :=
  let lexemes := Lexeme.scan record.payload
  let marks := Mark.divide lexemes
  { record := record
    fragments := placeSegments record.payloadStart true (Mark.segments marks)
    findings :=
      ((Lexeme.literals lexemes).map fun contents => .literal (Utf8.decode contents)) ++
        marks.flatMap Mark.findings ++
        if record.terminated then [] else [.anomaly .unterminatedLine] }

def number (line : Line) : UInt16 :=
  line.record.number

def visible (line : Line) : List Fragment :=
  line.fragments.filter fun fragment => !fragment.isEmpty

/-- Whether the fragment at an index is a remark behind a statement that a listing shows. -/
def isJoinableRemark (line : Line) (index : Nat) : Bool :=
  line.fragments[index]?.any Fragment.isRemark &&
    (line.fragments.take index).any fun fragment => !fragment.isEmpty

end Line

theorem map_body_placeSegments (offset : Nat) (first : Bool) (segments : List Segment) :
    (placeSegments offset first segments).map Fragment.body =
      segments.map Segment.body := by
  induction segments generalizing offset first with
  | nil => rfl
  | cons segment rest hypothesis => simp [placeSegments, hypothesis]

end Applesoft
