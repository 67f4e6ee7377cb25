import Applesoft.Text

/-!
Three ways to break the text of a long statement into pieces. The caller decides how the pieces are
indented.

A line is broken at a character, as late as the width allows. The arrays of a DIM statement are told
apart by a small grammar. A literal is cut into parts of one length.
-/

namespace Applesoft.Wrapping

/-- The greatest index up to a bound, and above a floor, that holds a character. -/
def lastIndex? (text : Text) (wanted : Char) (floor : Nat) : Nat → Option Nat
  | 0 => none
  | index + 1 =>
      if index + 1 ≤ floor then none
      else if text[index + 1]? = some wanted then some (index + 1)
      else lastIndex? text wanted floor index

theorem floor_lt_lastIndex?
    {text : Text} {wanted : Char} {floor bound index : Nat}
    (found : lastIndex? text wanted floor bound = some index) :
    floor < index ∧ text[index]? = some wanted := by
  induction bound with
  | zero => simp [lastIndex?] at found
  | succ bound hypothesis =>
      rw [lastIndex?] at found
      split at found
      · simp at found
      · next above =>
          split at found
          · next holds =>
              obtain rfl := Option.some.inj found
              exact ⟨by omega, holds⟩
          · exact hypothesis found

/-- The characters of a piece that stay with a break: a space is dropped, anything else is kept. -/
def kept (breaker : Char) : Nat :=
  if breaker = ' ' then 0 else 1

/-- Breaks a text whose first word ends at the floor. -/
def splitFrom (width : Nat) (breaker : Char) (floor : Nat) (text : Text) : List Text :=
  if width = 0 ∨ text.length ≤ width then
    [text]
  else
    match _found : lastIndex? text breaker floor (width - kept breaker) with
    | none => [text]
    | some index =>
        text.take (index + kept breaker) ::
          splitFrom width breaker floor (Text.spaces (floor + 1) ++ text.drop (index + 1))
termination_by text.length
decreasing_by
  obtain ⟨above, holds⟩ := floor_lt_lastIndex? _found
  obtain ⟨within, _⟩ := List.getElem?_eq_some_iff.1 holds
  simp only [List.length_append, Text.length_spaces, List.length_drop]
  omega

/-- Breaks a line into pieces of at most a width; zero means any width. Later pieces are indented
behind the first word of the line, and no break falls into that part. If there is no place for a
break the rest of the line stays whole. -/
def splitLine (width : Nat) (breaker : Char) (line : Text) : List Text :=
  splitFrom width breaker ((line.findIdx? (· = ' ')).getD line.length) line

def isUpperLetter (character : Char) : Bool :=
  'A' ≤ character && character ≤ 'Z'

def isStemCharacter (character : Char) : Bool :=
  isUpperLetter character || character.isDigit

def isParenthesis (character : Char) : Bool :=
  character = '(' || character = ')'

/-- Takes a character of a class off the front of a text, if there is one. -/
def takeOptional (taken : Char → Bool) : Text → Text × Text
  | [] => ([], [])
  | character :: rest =>
      if taken character then ([character], rest) else ([], character :: rest)

/-- Takes an array off the front of a text: a name, an optional type suffix, subscripts between
parentheses without any others inside, and an optional comma or colon. -/
def takeArray? : Text → Option (Text × Text)
  | [] => none
  | first :: rest =>
      if isUpperLetter first then
        let stem := rest.takeWhile isStemCharacter
        let (suffix, behindName) :=
          takeOptional (fun taken => taken = '$' || taken = '%')
            (rest.dropWhile isStemCharacter)
        match behindName with
        | '(' :: inside =>
            match inside.dropWhile fun inner => !isParenthesis inner with
            | ')' :: behind =>
                let subscripts := inside.takeWhile fun inner => !isParenthesis inner
                let (separator, remaining) :=
                  takeOptional (fun taken => taken = ',' || taken = ':') behind
                some (first :: stem ++ suffix ++ '(' :: subscripts ++ ')' :: separator,
                  remaining)
            | _ => none
        | _ => none
      else
        none

theorem length_takeOptional_le (taken : Char → Bool) (text : Text) :
    (takeOptional taken text).2.length ≤ text.length := by
  unfold takeOptional
  split
  · simp
  · split <;> simp

theorem length_takeArray?_lt
    {text array rest : Text}
    (found : takeArray? text = some (array, rest)) :
    rest.length < text.length := by
  unfold takeArray? at found
  split at found
  · simp at found
  · next first tail =>
      split at found
      · have stemLength := (List.dropWhile_sublist isStemCharacter (l := tail)).length_le
        have suffixLength :=
          length_takeOptional_le (fun taken => taken = '$' || taken = '%')
            (tail.dropWhile isStemCharacter)
        simp only at found
        split at found
        · next inside named =>
            split at found
            · next behind closed =>
                have insideLength :=
                  (List.dropWhile_sublist (fun inner => !isParenthesis inner)
                    (l := inside)).length_le
                have separatorLength :=
                  length_takeOptional_le (fun taken => taken = ',' || taken = ':') behind
                simp only [Option.some.injEq, Prod.mk.injEq] at found
                obtain ⟨_, rfl⟩ := found
                rw [closed] at insideLength
                rw [named] at suffixLength
                simp only [List.length_cons] at *
                omega
            · simp at found
        · simp at found
      · simp at found

/-- The arrays that a text consists of, if it consists of arrays. -/
def arrays? (text : Text) : Option (List Text) :=
  if text.isEmpty then
    some []
  else
    match _found : takeArray? text with
    | none => none
    | some (array, rest) => (arrays? rest).map (array :: ·)
termination_by text.length
decreasing_by exact length_takeArray?_lt _found

/-- Puts each array of a DIM statement into a piece of its own. There are no pieces unless the
statement consists of arrays. -/
def splitDim (line : Text) : Option (List Text) :=
  if "DIM ".toList.isPrefixOf line then
    match arrays? (line.drop 4) with
    | some (first :: others) =>
        some (("DIM ".toList ++ first) :: others.map fun array => Text.spaces 4 ++ array)
    | _ => none
  else
    none

/-- Cuts a literal into parts of a length; the last part goes with what follows the literal. -/
def chunks (width : Nat) (literal behind : Text) : List Text :=
  if width = 0 ∨ literal.length ≤ width then
    [literal ++ behind]
  else
    literal.take width :: chunks width (literal.drop width) behind
termination_by literal.length

/-- The characters of a PRINT or INPUT before its literal, the quote included. -/
def leadLength : Nat :=
  7

/-- Whether a statement is a PRINT or INPUT that begins with a literal. -/
def beginsWithLiteral (line : Text) : Bool :=
  "PRINT \"".toList.isPrefixOf line || "INPUT \"".toList.isPrefixOf line

/-- Cuts the literal that a PRINT or INPUT begins with into parts of a length; later parts stand
below the first one. There are no pieces if the literal is not closed or not longer than a part. -/
def splitPrint (width : Nat) (line : Text) : Option (List Text) :=
  if width ≠ 0 ∧ beginsWithLiteral line then
    let rest := line.drop leadLength
    let literal := rest.takeWhile (· ≠ '"')
    if literal.length < rest.length ∧ width < literal.length then
      match chunks width literal (rest.drop literal.length) with
      | first :: others =>
          some ((line.take leadLength ++ first) ::
            others.map fun part => Text.spaces leadLength ++ part)
      | [] => none
    else
      none
  else
    none

end Applesoft.Wrapping
