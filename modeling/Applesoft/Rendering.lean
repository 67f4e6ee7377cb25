import Applesoft.Keyword
import Applesoft.Options
import Applesoft.Text.Numeral

/-!
Statement bytes as text. A token stands apart from what precedes it, so a space goes before its
word unless the text so far is empty or ends in a space.

The rendering of a byte depends on the text before it only through that one condition. The main
statement says so: rendering a concatenation renders the second part from the condition that the
first one leaves.
-/

namespace Applesoft.Rendering

/-- The word shown for a token: its keyword, nothing for a THEN that is not spelled out, and an
escape for a token without a keyword. -/
def word (options : Options) (token : UInt8) : Text :=
  if token = Keyword.thenToken && !options.showThen then
    []
  else
    match Keyword.spelling? token with
    | some spelling => spelling
    | none => '\\' :: 'x' :: Numeral.hexLower 2 token.toNat

/-- What a byte adds to the text. The text before it is settled if it is empty or ends in a
space. -/
def piece (options : Options) (settled : Bool) (byte : UInt8) : Text :=
  if Keyword.isToken byte then
    (if settled then [] else [' ']) ++ word options byte
  else if isControl byte then
    if options.showCaret then ['^', toCharacter (byte + 64)] else []
  else
    [toCharacter byte]

/-- Whether a text is settled after a piece has been added. -/
def settledAfter (settled : Bool) (added : Text) : Bool :=
  if added.isEmpty then settled else added.getLast? = some ' '

/-- The text of bytes that follow a text, given whether that text is settled. -/
def renderFrom (options : Options) : Bool → Bytes → Text
  | _, [] => []
  | settled, byte :: rest =>
      piece options settled byte ++
        renderFrom options (settledAfter settled (piece options settled byte)) rest

def render (options : Options) (bytes : Bytes) : Text :=
  renderFrom options true bytes

theorem settledAfter_append (settled : Bool) (left right : Text) :
    settledAfter settled (left ++ right) =
      settledAfter (settledAfter settled left) right := by
  unfold settledAfter
  cases right with
  | nil => simp
  | cons head tail =>
      have nonempty : (left ++ head :: tail).isEmpty = false := by simp
      simp [nonempty, List.getLast?_append]

/-- Rendering goes on from the condition that the text so far leaves. -/
theorem renderFrom_append
    (options : Options) (settled : Bool) (left right : Bytes) :
    renderFrom options settled (left ++ right) =
      renderFrom options settled left ++
        renderFrom options
          (settledAfter settled (renderFrom options settled left)) right := by
  induction left generalizing settled with
  | nil => simp [renderFrom, settledAfter]
  | cons byte rest hypothesis =>
      simp only [List.cons_append, renderFrom, hypothesis, settledAfter_append,
        List.append_assoc]

end Applesoft.Rendering
