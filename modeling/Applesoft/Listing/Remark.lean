import Applesoft.Fragment
import Applesoft.Options

/-!
Remarks that are more than a line of text. Bytes above 127 in a remark are machine code and are
shown as assembly source. Control characters lay out the text of a remark: a backspace takes back a
character, a return begins a new row.
-/

namespace Applesoft.Listing

/-- Turns machine code at an address into rows of source. -/
abbrev Disassembler := Nat → Bytes → List Text

inductive RemarkForm where
  /-- As a text like that of any statement. -/
  | plain
  /-- As text with a layout of its own. -/
  | prose
  | code
  deriving DecidableEq, Repr

/-- The form in which a fragment is shown; only remarks have a form of their own. -/
def remarkForm (fragment : Fragment) : RemarkForm :=
  if !fragment.isRemark then .plain
  else if fragment.containsToken then .code
  else if fragment.containsControl then .prose
  else .plain

/-- The rows of machine code in a remark, which begins behind the token of the remark. The margin
stands before the first row, and the others are indented behind it. -/
def codeRows (disassembler : Disassembler) (loadAddress : Nat) (margin : Text)
    (fragment : Fragment) : List Text :=
  let address := loadAddress + fragment.start + 1
  (margin ++ "REM - Inline assembler @ $".toList ++ Numeral.hex 2 address ++
      " (".toList ++ Numeral.decimal address ++ [')']) ::
    (disassembler address fragment.arguments).map fun row =>
      Text.spaces (margin.length + 2) ++ row

/-- Types bytes behind a text, whose last character comes first. -/
def typeBytes (options : Options) : Text → Bytes → Text
  | typed, [] => typed
  | typed, byte :: rest =>
      if byte = 0x08 then
        typeBytes options typed.tail rest
      else if byte = 0x0D then
        typeBytes options ('\n' :: typed) rest
      else if isControl byte then
        if options.showCaret then
          typeBytes options (toCharacter (byte + 64) :: '^' :: typed) rest
        else
          typeBytes options typed rest
      else if Keyword.isToken byte then
        typeBytes options typed rest
      else
        typeBytes options (toCharacter byte :: typed) rest

/-- The rows of a remark with a layout of its own. Its backspaces may reach into the margin and into
rows before. -/
def proseRows (options : Options) (margin : Text) (fragment : Fragment) : List Text :=
  Text.fields '\n'
    (typeBytes options (margin ++ "REM ".toList).reverse fragment.arguments).reverse

end Applesoft.Listing
