import Applesoft.Text

/-!
The bytes of a tokenized program: the keyword tokens, their spelling, and the punctuation that
separates statements and encloses literals.

A token is a byte above 127. Statement keywords that take arguments and all operators are spelled
with a space behind them, functions are not, so that a statement reads well without further rules.
-/

namespace Applesoft

namespace Keyword

def forToken : UInt8 := 0x81
def nextToken : UInt8 := 0x82
def dataToken : UInt8 := 0x83
def inputToken : UInt8 := 0x84
def dimToken : UInt8 := 0x86
def letToken : UInt8 := 0xAA
def gotoToken : UInt8 := 0xAB
def ifToken : UInt8 := 0xAD
def gosubToken : UInt8 := 0xB0
def returnToken : UInt8 := 0xB1
def remToken : UInt8 := 0xB2
def onToken : UInt8 := 0xB4
def printToken : UInt8 := 0xBA
def thenToken : UInt8 := 0xC4
def equalsToken : UInt8 := 0xD0

/-- The spelling of the tokens, in order from the first token on. -/
def spellings : List String :=
  ["END", "FOR ", "NEXT ", "DATA ", "INPUT ", "DEL ", "DIM ", "READ ", "GR", "TEXT",
    "PR# ", "IN# ", "CALL ", "PLOT ", "HLIN ", "VLIN ", "HGR2", "HGR", "HCOLOR= ",
    "HPLOT ", "DRAW ", "XDRAW ", "HTAB ", "HOME", "ROT= ", "SCALE= ", "SHLOAD",
    "TRACE", "NOTRACE", "NORMAL", "INVERSE", "FLASH", "COLOR= ", "POP", "VTAB ",
    "HIMEM: ", "LOMEM: ", "ONERR ", "RESUME", "RECALL ", "STORE ", "SPEED= ", "LET ",
    "GOTO ", "RUN ", "IF ", "RESTORE", "& ", "GOSUB ", "RETURN", "REM ", "STOP", "ON ",
    "WAIT ", "LOAD ", "SAVE ", "DEF ", "POKE ", "PRINT ", "CONT", "LIST ", "CLEAR",
    "GET ", "NEW", "TAB(", "TO ", "FN ", "SPC(", "THEN ", "AT ", "NOT ", "STEP ", "+ ",
    "- ", "* ", "/ ", "^ ", "AND ", "OR ", "> ", "= ", "< ", "SGN", "INT", "ABS",
    "USR", "FRE", "SCRN(", "PDL", "POS", "SQR", "RND", "LOG", "EXP", "COS", "SIN",
    "TAN", "ATN", "PEEK", "LEN", "STR$", "VAL", "ASC", "CHR$", "LEFT$", "RIGHT$",
    "MID$"]

/-- Whether a byte is a token. Not every token has a keyword. -/
def isToken (byte : UInt8) : Bool :=
  127 < byte

def spelling? (byte : UInt8) : Option Text :=
  if isToken byte then
    spellings[byte.toNat - 128]?.map String.toList
  else
    none

/-- The tokens with a keyword are the 107 from 0x80 to 0xEA. -/
example : spellings.length = 107 := by
  decide

example : spelling? gotoToken = some "GOTO ".toList := by
  decide

end Keyword

namespace Punctuation

def space : UInt8 := 0x20
def quote : UInt8 := 0x22
def dollar : UInt8 := 0x24
def percent : UInt8 := 0x25
def leftParenthesis : UInt8 := 0x28
def colon : UInt8 := 0x3A

end Punctuation

def isControl (byte : UInt8) : Bool :=
  byte < 32

def isDigit (byte : UInt8) : Bool :=
  48 ≤ byte && byte ≤ 57

def isUpper (byte : UInt8) : Bool :=
  65 ≤ byte && byte ≤ 90

/-- The character whose code point is the value of a byte. -/
def toCharacter (byte : UInt8) : Char :=
  Char.ofNat byte.toNat

end Applesoft
