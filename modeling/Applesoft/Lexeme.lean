import Applesoft.Keyword

/-!
The lexical structure of a line. Its payload is a sequence of single code bytes, string literals
and, at its end, at most one remark. A literal runs from a quote through the next one, or to the end
of the line. A remark runs from a REM token outside of literals to the end of the line.

The main statement is that the lexemes of a payload spell the payload.
-/

namespace Applesoft

inductive Lexeme where
  | code (byte : UInt8)
  /-- A string literal with its quotes; the closing one may be missing. -/
  | literal (bytes : Bytes)
  | remark (bytes : Bytes)
  deriving DecidableEq, Repr

namespace Lexeme

def bytes : Lexeme → Bytes
  | .code byte => [byte]
  | .literal contents => contents
  | .remark contents => contents

def spell (lexemes : List Lexeme) : Bytes :=
  lexemes.flatMap bytes

/-- Reads on after the bytes of a literal that is still open, last byte first, or outside of
literals if there is none. -/
def scanFrom : Option Bytes → Bytes → List Lexeme
  | none, [] => []
  | some opened, [] => [.literal opened.reverse]
  | some opened, byte :: rest =>
      if byte = Punctuation.quote then
        .literal (byte :: opened).reverse :: scanFrom none rest
      else
        scanFrom (some (byte :: opened)) rest
  | none, byte :: rest =>
      if byte = Keyword.remToken then
        [.remark (byte :: rest)]
      else if byte = Punctuation.quote then
        scanFrom (some [byte]) rest
      else
        .code byte :: scanFrom none rest

def scan (payload : Bytes) : List Lexeme :=
  scanFrom none payload

/-- The bytes of a literal that lexemes contain, in order. -/
def literals (lexemes : List Lexeme) : List Bytes :=
  lexemes.filterMap fun lexeme =>
    match lexeme with
    | .literal contents => some contents
    | _ => none

theorem spell_cons (lexeme : Lexeme) (rest : List Lexeme) :
    spell (lexeme :: rest) = lexeme.bytes ++ spell rest := by
  simp [spell]

theorem spell_append (left right : List Lexeme) :
    spell (left ++ right) = spell left ++ spell right := by
  simp [spell]

theorem spell_scanFrom (opened : Option Bytes) (payload : Bytes) :
    spell (scanFrom opened payload) = (opened.getD []).reverse ++ payload := by
  induction payload generalizing opened with
  | nil => cases opened <;> simp [scanFrom, spell, bytes]
  | cons byte rest hypothesis =>
      cases opened with
      | none =>
          rw [scanFrom]
          split
          · simp [spell, bytes]
          · split
            · simp [hypothesis]
            · simp [spell_cons, bytes, hypothesis]
      | some contents =>
          rw [scanFrom]
          split <;> simp [spell_cons, bytes, hypothesis]

theorem spell_scan (payload : Bytes) :
    spell (scan payload) = payload := by
  simpa [scan] using spell_scanFrom none payload

end Lexeme

end Applesoft
