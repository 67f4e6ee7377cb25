namespace Applesoft

/-- How a listing is laid out and which sections it has. -/
structure Options where
  /-- Begin with the name, the length and the load address. -/
  showHeader : Bool := true
  /-- Mark the sources and the targets of jumps, in a gutter before the line numbers. -/
  showTargets : Bool := false
  /-- Leave the number of a line blank if no jump goes there. -/
  onlyShowTargetLineNumbers : Bool := false
  /-- Align the equals signs of consecutive assignments. -/
  alignAssign : Bool := true
  /-- Start a new row for a remark that follows other statements. -/
  splitRem : Bool := false
  /-- Delete the extra space after REM. -/
  deleteExtraRemSpace : Bool := false
  /-- Delete the extra space after DATA. -/
  deleteExtraDataSpace : Bool := false
  /-- Put each array of a DIM statement on its own row. -/
  splitDim : Bool := false
  /-- The width at which remarks are wrapped; zero means never. -/
  wrapRemAt : Nat := 60
  /-- The width at which DATA items are wrapped; zero means never. -/
  wrapDataAt : Nat := 60
  /-- The width at which the literal of a PRINT or INPUT is wrapped; zero means never. -/
  wrapPrintAt : Nat := 0
  /-- Append the sources of each jump target. -/
  showXref : Bool := false
  /-- Append the variables and the names that are not unique. -/
  showSymbols : Bool := false
  /-- Append the string literals. -/
  listStrings : Bool := false
  /-- Put a blank row after a line with a RETURN. -/
  blankAfterReturn : Bool := false
  /-- Spell out THEN; otherwise an implied jump is shown as a GOTO. -/
  showThen : Bool := true
  /-- Show control characters with a caret; otherwise they are left out. -/
  showCaret : Bool := false
  deriving DecidableEq, Repr, Inhabited

end Applesoft
