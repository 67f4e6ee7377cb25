import Applesoft.Options

namespace Applesoft.Command

/-- A flag that sets one option of a listing one way. -/
inductive Switch where
  | targets
  | onlyTargets
  | noHeader
  | noAlign
  | splitRem
  | splitDim
  | trimRem
  | trimData
  | xref
  | symbols
  | strings
  | blankAfterReturn
  | hideThen
  | caret
  deriving DecidableEq, Repr

namespace Switch

def all : List Switch :=
  [.targets, .onlyTargets, .noHeader, .noAlign, .splitRem, .splitDim, .trimRem,
    .trimData, .xref, .symbols, .strings, .blankAfterReturn, .hideThen, .caret]

def name : Switch → String
  | .targets => "targets"
  | .onlyTargets => "only-targets"
  | .noHeader => "no-header"
  | .noAlign => "no-align"
  | .splitRem => "split-rem"
  | .splitDim => "split-dim"
  | .trimRem => "trim-rem"
  | .trimData => "trim-data"
  | .xref => "xref"
  | .symbols => "symbols"
  | .strings => "strings"
  | .blankAfterReturn => "blank-after-return"
  | .hideThen => "hide-then"
  | .caret => "caret"

def apply (options : Options) : Switch → Options
  | .targets => { options with showTargets := true }
  | .onlyTargets => { options with onlyShowTargetLineNumbers := true }
  | .noHeader => { options with showHeader := false }
  | .noAlign => { options with alignAssign := false }
  | .splitRem => { options with splitRem := true }
  | .splitDim => { options with splitDim := true }
  | .trimRem => { options with deleteExtraRemSpace := true }
  | .trimData => { options with deleteExtraDataSpace := true }
  | .xref => { options with showXref := true }
  | .symbols => { options with showSymbols := true }
  | .strings => { options with listStrings := true }
  | .blankAfterReturn => { options with blankAfterReturn := true }
  | .hideThen => { options with showThen := false }
  | .caret => { options with showCaret := true }

end Switch

inductive Width where
  | rem
  | data
  | print
  deriving DecidableEq, Repr

namespace Width

def all : List Width :=
  [.rem, .data, .print]

def name : Width → String
  | .rem => "wrap-rem"
  | .data => "wrap-data"
  | .print => "wrap-print"

def apply (columns : Nat) (options : Options) : Width → Options
  | .rem => { options with wrapRemAt := columns }
  | .data => { options with wrapDataAt := columns }
  | .print => { options with wrapPrintAt := columns }

end Width

end Applesoft.Command
