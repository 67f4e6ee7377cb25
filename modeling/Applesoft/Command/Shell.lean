import Applesoft.Text

namespace Applesoft.Command

/-- The shells for which names can be completed. -/
inductive Shell where
  | bash
  | elvish
  | fish
  | powerShell
  | zsh
  deriving DecidableEq, Repr

namespace Shell

def all : List Shell :=
  [.bash, .elvish, .fish, .powerShell, .zsh]

def name : Shell → String
  | .bash => "bash"
  | .elvish => "elv"
  | .fish => "fish"
  | .powerShell => "ps1"
  | .zsh => "zsh"

def names : List String :=
  all.map name

def ofName? (text : Text) : Option Shell :=
  all.find? fun shell => shell.name.toList = text

end Shell

end Applesoft.Command
