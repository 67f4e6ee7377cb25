import Applesoft.Text

/-!
Directories held in memory. A path is followed step by step from the directory; each step but the
last has to lead to a directory, and no path leads out of it. Where a file is written, the
directories that its path passes through are made.
-/

namespace Applesoft.Command

abbrev Place := List Text

namespace Place

/-- Whether a step of a path leads from one place to another. An empty step or a dot does not. -/
def isMove (step : Text) : Bool :=
  !(step.isEmpty || step = ['.'])

/-- The place that one step of a path leads to. Two dots go back. -/
def step? (place : Place) (step : Text) : Option Place :=
  if !isMove step then some place
  else if step = ['.', '.'] then
    if place.isEmpty then none else some place.dropLast
  else some (place ++ [step])

end Place

structure Directory where
  directories : List Place := []
  files : List (Place × Bytes) := []
  deriving DecidableEq, Repr

namespace Directory

/-- Whether a place is a directory; the directory itself always is one. -/
def isDirectory (directory : Directory) (place : Place) : Bool :=
  place.isEmpty || directory.directories.contains place

def follow (directory : Directory) : Place → List Text → Option Place
  | place, [] => some place
  | place, step :: rest =>
      if directory.isDirectory place then
        match place.step? step with
        | some next => directory.follow next rest
        | none => none
      else
        none

def read (directory : Directory) (path : Text) : Option Bytes :=
  match path with
  | [] => none
  | '/' :: _ => none
  | _ => (directory.follow [] (Text.fields '/' path)).bind fun place =>
      directory.files.lookup place

def makeDirectory (directory : Directory) (place : Place) : Directory :=
  if directory.isDirectory place then directory
  else { directory with directories := place :: directory.directories }

/-- Follows the rest of a path from a place, and makes every directory that it passes through. -/
def makeDirectories (directory : Directory) :
    Place → List Text → Option (Directory × Place)
  | place, [] => some (directory, place)
  | place, step :: rest =>
      match place.step? step with
      | some next => (directory.makeDirectory next).makeDirectories next rest
      | none => none

def write (directory : Directory) (path : Text) (contents : Bytes) : Directory :=
  let steps := (Text.fields '/' path).filter Place.isMove
  match directory.makeDirectories [] steps.dropLast, steps.getLast? with
  | some (made, place), some name =>
      { made with files := (place ++ [name], contents) :: made.files }
  | _, _ => directory

/-- The directory with files written at relative paths, one after the other. -/
def ofPaths (files : List (Text × Bytes)) : Directory :=
  files.foldl (fun directory file => directory.write file.1 file.2) {}

end Directory

end Applesoft.Command
