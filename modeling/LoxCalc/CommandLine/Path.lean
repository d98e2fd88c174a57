/-!
# Paths

A path is absolute or not and has components.  Empty components and single dots
say nothing and are left out, so a slash at the end says nothing either; a
double dot is kept.  A path without anything left is a single dot.

A `FileTree` is a set of files and directories below the working directory, as a
program without access to real files sees them.  Outside the working directory
there is nothing but the directories above it, and above the uppermost one stands
that one itself.
-/

namespace LoxCalc.CommandLine

structure Path where
  /-- What an absolute path begins with, empty for a relative one. -/
  root : String
  components : List String
  deriving DecidableEq, Repr

namespace Path

def splitSlashes : List Char → List (List Char)
  | [] => [[]]
  | c :: rest =>
    match c, splitSlashes rest with
    | '/', parts => [] :: parts
    | c, part :: parts => (c :: part) :: parts
    | c, [] => [[c]]

/-- The root of a path: exactly two slashes are not the same as one. -/
def rootOf : List Char → String
  | '/' :: '/' :: '/' :: _ => "/"
  | '/' :: '/' :: _ => "//"
  | '/' :: _ => "/"
  | _ => ""

def ofText (text : String) : Path where
  root := rootOf text.toList
  components := ((splitSlashes text.toList).map String.ofList).filter fun part =>
    part ≠ "" ∧ part ≠ "."

def text (p : Path) : String :=
  let text := p.root ++ String.intercalate "/" p.components
  if text = "" then "." else text

end Path

inductive ReadError where
  | absent
  | isDirectory
  | notDirectory
  | other (reason : String)
  deriving DecidableEq, Repr

def ReadError.message : ReadError → String
  | .absent => "No such file or directory"
  | .isDirectory => "Is a directory"
  | .notDirectory => "Not a directory"
  | .other reason => reason

/-- A file, or a directory if it has no contents, by its place below the working
directory. -/
structure FileEntry where
  place : List String
  contents : Option (List UInt8)

abbrev FileTree : Type := List FileEntry

namespace FileTree

/-- A file under a name; a name with a slash at the end is a directory. -/
def entry (name : String) (contents : List UInt8) : FileEntry :=
  ⟨(Path.ofText name).components, if name.toList.getLast? = some '/' then none else some contents⟩

/-- What is at a place: a file, a directory, or nothing. -/
def find (tree : FileTree) (place : List String) : Except ReadError (Option (List UInt8)) :=
  match tree.find? (·.place = place) with
  | some e => .ok e.contents
  | none =>
    if place.isEmpty ∨ tree.any (place.isPrefixOf ·.place) then .ok none else .error .absent

/-- The file that is reached by the given components from a directory above the
working directory: none, since only directories are found further up. -/
def readAbove (components : List String) : Except ReadError (List UInt8) :=
  .error (if components.all (· == "..") then .isDirectory else .absent)

def readFrom (tree : FileTree) (directory : List String) :
    List String → Except ReadError (List UInt8)
  | [] => .error .isDirectory
  | component :: rest =>
    if component = ".." then
      if directory.isEmpty then readAbove rest else readFrom tree directory.dropLast rest
    else
      let place := directory ++ [component]
      match tree.find place with
      | .error e => .error e
      | .ok none => readFrom tree place rest
      | .ok (some contents) => if rest.isEmpty then .ok contents else .error .notDirectory

def read (tree : FileTree) (p : Path) : Except ReadError (List UInt8) :=
  if p.root = "" then readFrom tree [] p.components else readAbove p.components

end FileTree

end LoxCalc.CommandLine
