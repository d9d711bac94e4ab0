import Estree.CommandLine.Run

/-!
# Runs in a directory

The simplest surroundings of a run: it is started in a directory that holds some files, and the file
system has nothing else. Absolute paths and those with other directories lead nowhere then.
-/

namespace Estree.CommandLine

/-- A directory with files right in it, by name. -/
structure Directory where
  files : List (String × ByteArray)

/-- The parts of a path between slashes. -/
def pathParts (path : List Char) : List (List Char) :=
  path.foldr
    (fun c parts =>
      if c = '/' then [] :: parts
      else
        match parts with
        | [] => [[c]]
        | part :: rest => (c :: part) :: rest)
    [[]]

namespace Directory

/-- Whether a part of a path names no file. -/
def isTransparent (part : List Char) : Bool :=
  part == [] || part == ['.'] || part == ['.', '.']

/-- What a path leads to. The directory, what is above it, and the root are directories; below a
file there is nothing. -/
def look (directory : Directory) (path : String) : Content :=
  let parts := pathParts path.toList
  if parts.all isTransparent then
    .directory
  else
    match if parts.head? = some [] then parts else parts.dropWhile (fun p => p == [] || p == ['.'])
    with
    | [name] =>
      match directory.files.lookup (String.ofList name) with
      | some bytes => .bytes bytes
      | none => .missing
    | _ => .missing

/-- The files of the directory, and some bytes on standard input. -/
def surroundings (directory : Directory) (standardInput : ByteArray) : Surroundings :=
  ⟨directory.look, .bytes standardInput⟩

/-- Runs the program in the directory. -/
def run? (directory : Directory) (standardInput : ByteArray) (arguments : List String) :
    Option Report :=
  (directory.surroundings standardInput).run? arguments

end Directory

end Estree.CommandLine
