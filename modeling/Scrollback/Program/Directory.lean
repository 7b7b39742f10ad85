import Scrollback.Program.Basic

/-!
This module contains surroundings of the program that are given by data alone: a directory with
files, environment variables and standard input.
-/

namespace Scrollback

namespace Program

structure Directory where
  files : List (List String × ByteArray)

namespace Directory

def names (path : String) : List String :=
  (path.splitOn "/").filter fun name => name ≠ "" && name ≠ "."

def ofFiles (files : List (String × ByteArray)) : Directory where
  files := files.map fun (path, bytes) => (names path, bytes)

def isDirectory (directory : Directory) (names : List String) : Bool :=
  names = [] || directory.files.any fun (file, _) => names.isPrefixOf file && names ≠ file

/--
Follow names from the place that `place` leads to, as long as these are directories. Two dots lead
back, but not out of the directory.
-/
def follow (directory : Directory) (place : List String) : List String → Option (List String)
  | [] => some place
  | name :: path =>
    if !directory.isDirectory place then none
    else if name = "" || name = "." then follow directory place path
    else if name = ".." then
      if place = [] then none else follow directory place.dropLast path
    else follow directory (place ++ [name]) path

def read? (directory : Directory) (path : String) : Option ByteArray :=
  if path.startsWith "/" then
    none
  else do
    let place ← directory.follow [] (path.splitOn "/")
    directory.files.lookup place

end Directory

def Host.ofData (directory : Directory) (environment : List (String × String)) (input : ByteArray) :
    Host Id where
  readFile path := directory.read? path
  readInput := input
  environment name := environment.lookup name

end Program

end Scrollback
