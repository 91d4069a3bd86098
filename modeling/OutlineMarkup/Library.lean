import OutlineMarkup.Library.Modules

/-!
# Files

The files that belong to a document, and where a name is looked up: in a directory among them, or
among the shipped modules.
-/

namespace OutlineMarkup

abbrev Files := List (Text × Text)

inductive Place where
  | project (directory : List Text)
  | library
  deriving Repr, DecidableEq

namespace Library

def isAbsolute (path : Text) : Bool := path.head? == some '/'

/-- Follows one part of a path. The root is an empty part; `..` goes up where it can. -/
def follow (directory : List Text) (part : Text) : List Text :=
  if part.isEmpty || part == "." then directory
  else if part == ".." then
    match directory.getLast? with
    | none => [part]
    | some [] => directory
    | some last => if last == ".." then directory ++ [part] else directory.dropLast
  else directory ++ [part]

def resolve (directory : List Text) (path : Text) : List Text :=
  (path.splitAtChar '/').foldl follow (if isAbsolute path then [[]] else directory)

def normal (path : Text) : Text := Text.join "/" (resolve [] path)

def read? (files : Files) (place : Place) (path : Text) : Option Text :=
  let lookUp (all : Files) (parts : List Text) : Option Text :=
    (all.find? fun (name, _) => resolve [] name == parts).map (·.2)
  match place with
  | .project directory => lookUp files (resolve directory path)
  | .library => lookUp modules (resolve [] path)

def size (files : Files) : Nat := files.foldr (fun (_, text) n => text.length + n) 0

def directoryOf (path : Text) : List Text :=
  match path.cutLast? "/" with
  | some (directory, _) => resolve [] (directory ++ ['/'])
  | none => []

end Library
end OutlineMarkup
