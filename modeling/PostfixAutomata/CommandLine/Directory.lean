set_option autoImplicit false

/-!
A working directory that holds some files, and what a path into it leads to. Nothing is known
outside of the directory except that the places above it are directories too.
-/

namespace PostfixAutomata

/-- Why a path does not open. -/
inductive OpenError
  | notFound
  | notADirectory
deriving DecidableEq

def OpenError.message : OpenError → String
  | notFound => "No such file or directory (os error 2)"
  | notADirectory => "Not a directory (os error 20)"

/-- What a path leads to. -/
inductive Node
  | file (content : List UInt8)
  | directory
deriving DecidableEq

/-- Files by their names, each name cut at its slashes. -/
structure Directory where
  files : List (List String × List UInt8)

namespace Directory

/-- A place that a path has led to. -/
inductive Place
  /-- Inside of the directory, by the names on the way. -/
  | inside (names : List String)
  /-- Above the directory. -/
  | outside

def Place.parent : Place → Place
  | inside [] => outside
  | inside names => inside names.dropLast
  | outside => outside

/-- What is at a place. The directories are those that the names of the files run through. -/
def nodeAt (d : Directory) : Place → Option Node
  | .outside => some .directory
  | .inside names =>
    match d.files.lookup names with
    | some content => some (.file content)
    | none =>
      if names = [] ∨ d.files.any (fun (name, _) => names.isPrefixOf name) then some .directory
      else none

/-- Goes on from a place, one name at a time. Only a directory can be passed through. -/
def follow (d : Directory) (place : Place) : List String → Except OpenError Node
  | [] => (d.nodeAt place).elim (.error .notFound) .ok
  | name :: rest =>
    match d.nodeAt place with
    | none => .error .notFound
    | some (.file _) => .error .notADirectory
    | some .directory =>
      if name = "" ∨ name = "." then d.follow place rest
      else if name = ".." then d.follow place.parent rest
      else
        match place with
        | .inside names => d.follow (.inside (names ++ [name])) rest
        | .outside => .error .notFound

/-- What a path leads to. A path that starts with a slash starts outside of the directory. -/
def resolve (d : Directory) (path : String) : Except OpenError Node :=
  d.follow (if path.startsWith "/" then .outside else .inside []) (path.splitOn "/")

end Directory

end PostfixAutomata
