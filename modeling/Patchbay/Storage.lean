import Patchbay.Error

/-! Files under paths. A path is walked name by name, from the root if it begins with a slash and
from the working directory otherwise; whatever another name follows has to be a directory. -/

namespace Patchbay

inductive Stored where
  | directory
  | file (contents : String)
deriving DecidableEq

/-- What stands at each location, given by the names that lead to it from the root. -/
structure Storage where
  workingDirectory : List String
  entries : List (List String × Stored)

namespace Storage

/-- The bytes that a name may have. -/
def nameLimit : Nat := 255

/-- The bytes that a path may have. -/
def pathLimit : Nat := 4095

def stored? (s : Storage) (location : List String) : Option Stored :=
  if location = [] then some .directory
  else (s.entries.find? (·.1 = location)).map (·.2)

def splitPath : List Char → List (List Char)
  | [] => [[]]
  | c :: rest =>
    if c = '/' then [] :: splitPath rest
    else
      match splitPath rest with
      | [] => [[c]]
      | name :: names => (c :: name) :: names

/-- The location that a name leads to from a directory. The root is its own parent. -/
def enter (location : List String) (name : String) : List String :=
  if name = "" ∨ name = "." then location
  else if name = ".." then location.dropLast
  else location ++ [name]

def walk (s : Storage) : List String → List String → Except FileFault Stored
  | [], location =>
    match s.stored? location with
    | some x => .ok x
    | none => .error .notFound
  | name :: names, location =>
    match s.stored? location with
    | none => .error .notFound
    | some (.file _) => .error .notDirectory
    | some .directory =>
      if nameLimit < name.utf8ByteSize then .error .nameTooLong
      else s.walk names (enter location name)

def read (s : Storage) (path : String) : Except FileFault String :=
  let start := if path.toList.head? = some '/' then [] else s.workingDirectory
  if pathLimit < path.utf8ByteSize then .error .nameTooLong
  else
    match s.walk ((splitPath path.toList).map String.ofList) start with
    | .ok (.file contents) => .ok contents
    | .ok .directory => .error .isDirectory
    | .error f => .error f

end Storage

end Patchbay
