import TapeMachine.Source

/-! # Directory trees in memory

    A finite tree of directories and files, below a directory taken as the
    current one.  `FileTree.read` finds a file by the path rules of Linux: the
    path is walked name by name, each name must be looked up in a directory that
    exists, `..` leaves the directory the walk stands in, and a slash at the end
    asks for a directory.  Nothing is known about the directories above the
    current one, except that they are there. -/

namespace TapeMachine

/-- A name in a directory, as bytes. -/
abbrev FileName := List UInt8

/-- What stands at a place of a directory tree. -/
inductive FileNode where
  | file (contents : List UInt8)
  | directory
  deriving DecidableEq, Repr

/-- A directory tree: what stands at some of its places, each place given by the
    names that lead to it, the last name first.  Of two entries for one place
    the earlier counts.  The directories on the way to an entry exist. -/
structure FileTree where
  entries : List (List FileName × FileNode) := []
  deriving DecidableEq, Repr

namespace FileTree

/-- The pieces of a path between its slashes. -/
def pieces : List UInt8 → List FileName
  | [] => [[]]
  | b :: rest =>
      match pieces rest with
      | [] => [[b]]
      | piece :: more => if b = 0x2F then [] :: piece :: more else (b :: piece) :: more

/-- The name `.`. -/
def here : FileName := [0x2E]

/-- The name `..`. -/
def parent : FileName := [0x2E, 0x2E]

/-- The longest name a directory can hold. -/
def maxName : Nat := 255

/-- The length from which on a path is refused as a whole. -/
def pathLimit : Nat := 4096

/-- What stands at a place, if anything does. -/
def lookup (t : FileTree) (place : List FileName) : Option FileNode :=
  match t.entries.lookup place with
  | some node => some node
  | none =>
      if t.entries.any fun entry => place.isSuffixOf entry.1 then some .directory else none

/-! ## Making a tree -/

/-- Puts a node at a place, instead of what stood there. -/
def put (t : FileTree) (place : List FileName) (node : FileNode) : FileTree :=
  ⟨(place, node) :: t.entries⟩

/-- Makes a directory at a place, unless something stands there. -/
def ensureDirectory (t : FileTree) (place : List FileName) : FileTree :=
  match t.lookup place with
  | some _ => t
  | none => t.put place .directory

/-- The place a name leads to from a place; `none` above the current directory. -/
def next? (place : List FileName) (name : FileName) : Option (List FileName) :=
  if name = [] ∨ name = here then some place
  else if name = parent then place.tail?
  else some (name :: place)

/-- Puts a node where a list of names leads to from a place.  A directory is
    made wherever one is missing on the way, also where `..` leaves it again.
    Names that lead above the current directory put nothing anywhere. -/
def addFrom (node : FileNode) : FileTree → List FileName → List FileName → FileTree
  | t, place, [] => t.put place node
  | t, place, name :: rest =>
      match next? place name with
      | none => t
      | some target => addFrom node (t.ensureDirectory place) target rest

/-- Puts a node at a path below the current directory. -/
def add (t : FileTree) (path : List UInt8) (node : FileNode) : FileTree :=
  addFrom node t [] (pieces path)

/-! ## Finding a file -/

/-- Where a walk stands. -/
inductive Position where
  /-- In a directory of the tree, or in the current directory itself. -/
  | within (place : List FileName)
  /-- In a directory that is not part of the tree. -/
  | above
  /-- At a file. -/
  | atFile (contents : List UInt8)
  deriving DecidableEq, Repr

/-- One name of a walk.  An empty name, between two slashes or after the last
    one, means the directory the walk stands in. -/
def walk (t : FileTree) (pos : Position) (name : FileName) : Except ReadFailure Position :=
  match pos with
  | .atFile _ => .error .notDirectory
  | .within place =>
      if name = [] ∨ name = here then .ok pos
      else if name = parent then
        match place with
        | [] => .ok .above
        | _ :: up => .ok (.within up)
      else if maxName < name.length then .error .nameTooLong
      else
        match t.lookup (name :: place) with
        | some (.file contents) => .ok (.atFile contents)
        | some .directory => .ok (.within (name :: place))
        | none => .error .notFound
  | .above =>
      if name = [] ∨ name = here ∨ name = parent then .ok pos
      else if maxName < name.length then .error .nameTooLong
      else .error .notFound

/-- Walks a list of names. -/
def walkAll (t : FileTree) : Position → List FileName → Except ReadFailure Position
  | pos, [] => .ok pos
  | pos, name :: rest =>
      match t.walk pos name with
      | .ok pos => walkAll t pos rest
      | .error cause => .error cause

/-- The contents of the file at a path. -/
def read (t : FileTree) : FileReader := fun path =>
  if 0 ∈ path then .error .zeroInPath
  else if path = [] then .error .notFound
  else if pathLimit ≤ path.length then .error .nameTooLong
  else
    let start := if path.head? = some 0x2F then Position.above else .within []
    match t.walkAll start (pieces path) with
    | .ok (.atFile contents) => .ok contents
    | .ok _ => .error .isDirectory
    | .error cause => .error cause

end FileTree

end TapeMachine
