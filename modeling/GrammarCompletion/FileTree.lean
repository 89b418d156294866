/-
# File trees

A file tree is a finite set of directories and files.  A node of it is known by the names on the way
from the top to it.  A path is walked from a directory one component at a time: an empty component
and `.` stay where they are, `..` goes up, and any other one goes down to the node of that name.
Only a directory can be left in either direction, so a path through a file or through a missing
directory leads nowhere, also when it comes back with `..`.
-/
import GrammarCompletion.Binary
import GrammarCompletion.OrderedMap

namespace GrammarCompletion

/-- The names on the way from the top of a file tree to a node. -/
abbrev Location := List String

/-- A finite set of directories and files.  The top is always a directory. -/
structure FileTree where
  /-- The nodes below the top: the content of a file, or nothing for a directory. -/
  nodes : OrderedMap Location (Option Binary.Bytes)

namespace FileTree

/-- Why a path leads to no file. -/
inductive PathFault where
  /-- A name does not occur in its directory. -/
  | missing
  /-- The path goes through a file, ends at a directory, is too long, or holds a name that no file can
  have. -/
  | unreadable
deriving DecidableEq

/-- The tree with nothing but the top. -/
def empty : FileTree := ⟨∅⟩

instance : EmptyCollection FileTree := ⟨empty⟩

/-- Whether there is a directory at a location. -/
def isDirectory (t : FileTree) (l : Location) : Bool :=
  l.isEmpty || t.nodes.get? l = some none

/-- The longest name that a file can have, in bytes. -/
def maxNameLength : Nat := 255

/-- Whether a file can have a name. -/
def isNameable (name : String) : Bool :=
  name.utf8ByteSize ≤ maxNameLength

/-- Goes one component further. -/
def step (t : FileTree) (l : Location) (component : String) : Except PathFault Location :=
  if !t.isDirectory l then .error .unreadable
  else if component = "" || component = "." then .ok l
  else if component = ".." then .ok l.dropLast
  else if !isNameable component then .error .unreadable
  else
    let next := l ++ [component]
    if next ∈ t.nodes then .ok next else .error .missing

/-- The components of a path. -/
def components (path : String) : List String :=
  (path.toList.foldr
    (fun c parts =>
      match parts with
      | [] => if c = '/' then [[], []] else [[c]]
      | p :: ps => if c = '/' then [] :: p :: ps else (c :: p) :: ps)
    [[]]).map String.ofList

/-- Whether a path starts at the top of the tree. -/
def isAbsolute (path : String) : Bool :=
  "/".toList.isPrefixOf path.toList

/-- The directory from which a path is walked, given the one that relative paths start from. -/
def origin (base : Location) (path : String) : Location :=
  if isAbsolute path then [] else base

/-- A path with the directory that it starts from, written from the top. -/
def fullPath (base : Location) (path : String) : String :=
  if isAbsolute path then path else "/" ++ "/".intercalate (base ++ [path])

/-- The longest path from the top, in bytes. -/
def maxPathLength : Nat := 4095

/-- Whether a path can be followed at all: it is not too long and does not hold the null
character. -/
def isFollowable (base : Location) (path : String) : Bool :=
  !path.toList.contains '\x00' && (fullPath base path).utf8ByteSize ≤ maxPathLength

/-- The location that a path leads to. -/
def walk (t : FileTree) (base : Location) (path : String) : Except PathFault Location :=
  if !isFollowable base path then .error .unreadable
  else (components path).foldlM t.step (origin base path)

/-- The bytes of the file that a path leads to. -/
def read (t : FileTree) (base : Location) (path : String) : Except PathFault Binary.Bytes := do
  let l ← t.walk base path
  match t.nodes.get? l with
  | some (some bytes) => return bytes
  | _ => throw .unreadable

/-- Goes one component further without a look at the tree. -/
def stepLexically (l : Location) (component : String) : Location :=
  if component = "" || component = "." then l
  else if component = ".." then l.dropLast
  else l ++ [component]

/-- The location that a path denotes when every node on its way is a directory. -/
def locate (base : Location) (path : String) : Location :=
  (components path).foldl stepLexically (origin base path)

/-- Adds a directory, with the directories above it, unless there is one already. -/
def addDirectory (t : FileTree) (l : Location) : FileTree :=
  ⟨((List.range (l.length + 1)).map l.take).foldl
    (fun nodes p => if p.isEmpty || p ∈ nodes then nodes else nodes.insert p none) t.nodes⟩

/-- Adds a file, with the directories above it. -/
def addFile (t : FileTree) (l : Location) (bytes : Binary.Bytes) : FileTree :=
  ⟨(t.addDirectory l.dropLast).nodes.insert l (some bytes)⟩

/-- The contents of the files. -/
def files (t : FileTree) : List Binary.Bytes :=
  t.nodes.values.filterMap id

/-- A path with its empty and `.` components removed. -/
def tidy (path : String) : String :=
  let kept := (components path).filter fun c => c ≠ "" && c ≠ "."
  let body := "/".intercalate kept
  if isAbsolute path then "/" ++ body else body

end FileTree

end GrammarCompletion
