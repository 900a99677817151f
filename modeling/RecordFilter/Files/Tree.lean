import RecordFilter.Files.Access
import RecordFilter.Files.Path

/-! Trees of files in memory, seen from a working directory. -/

namespace RecordFilter.Files

/-- A file with its text, or a directory. -/
inductive Node
  | file (text : String)
  | directory
deriving DecidableEq, Repr

/-- Files and directories by the names on the way from the root, and the directory where paths
    start that do not start at the root. -/
structure Tree where
  home : List String := []
  nodes : List (List String × Node) := []

namespace Tree

/-- The parts of a path between slashes. -/
def parts (path : String) : List String := (go path.toList).map String.ofList
where
  /-- The parts as characters. -/
  go : List Char → List (List Char)
    | [] => [[]]
    | c :: rest =>
      if c = '/' then [] :: go rest
      else match go rest with
        | [] => [[c]]
        | part :: parts => (c :: part) :: parts

/-- Where one part of a path leads; `here` lists the names on the way from the last one. Two dots
    lead one directory up, and above the root there is the root. -/
def onward (here : List String) (part : String) : List String :=
  if part = ".." then here.tail
  else if part = "" ∨ part = "." then here
  else part :: here

/-- Where a path starts. -/
def start (t : Tree) (path : String) : List String :=
  if isAbsolute path then [] else t.home.reverse

/-! ### What is there -/

/-- What is found under some names; the root is a directory. -/
def node? (t : Tree) (names : List String) : Option Node :=
  if names.isEmpty then some .directory else List.lookup names t.nodes

/-- Follows the parts of a path. Every part but the last has to lead to a directory. -/
def follow (t : Tree) (here : List String) : List String → Option (List String)
  | [] => if (t.node? here.reverse).isSome then some here.reverse else none
  | part :: rest =>
    if t.node? here.reverse = some .directory then t.follow (onward here part) rest else none

/-- The names that a path leads to. -/
def find? (t : Tree) (path : String) : Option (List String) :=
  if path = "" then none else t.follow (t.start path) (parts path)

/-- The name of a node right under some names. -/
def childName? (names : List String) (child : List String) : Option String :=
  match child.reverse with
  | name :: above => if above.reverse = names then some name else none
  | [] => none

/-! ### Writing -/

/-- Puts a node in the place of what was there. -/
def put (t : Tree) (names : List String) (node : Node) : Tree :=
  { t with nodes := t.nodes.filter (fun e => e.1 ≠ names) ++ [(names, node)] }

/-- Adds the directories that some parts of a path pass through, and tells where they lead. -/
def addParts (t : Tree) (here : List String) : List String → Tree × List String
  | [] => (t, here)
  | part :: rest =>
    let next := onward here part
    if (t.node? next.reverse).isSome then t.addParts next rest
    else (t.put next.reverse .directory).addParts next rest

/-- Adds a directory with those that its path passes through. -/
def addDirectory (t : Tree) (path : String) : Tree :=
  (t.addParts (t.start path) (parts path)).1

/-- Writes a file and adds the directories that its path passes through. -/
def addFile (t : Tree) (path text : String) : Tree :=
  let ps := parts path
  let (t, here) := t.addParts (t.start path) ps.dropLast
  t.put (onward here (ps.getLast?.getD "")).reverse (.file text)

/-- A tree that holds an empty working directory and those above it. -/
def withHome (names : List String) : Tree := { (addParts {} [] names).1 with home := names }

/-! ### Access -/

/-- Access to the tree with some input. -/
def access (t : Tree) (input : Except String String) : Access Id where
  readText path :=
    match (t.find? path).bind t.node? with
    | some (.file text) => .ok text
    | some .directory => .error "is a directory"
    | none => .error "no such file or directory"
  isDirectory path := decide ((t.find? path).bind t.node? = some .directory)
  names path :=
    match t.find? path with
    | some names =>
      if t.node? names = some .directory then .ok (t.nodes.filterMap fun e => (childName? names e.1).map .ok)
      else .error "not a directory"
    | none => .error "no such file or directory"
  readInput := input

/-- A file is found from the working directory by any way that exists, and not from the root. -/
example :
    let t := (withHome ["tmp", "x"]).addFile "a/b/../c" "text"
    t.find? "a/c" = some ["tmp", "x", "a", "c"] ∧ t.find? ".//a/b/../c" = t.find? "a/c" ∧
      t.find? "/a/c" = none ∧ t.find? "a/z/../c" = none ∧ t.find? "a/c/" = none ∧
      t.find? "/../tmp/x/a/c" = t.find? "a/c" := by
  decide +kernel

end Tree

end RecordFilter.Files
