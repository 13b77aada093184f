import ScriptCodec.Files.FileError
import ScriptCodec.Project.Path
import ScriptCodec.Symbol.IndexFile

/-!
A tree of files held in memory. Paths are followed one part at a time, as a file system follows
them: each part but the last has to be a directory, and `..` leads to the directory above.
-/
namespace ScriptCodec

structure Paging where
  /-- the bytes of a page -/
  size : Nat := 4096
  /-- pages that are no longer used are given back -/
  vacuums : Bool := false
deriving DecidableEq, Repr

inductive Node where
  | file (content : Bytes)
  | database (paging : Paging) (index : StoredIndex)
  /-- a database of some pages that does not have all its tables yet -/
  | unfinished (paging : Paging) (form : TextForm) (pages : Nat)
  | directory (entries : List (Bytes × Node))

namespace Node

def isDirectory : Node → Bool
  | .directory _ => true
  | _ => false

def content : Node → Bytes
  | .file content => content
  | .database _ index => IndexFile.encode index
  | .unfinished _ form _ => IndexFile.encode (.empty form)
  | .directory _ => []

def at? : List Bytes → Node → Option Node
  | [], node => some node
  | name :: names, .directory entries => (entries.lookup name).bind (at? names)
  | _ :: _, _ => none

def putEntry (entries : List (Bytes × Node)) (name : Bytes) (node : Node) : List (Bytes × Node) :=
  if entries.any (·.1 == name) then
    entries.map fun e => if e.1 == name then (name, node) else e
  else entries ++ [(name, node)]

/-- Puts a node at a list of names; the directory it goes into has to be there. -/
def put (new : Node) : List Bytes → Node → Node
  | [], _ => new
  | name :: names, .directory entries =>
    match entries.lookup name, names with
    | some child, _ => .directory (putEntry entries name (put new names child))
    | none, [] => .directory (putEntry entries name new)
    | none, _ :: _ => .directory entries
  | _ :: _, node => node

def remove : List Bytes → Node → Node
  | [name], .directory entries => .directory (entries.filter fun e => e.1 != name)
  | name :: names, .directory entries =>
    match entries.lookup name with
    | some child => .directory (putEntry entries name (remove names child))
    | none => .directory entries
  | _, node => node

end Node

structure FileTree where
  root : Node
  cwd : Bytes

namespace FileTree

def maxName : Nat := 255

def maxPath : Nat := 4095

def follow (root : Node) (place : List Bytes) : List Bytes → Except FileFault (List Bytes)
  | [] => .ok place
  | part :: rest =>
    match root.at? place with
    | none => .error .missing
    | some (.directory entries) =>
      if part = [] ∨ part = Path.here then follow root place rest
      else if part = Path.parent then follow root place.dropLast rest
      else if maxName < part.length then .error .nameTooLong
      else if (entries.lookup part).isNone then .error .missing
      else follow root (place ++ [part]) rest
    | some _ => .error .notDirectory

def checkText (path : Bytes) : Except FileFault Unit :=
  if path.isEmpty then .error .missing
  else if path.contains 0 then .error .badName
  else if maxPath < path.length then .error .nameTooLong
  else .ok ()

def start (tree : FileTree) (path : Bytes) : List Bytes :=
  if Path.isRooted path then [] else (Path.ofBytes tree.cwd).parts

def locate (tree : FileTree) (path : Bytes) : Except FileFault (List Bytes) := do
  checkText path
  follow tree.root (tree.start path) (Text.splitOn Path.slash path)

def locateNew (tree : FileTree) (path : Bytes) : Except FileFault (List Bytes) := do
  checkText path
  let parts := Text.splitOn Path.slash path
  let last := parts.getLastD []
  let place ← follow tree.root (tree.start path) (parts.dropLast ++ [Path.here])
  if last = [] ∨ last = Path.here ∨ last = Path.parent then follow tree.root place [last]
  else if maxName < last.length then .error .nameTooLong
  else
    match tree.root.at? place with
    | some (.directory _) => .ok (place ++ [last])
    | some _ => .error .notDirectory
    | none => .error .missing

def stat (tree : FileTree) (path : Bytes) : Except FileFault Node := do
  match tree.root.at? (← tree.locate path) with
  | some node => .ok node
  | none => .error .missing

def read (tree : FileTree) (path : Bytes) : Except FileError Bytes :=
  match tree.stat path with
  | .error fault => .error ⟨.opening, path, fault⟩
  | .ok (.directory _) => .error ⟨.reading, path, .isDirectory⟩
  | .ok node => .ok node.content

def opened (tree : FileTree) (path : Bytes) : Except FileError (List Bytes × Option Node) :=
  match tree.locateNew path with
  | .error fault => .error ⟨.opening, path, fault⟩
  | .ok names =>
    match tree.root.at? names with
    | some (.directory _) => .error ⟨.opening, path, .isDirectory⟩
    | node => .ok (names, node)

def putNode (tree : FileTree) (names : List Bytes) (node : Node) : FileTree :=
  { tree with root := Node.put node names tree.root }

def remove (tree : FileTree) (path : Bytes) : FileTree :=
  match tree.opened path with
  | .ok (names, some _) => { tree with root := Node.remove names tree.root }
  | _ => tree

def write (tree : FileTree) (path content : Bytes) : Except FileError FileTree := do
  let (names, _) ← tree.opened path
  return tree.putNode names (.file content)

def touch (tree : FileTree) (path : Bytes) : Except FileError FileTree := do
  match ← tree.opened path with
  | (names, none) => return tree.putNode names (.file [])
  | (_, some _) => return tree

def steps (path : Bytes) : List Bytes :=
  let p := Path.ofBytes path
  (List.range p.parts.length).map fun i => Path.toBytes { p with parts := p.parts.take (i + 1) }

def makeStep (tree : FileTree) (path : Bytes) : Except FileError FileTree :=
  match tree.stat path with
  | .ok (.directory _) => .ok tree
  | .ok _ => .error ⟨.making, path, .notDirectory⟩
  | .error _ =>
    match tree.locateNew path with
    | .ok names => .ok (tree.putNode names (.directory []))
    | .error fault => .error ⟨.making, path, fault⟩

def makeSteps (tree : FileTree) : List Bytes → Except FileError Unit × FileTree
  | [] => (.ok (), tree)
  | path :: rest =>
    match tree.makeStep path with
    | .ok tree => makeSteps tree rest
    | .error e => (.error e, tree)

/-- Makes a directory and those above it, as far as they are missing. Those that were made stay when
one further down cannot be. -/
def makeDirectories (tree : FileTree) (path : Bytes) : Except FileError Unit × FileTree :=
  tree.makeSteps (steps path)

end FileTree
end ScriptCodec
