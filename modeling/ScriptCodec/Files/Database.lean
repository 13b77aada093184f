import ScriptCodec.Files.Adjustment

/-!
Opening the symbol index at a place in a tree of files, and putting it back when it has changed.
-/
namespace ScriptCodec

structure OpenIndex where
  index : StoredIndex
  paging : Paging
  journal : JournalMode
  refusal : Option DatabaseTrouble

namespace Connection

def refusal (c : Connection) (settings : Settings) : Option DatabaseTrouble :=
  match settings.strangeLock with
  | some name => some (.strangeLock name)
  | none =>
    if c.queryOnly then some .readOnly else if c.journalOpens then none else some .noJournal

def opened (c : Connection) (settings : Settings) : OpenIndex where
  index := match c.node with
    | .database _ index => index
    | _ => .empty c.form
  paging := c.ownPaging
  journal := c.journal
  refusal := c.refusal settings

end Connection

namespace FileTree

def maxIndexPath : Nat := 512

def openIndexFile (tree : FileTree) (path : Bytes) : Option Connection :=
  if maxIndexPath < path.length + Connection.journalEnding.length then none
  else
    match tree.opened path with
    | .error _ => none
    | .ok (place, some node) => some { tree, path, place, node }
    | .ok (place, none) =>
      some { tree := tree.putNode place (.file []), path, place, node := .file [] }

def connect (c : Connection) (settings : Settings) : Except DatabaseFault OpenIndex × FileTree :=
  match (Connection.prepare settings).run c with
  | (.error trouble, c) => (.error ⟨.connecting, trouble⟩, c.tree)
  | (.ok (), c) =>
    match Connection.createTables.run c with
    | (.error trouble, c) => (.error ⟨.creating, trouble⟩, c.tree)
    | (.ok (), c) => (.ok (c.opened settings), c.tree)

def scratch : Connection :=
  let place := [text "index"]
  { tree := ⟨.directory [(text "index", .file [])], text "/"⟩
    path := text "/index", place, node := .file [], alone := true, journal := .memory }

/-- The index at a place. A file that was made stays when the index cannot be used. -/
def openIndex (tree : FileTree) (place : IndexPlace) : Except DatabaseFault OpenIndex × FileTree :=
  if place.inMemory then ((connect scratch place.settings).1, tree)
  else
    match tree.openIndexFile (Path.absolute tree.cwd place.path) with
    | none => (.error ⟨.connecting, .cannotOpen⟩, tree)
    | some c => connect c place.settings

def saveIndex (tree : FileTree) (place : IndexPlace) (o : OpenIndex) : FileTree :=
  let path := Path.absolute tree.cwd place.path
  match tree.opened path, place.inMemory with
  | .ok (names, _), false =>
    Connection.withoutJournal o.journal (tree.putNode names (.database o.paging o.index)) path
  | _, _ => tree

end FileTree
end ScriptCodec
