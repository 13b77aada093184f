import ScriptCodec.Files.DatabaseFault
import ScriptCodec.Files.Tree

/-!
A symbol index in a tree of files, while it is being opened. Two files beside it belong to it by
their names: the journal, in which changes under way are kept, and the change log. Whatever is found
there when the index is read is taken up or cleared away. A file without content is an index that
has no tables yet.
-/
namespace ScriptCodec

inductive JournalMode where
  | delete
  | persist
  | off
  | truncate
  | memory
  | changeLog
deriving DecidableEq, Repr

namespace JournalMode

def names : List (Bytes × JournalMode) := [
  (text "delete", delete), (text "persist", persist), (text "off", off),
  (text "truncate", truncate), (text "memory", memory), (text "wal", changeLog)]

/-- The first mode whose name starts with a text. -/
def ofText? (s : Bytes) : Option JournalMode :=
  (names.find? fun e => (Text.lower s).isPrefixOf e.1).map Prod.snd

def isKept (mode : JournalMode) : Bool := mode == persist || mode == truncate

def usesFile (mode : JournalMode) : Bool := mode != off && mode != memory

end JournalMode

structure Connection where
  tree : FileTree
  path : Bytes
  place : List Bytes
  node : Node
  /-- there are no files but that of the index -/
  alone : Bool := false
  journal : JournalMode := .delete
  queryOnly : Bool := false
  limit : Option Nat := none
  /-- how the file is to be cut once it has pages -/
  paging : Paging := {}
  /-- the form of the texts in tables that are still to be made -/
  form : TextForm := .utf8
  /-- the tables of the index have been looked at -/
  known : Bool := false

namespace Connection

/-- A step that may fail, after which the tree is as the step left it. -/
abbrev Step := ExceptT DatabaseTrouble (StateM Connection)

def journalEnding : Bytes := text "-journal"

def changeLogEnding : Bytes := text "-wal"

/-- A file of one byte counts as empty. -/
def isBlank (c : Connection) : Bool :=
  match c.node with
  | .file content => content.length ≤ 1
  | _ => false

def pages (c : Connection) : Nat :=
  match c.node with
  | .unfinished _ _ pages => pages
  | _ => 0

def ownPaging (c : Connection) : Paging :=
  match c.node with
  | .database paging _ | .unfinished paging _ _ => paging
  | _ => c.paging

/-- The form of the texts in the tables that the index has. The first page holds none. -/
def ownForm? (c : Connection) : Option TextForm :=
  match c.node with
  | .database _ index => some index.form
  | .unfinished _ form pages => if pages ≤ 1 then none else some form
  | _ => none

/-- How many pages an index has after each of its tables was made. What is written of the tables
themselves takes more than one page if pages are small, and one page more is needed where it is
noted which of them are in use. -/
def tablePages (c : Connection) : List Nat :=
  let paging := c.ownPaging
  let pages := match paging.size, c.ownForm?.getD c.form with
    | 512, .utf8 => [3, 5, 7, 8, 9]
    | 512, .utf16 _ => [3, 6, 8, 10, 11]
    | 1024, .utf16 _ => [3, 4, 7, 8, 9]
    | _, _ => [3, 4, 5, 6, 7]
  pages.map fun n => if paging.vacuums then n + 1 else n

def tableNames : List Bytes := [text "scripts", text "definitions", text "refs"]

def tables (c : Connection) : List Bytes :=
  match c.node with
  | .database _ _ => tableNames
  | _ => tableNames.take (c.tablePages.filter (· ≤ c.pages)).length

def beside? (c : Connection) (ending : Bytes) : Option Node :=
  (c.tree.stat (c.path ++ ending)).toOption

def isDirectoryBeside (c : Connection) (ending : Bytes) : Bool :=
  (c.beside? ending).any Node.isDirectory

def firstByteBeside (c : Connection) (ending : Bytes) : Option UInt8 :=
  (c.beside? ending).bind fun node => node.content.head?

def removeBeside (ending : Bytes) : Step Unit :=
  modify fun c => { c with tree := c.tree.remove (c.path ++ ending) }

/-- Sees to the files beside the index. A journal that starts with a zero is left alone, unless the
index is empty. -/
def settle : Step Unit := do
  let c ← get
  if !c.isBlank && c.isDirectoryBeside journalEnding then throw .unreadableJournal
  if (c.firstByteBeside journalEnding).any fun b => c.isBlank || b != 0 then
    removeBeside journalEnding
  if c.isDirectoryBeside changeLogEnding then
    throw (if c.isBlank then .stuckLog else .noJournal)
  if (c.firstByteBeside changeLogEnding).isSome then removeBeside changeLogEnding

def read : Step Unit := do
  settle
  let c ← get
  match c.node with
  | .database _ _ | .unfinished _ _ _ => pure ()
  | _ => if !c.isBlank then throw .notDatabase

def readTables : Step Unit := do
  read
  modify fun c => { c with known := true, form := c.ownForm?.getD c.form }

def journalOpens (c : Connection) : Bool :=
  !c.journal.usesFile || (c.tree.opened (c.path ++ journalEnding)).isOk

def refuseChanges : Step Unit := do
  if (← get).queryOnly then throw .readOnly

def openJournal : Step Unit := do
  read
  if !(← get).journalOpens then throw .noJournal

def put (node : Node) : Step Unit :=
  modify fun c => { c with node, tree := c.tree.putNode c.place node }

def withoutJournal (mode : JournalMode) (tree : FileTree) (path : Bytes) : FileTree :=
  match mode with
  | .delete => tree.remove (path ++ journalEnding)
  | .truncate => ((tree.write (path ++ journalEnding) []).toOption).getD tree
  | _ => tree

def endWrite : Step Unit :=
  modify fun c => { c with tree := withoutJournal c.journal c.tree c.path }

def writeHead : Step Unit := do
  openJournal
  let c ← get
  if c.isBlank then put (.unfinished c.paging c.form 1)
  endWrite

def changeHead : Step Unit := do
  refuseChanges
  writeHead

def createTable (pages : Nat) : Step Unit := do
  refuseChanges
  openJournal
  let c ← get
  if c.limit.any (· < pages) then
    endWrite
    throw .full
  put (.unfinished c.ownPaging c.form pages)
  endWrite

def createTables : Step Unit := do
  readTables
  let c ← get
  match c.node with
  | .database _ _ => pure ()
  | _ =>
    (c.tablePages.filter (c.pages < ·)).forM createTable
    put (.database c.ownPaging (.empty c.form))

end Connection
end ScriptCodec
