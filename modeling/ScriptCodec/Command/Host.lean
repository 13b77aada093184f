import ScriptCodec.Files.Database

/-!
What the program asks of the machine it runs on: files, the symbol index and two streams for text.
A host over a tree of files answers in memory.
-/
namespace ScriptCodec.Command

structure Host (m : Type → Type) where
  cwd : Bytes
  isThere : Bytes → m Bool
  read : Bytes → m (Except FileError Bytes)
  write : Bytes → Bytes → m (Except FileError Unit)
  makeDirectories : Bytes → m (Except FileError Unit)
  openLog : Bytes → m (Except FileError Unit)
  /-- the symbol index at a place, a new one if nothing is there -/
  openIndex : IndexPlace → m (Except DatabaseFault OpenIndex)
  saveIndex : IndexPlace → OpenIndex → m Unit
  out : Bytes → m Unit
  err : Bytes → m Unit
  /-- ends the run out of turn, with nothing on the second stream but a note of it -/
  breakOff : m Unit

structure Session where
  tree : FileTree
  out : Bytes
  err : Bytes

namespace Session

def ofTree (tree : FileTree) : Session := ⟨tree, [], []⟩

def change {ε : Type} (f : FileTree → Except ε FileTree) : StateM Session (Except ε Unit) :=
  fun s =>
    match f s.tree with
    | .ok tree => (.ok (), { s with tree })
    | .error e => (.error e, s)

def attempt {α : Type} (f : FileTree → α × FileTree) : StateM Session α := fun s =>
  let (outcome, tree) := f s.tree
  (outcome, { s with tree })

/-- Files that are no place to keep anything: what is written to them is lost or printed. -/
inductive Device where
  | void
  | out
  | err
deriving DecidableEq, Repr

def device? (path : Bytes) : Option Device :=
  [(text "/dev/null", Device.void), (text "/dev/stdout", .out),
    (text "/dev/stderr", .err)].lookup path

def print (device : Device) (s : Session) (content : Bytes) : Session :=
  match device with
  | .void => s
  | .out => { s with out := s.out ++ content }
  | .err => { s with err := s.err ++ content }

def read (path : Bytes) : StateM Session (Except FileError Bytes) := fun s =>
  match device? path with
  | some .void => (.ok [], s)
  | _ => (s.tree.read path, s)

def write (path content : Bytes) : StateM Session (Except FileError Unit) :=
  match device? path with
  | some device => fun s => (.ok (), print device s content)
  | none => change fun tree => tree.write path content

def host (cwd : Bytes) : Host (StateM Session) where
  cwd := cwd
  isThere path := fun s => ((s.tree.stat path).isOk, s)
  read := read
  write := write
  makeDirectories path := attempt fun tree => tree.makeDirectories path
  openLog path := change fun tree => tree.touch path
  openIndex place := attempt fun tree => tree.openIndex place
  saveIndex place opened := modify fun s => { s with tree := s.tree.saveIndex place opened }
  out text := modify fun s => print .out s text
  err text := modify fun s => print .err s text
  breakOff := modify fun s => { s with err := ScriptCodec.text "panic" }

end Session
end ScriptCodec.Command
