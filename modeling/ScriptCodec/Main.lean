import ScriptCodec.Command.Run

/-!
The program on a real machine. Everything it decides is decided in `Command.run`; here files are
read and written and the standard streams are filled.
-/
namespace ScriptCodec.Main

def faultOf : IO.Error → FileFault
  | .noFileOrDirectory _ _ _ => .missing
  | .invalidArgument _ _ _ => .badName
  | .inappropriateType _ code _ => if code = 21 then .isDirectory else .notDirectory
  | _ => .refused

def pathText (path : Bytes) : Option String :=
  (String.fromUTF8? ⟨path.toArray⟩).filter fun s => !s.isEmpty

def attempt {α : Type} (action : FileAction) (path : Bytes) (act : String → IO α) :
    IO (Except FileError α) := do
  match pathText path with
  | none => return .error ⟨action, path, if path.isEmpty then .missing else .badName⟩
  | some name =>
    try
      return .ok (← act name)
    catch e =>
      return .error ⟨action, path, faultOf e⟩

def readFile (path : Bytes) : IO (Except FileError Bytes) := do
  match ← attempt .opening path fun name => IO.FS.readBinFile name with
  | .ok content => return .ok content.data.toList
  | .error e => return .error (if e.fault = .isDirectory then { e with action := .reading } else e)

def writeFile (path content : Bytes) : IO (Except FileError Unit) :=
  attempt .opening path fun name => IO.FS.writeBinFile name ⟨content.toArray⟩

def isThere (path : Bytes) : IO Bool := do
  match pathText path with
  | none => return false
  | some name => ((← IO.currentDir) / name).pathExists

def openIndex (place : IndexPlace) : IO (Except DatabaseFault OpenIndex) := do
  unless ← isThere place.path do
    let _ ← writeFile place.path []
  match ← readFile place.path with
  | .error _ => return .error ⟨.connecting, .cannotOpen⟩
  | .ok content =>
    match place.settings.check, IndexFile.decode content with
    | .error fault, _ => return .error ⟨.connecting, .settings fault⟩
    | .ok (), none => return .error ⟨.creating, .notDatabase⟩
    | .ok (), some index =>
      return .ok ⟨index, {}, .delete, place.settings.strangeLock.map .strangeLock⟩

def saveIndex (place : IndexPlace) (opened : OpenIndex) : IO Unit := do
  let _ ← writeFile place.path (IndexFile.encode opened.index)

def host (cwd : Bytes) : Command.Host IO where
  cwd := cwd
  isThere := isThere
  read := readFile
  write := writeFile
  makeDirectories path := attempt .making path fun name => IO.FS.createDirAll name
  openLog path := attempt .opening path fun name => do
    let _ ← IO.FS.Handle.mk name .append
  openIndex := openIndex
  saveIndex := saveIndex
  out text := do (← IO.getStdout).write ⟨text.toArray⟩
  err text := do (← IO.getStderr).write ⟨text.toArray⟩
  breakOff := do (← IO.getStderr).write ⟨(ScriptCodec.text "panic").toArray⟩

end ScriptCodec.Main

def main (args : List String) : IO UInt32 := do
  let cwd := ScriptCodec.text (← IO.currentDir).toString
  ScriptCodec.Command.run (ScriptCodec.Main.host cwd) (args.map ScriptCodec.text)
