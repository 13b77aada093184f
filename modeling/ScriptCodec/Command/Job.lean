import ScriptCodec.Cbor.Module
import ScriptCodec.Command.Host
import ScriptCodec.Listing.Parser
import ScriptCodec.Listing.Printer
import ScriptCodec.Object.Assembly
import ScriptCodec.Object.Disassembly
import ScriptCodec.Object.Report
import ScriptCodec.Project.Manifest

/-!
What is done with one file: a compiled script is decoded to a listing or to its wire form, or is
summarised; a listing or a wire form is assembled.
-/
namespace ScriptCodec.Command

inductive JobError where
  | file (e : FileError)
  | decode (e : DecodeError)
  | print (e : Listing.PrintError)
  | listing (e : Listing.Error)
  | wire
  | assemble (e : AssembleError)
  | index (script : Bytes) (trouble : DatabaseTrouble)

def JobError.message : JobError → Bytes
  | .file e => e.message
  | .decode e => e.message
  | .print e => e.message
  | .listing e => e.message
  | .wire => text "arc: unmarshal module"
  | .assemble e => e.message
  | .index script trouble => text "indexing " ++ script ++ text ": " ++ trouble.message

/-- A module with a gap makes the program break off. -/
def JobError.breaksOff : JobError → Bool
  | .assemble e => e.cause == .gap
  | _ => false

def isWireFile (path : Bytes) : Bool := Text.lower (Path.extension path) == text ".cbor"

def named (config : Manifest) (cwd path : Bytes) (m : Module) : Module :=
  if m.name.isEmpty then { m with name := config.scriptName cwd path } else m

def disassembled (config : Manifest) (cwd path data : Bytes) : Except JobError (Bytes × Bytes) :=
  match disassemble .builtIn data.toArray with
  | .error e => .error (.decode e)
  | .ok obj =>
    let m := named config cwd path obj.body
    if config.format = Manifest.cborFormat then .ok (m.name ++ text ".cbor", Cbor.encodeModule m)
    else
      match Listing.print .builtIn config.banner m with
      | .ok listing => .ok (m.name ++ text ".gasm", listing)
      | .error e => .error (.print e)

def sourceModule (config : Manifest) (path data : Bytes) : Except JobError Module :=
  if config.format = Manifest.cborFormat ∨ isWireFile path then
    match Cbor.decodeModule data with
    | some m => .ok m
    | none => .error .wire
  else (Listing.parse .builtIn data).mapError .listing

def assembled (config : Manifest) (cwd path data : Bytes) : Except JobError (Bytes × Bytes) :=
  match sourceModule config path data with
  | .error e => .error e
  | .ok m =>
    let m := named config cwd path m
    match assemble .builtIn config.flags m with
    | .ok a => .ok (m.name ++ text ".gsc", a.file)
    | .error e => .error (.assemble e)

def summarised (path data : Bytes) : Except JobError (Bytes × Bytes) :=
  match disassemble .builtIn data.toArray with
  | .error e => .error (.decode e)
  | .ok obj => .ok ([], obj.report path)

section

variable {m : Type → Type} [Monad m] (host : Host m)

def deliver (config : Manifest) (output name data : Bytes) : m (Except JobError Unit) := do
  if output = text "-" then
    host.out data
    return .ok ()
  else
    let path := if output.isEmpty then Path.join config.outputPlace name else output
    match ← host.makeDirectories (Path.directory path) with
    | .error e => return .error (.file e)
    | .ok () => return (← host.write path data).mapError .file

def job (config : Manifest) (work : Bytes → Bytes → Except JobError (Bytes × Bytes))
    (output path : Bytes) : m (Except JobError Unit) := do
  match ← host.read path with
  | .error e => return .error (.file e)
  | .ok data =>
    match work path data with
    | .error e => return .error e
    | .ok (name, result) => deliver host config output name result

end
end ScriptCodec.Command
