import ScriptCodec.Command.Job
import ScriptCodec.Command.Options
import ScriptCodec.Project.Load
import ScriptCodec.Symbol.Lookup

/-!
One run of the program: its options are read, the project's configuration is found, and each file
is worked on in turn. A file that fails is reported and the others still have their turn. The
result is the exit code.
-/
namespace ScriptCodec.Command

def Options.override (o : Options) (config : Manifest) : Manifest :=
  { config with
    format := if o.format.isEmpty then config.format else o.format
    workers := if 0 < o.workers then o.workers else config.workers
    verbosity := if 0 ≤ o.verbosity then o.verbosity else config.verbosity }

/-- From this verbosity down nothing at all is logged. -/
def silent : Int := -4

def startVerbosity : Int := 1

section

variable {m : Type → Type} [Monad m] (host : Host m)

def complain (message : Bytes) : m Unit := host.err (text "Error: " ++ message ++ [0x0A])

def complainAbout (path message : Bytes) : m Unit := complain host (path ++ text ": " ++ message)

def stop (code : UInt32) (message : Bytes) : m UInt32 := do
  complain host message
  return code

inductive Verdict where
  | allWell
  | someFailed
  | brokenOff
deriving DecidableEq, Repr

def Verdict.withFailure : Verdict → Verdict
  | .brokenOff => .brokenOff
  | _ => .someFailed

def Verdict.exitCode : Verdict → UInt32
  | .allWell => 0
  | .someFailed => 1
  | .brokenOff => 2

def forEach (work : Bytes → m (Except JobError Unit)) : List Bytes → m Verdict
  | [] => pure .allWell
  | path :: rest => do
    match ← work path with
    | .ok () => forEach work rest
    | .error e =>
      if e.breaksOff then
        host.breakOff
        return .brokenOff
      else
        complainAbout host path e.message
        return (← forEach work rest).withFailure

def indexed (config : Manifest) (cwd : Bytes) (o : OpenIndex) (path data : Bytes) :
    Except JobError OpenIndex :=
  match disassemble .builtIn data.toArray with
  | .error e => .error (.decode e)
  | .ok obj =>
    let script := config.scriptName cwd path
    match o.refusal with
    | some trouble => .error (.index script trouble)
    | none => .ok { o with index := o.index.add script obj }

def indexFiles (config : Manifest) (place : IndexPlace) (o : OpenIndex) : List Bytes → m Verdict
  | [] => pure .allWell
  | path :: rest => do
    let outcome :=
      (← host.read path).mapError JobError.file |>.bind (indexed config host.cwd o path)
    match outcome with
    | .ok o =>
      host.saveIndex place o
      indexFiles config place o rest
    | .error e =>
      complainAbout host path e.message
      return (← indexFiles config place o rest).withFailure

def withIndex (config : Manifest) (work : IndexPlace → OpenIndex → m UInt32) : m UInt32 := do
  match IndexPlace.ofBytes config.databasePlace with
  | .error e => stop host 1 (DatabaseFault.message ⟨.connecting, .settings e⟩)
  | .ok place =>
    match ← host.openIndex place with
    | .error e => stop host 1 e.message
    | .ok opened => work place opened

def runIndex (config : Manifest) (paths : List Bytes) : m UInt32 :=
  withIndex host config fun place opened => do
    return (← indexFiles host config place opened paths).exitCode

def runLookup (config : Manifest) (symbols : List Bytes) : m UInt32 :=
  withIndex host config fun _ opened => do
    host.out (symbols.flatMap (Lookup.answer opened.index))
    return 0

def runMode (o : Options) (config : Manifest) : m UInt32 := do
  let each (work : Bytes → Bytes → Except JobError (Bytes × Bytes)) (output : Bytes) :
      m UInt32 := do
    return (← forEach host (job host config work output) o.paths).exitCode
  if o.mode = text "index" then runIndex host config o.paths
  else if o.mode = text "lookup" then runLookup host config o.paths
  else if o.mode = text "disasm" then each (disassembled config host.cwd) o.output
  else if o.mode = text "asm" then each (assembled config host.cwd) o.output
  else if o.mode = text "dump" then
    each summarised (if o.output.isEmpty then text "-" else o.output)
  else stop host 2 (text "unknown mode " ++ Text.quote o.mode)

def openLog (config : Manifest) : m (Except FileError Unit) :=
  if config.logPlace.isEmpty ∨ config.verbosity ≤ silent then pure (.ok ())
  else host.openLog config.logPlace

/-- A run with its configuration. Without a message for its start to be logged, the program breaks
off. -/
def runConfigured (o : Options) (config : Manifest) : m UInt32 := do
  match config.validate with
  | .error e => stop host 1 e.message
  | .ok () =>
    match ← openLog host config with
    | .error e =>
      host.err (text "log file error: " ++ e.message ++ [0x0A])
      return 1
    | .ok () =>
      if config.verbosity < startVerbosity then
        host.breakOff
        return Verdict.brokenOff.exitCode
      else if o.paths.isEmpty then
        host.err usage
        return 2
      else if !o.output.isEmpty && 1 < o.paths.length then
        stop host 2 (text "-o takes a single input file")
      else runMode host o config

def run (args : List Bytes) : m UInt32 := do
  match Options.ofArguments args with
  | .error e =>
    host.err (e.message ++ usage)
    return e.exitCode
  | .ok o =>
    match ← Manifest.find host.isThere host.read host.cwd o.configDir with
    | .error e => stop host 1 e.message
    | .ok found => runConfigured host o (o.override (found.getD .default))

end
end ScriptCodec.Command
