import ScriptCodec.Project.ScriptName
import ScriptCodec.Text.Quoted

/-!
The configuration of a project: how scripts are decoded and encoded, and where results, log and
symbol index go. Relative places are seen from the directory that holds the configuration file.
-/
namespace ScriptCodec

structure Manifest where
  /-- the directory of the configuration file, empty without one -/
  dir : Bytes
  workers : Int
  banner : Option (List Bytes)
  flags : UInt8
  sourceRoot : Bytes
  outputDir : Bytes
  format : Bytes
  verbosity : Int
  logFile : Bytes
  database : Bytes
deriving DecidableEq, Repr

structure UnknownFormat where
  format : Bytes
deriving DecidableEq, Repr

def UnknownFormat.message (e : UnknownFormat) : Bytes :=
  text "output format " ++ Text.quote e.format ++ text ": want \"listing\" or \"cbor\""

namespace Manifest

def listingFormat : Bytes := text "listing"

def cborFormat : Bytes := text "cbor"

def blank : Manifest := ⟨[], 0, none, 0, [], [], [], 0, [], []⟩

def orElse (value fallback : Bytes) : Bytes := if value.isEmpty then fallback else value

def withDefaults (m : Manifest) : Manifest :=
  { m with
    workers := if m.workers < 1 then 1 else m.workers
    outputDir := orElse m.outputDir (text "out")
    format := orElse m.format listingFormat
    database := orElse m.database (text "xref.db") }

def default : Manifest := blank.withDefaults

def validate (m : Manifest) : Except UnknownFormat Unit :=
  if m.format = listingFormat ∨ m.format = cborFormat then .ok () else .error ⟨m.format⟩

/-- A place as the configuration names it, seen from the configuration's directory. -/
def place (m : Manifest) (s : Bytes) : Bytes :=
  if Path.isRooted s || m.dir.isEmpty then s else Path.join m.dir s

def outputPlace (m : Manifest) : Bytes := m.place m.outputDir

def logPlace (m : Manifest) : Bytes := if m.logFile.isEmpty then [] else m.place m.logFile

def databasePlace (m : Manifest) : Bytes := m.place m.database

def sourcePlace (m : Manifest) : Bytes := if m.sourceRoot.isEmpty then [] else m.place m.sourceRoot

def scriptName (m : Manifest) (cwd path : Bytes) : Bytes :=
  let root := m.sourcePlace
  ScriptName.ofPath root (if root.isEmpty then path else Path.absolute cwd path)

end Manifest
end ScriptCodec
