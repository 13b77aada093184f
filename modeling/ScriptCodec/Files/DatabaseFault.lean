import ScriptCodec.Symbol.IndexPlace
import ScriptCodec.Symbol.Pragma

/-!
What can go wrong with the file of a symbol index, and what was being done when it did.
-/
namespace ScriptCodec

inductive DatabaseTrouble where
  | settings (fault : SettingsFault)
  | statement (fault : Pragma.Fault)
  | cannotOpen
  | notDatabase
  /-- the journal or the change log cannot be opened -/
  | noJournal
  | unreadableJournal
  | stuckLog
  | readOnly
  | full
  /-- a transaction was to begin in a mode that there is not -/
  | strangeLock (name : Bytes)
deriving DecidableEq, Repr

def DatabaseTrouble.message : DatabaseTrouble → Bytes
  | .settings fault => fault.message
  | .statement fault => fault.message
  | .cannotOpen => text "unable to open database file: out of memory (14)"
  | .notDatabase => text "file is not a database (26)"
  | .noJournal => text "unable to open database file (14)"
  | .unreadableJournal => text "disk I/O error (266)"
  | .stuckLog => text "disk I/O error (2570)"
  | .readOnly => text "attempt to write a readonly database (8)"
  | .full => text "database or disk is full (13)"
  | .strangeLock name => (Pragma.Fault.unexpected name).message

inductive DatabaseStage where
  | connecting
  | creating
deriving DecidableEq, Repr

structure DatabaseFault where
  stage : DatabaseStage
  trouble : DatabaseTrouble
deriving DecidableEq, Repr

namespace DatabaseFault

def stageText : DatabaseStage → Bytes
  | .connecting => text "setting busy timeout: "
  | .creating => text "creating tables: "

def message (f : DatabaseFault) : Bytes := stageText f.stage ++ f.trouble.message

end DatabaseFault

end ScriptCodec
