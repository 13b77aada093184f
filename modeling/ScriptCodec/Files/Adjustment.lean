import ScriptCodec.Files.Connection

/-!
What the statements in the settings of a symbol index do to it when it is opened. Most of them have
no bearing on what the index answers, but some look at it, write to it or set how it is written.
-/
namespace ScriptCodec.Connection

def tableReaders : List Bytes := [
  text "auto_vacuum", text "cache_size", text "default_cache_size", text "foreign_key_check",
  text "foreign_key_list", text "incremental_vacuum", text "index_info", text "index_list",
  text "index_xinfo", text "integrity_check", text "journal_mode", text "max_page_count",
  text "optimize", text "page_count", text "quick_check", text "synchronous",
  text "table_info", text "table_list", text "table_xinfo", text "wal_checkpoint"]

def headReaders : List Bytes := [
  text "application_id", text "data_version", text "freelist_count", text "schema_version",
  text "user_version"]

def headWriters : List Bytes := [
  text "application_id", text "default_cache_size", text "schema_version", text "user_version"]

def vacuums (v : Bytes) : Bool :=
  [text "full", text "incremental"].contains (Text.lower v) ||
    [some 1, some 2].contains (Pragma.leadingCount? v)

/-- A journal that is kept between changes goes when it is no longer used. -/
def setJournal (mode : JournalMode) : Step Unit := do
  let c ← get
  if mode = .changeLog ∧ c.journal ≠ .changeLog then writeHead
  if c.journal.isKept ∧ !mode.isKept then removeBeside journalEnding
  modify fun c => { c with journal := mode }
  if c.journal = .changeLog ∧ mode ≠ .changeLog then writeHead

/-- Sets whether pages are given back. Once there are pages it cannot be changed. -/
def setVacuum (on : Bool) : Step Unit := do
  let c ← get
  if c.isBlank then set { c with paging := { c.paging with vacuums := on } }
  if on ∧ (c.isBlank ∨ c.ownPaging.vacuums) then changeHead

def setPageSize (size : Nat) : Step Unit := do
  let c ← get
  if c.isBlank ∧ [512, 1024, 2048, 4096, 8192, 16384, 32768, 65536].contains size then
    set { c with paging := { c.paging with size } }

def setValue (name v : Bytes) : Step Unit := do
  if headWriters.contains name then changeHead
  else if name = text "auto_vacuum" then setVacuum (vacuums v)
  else if name = text "page_size" then setPageSize ((Pragma.leadingCount? v).getD 0)
  else if name = text "max_page_count" then
    match Pragma.count? v with
    | some (n + 1) => modify fun c => { c with limit := some (max (n + 1) c.pages) }
    | _ => pure ()
  else if name = text "journal_mode" then
    match JournalMode.ofText? v with
    | some mode => setJournal mode
    | none => pure ()

inductive Part where
  | main
  | temp
deriving DecidableEq, Repr

namespace Part

def name : Part → Bytes
  | main => text "main"
  | temp => text "temp"

def ofName? (s : Bytes) : Option Part := [main, temp].find? fun p => p.name == Text.lower s

end Part

def listsOf : Option Part → List Bytes
  | some .main => [text "sqlite_master", text "sqlite_schema"]
  | _ => [text "sqlite_master", text "sqlite_schema", text "sqlite_temp_master",
      text "sqlite_temp_schema"]

def findTable (part : Option Part) (name : Bytes) : Step Unit := do
  let c ← get
  let own := if part = some .temp then [] else c.tables
  if !(own ++ listsOf part).contains (Text.lower name) then
    throw (.statement (.unknownTable (part.map Part.name) name))

/-- Sets the form of texts, unless the index has tables that are known. -/
def setForm (v : Bytes) : Step Unit := do
  let c ← get
  if !c.known ∨ c.ownForm?.isNone then
    match Pragma.encodings.lookup (Text.lower v) with
    | some form => set { c with form }
    | none => throw (.statement (.unsupportedEncoding v))

def checkTables (part : Option Part) (name : Bytes) (v : Pragma.Value) : Step Unit := do
  let counted := match v with
    | .number _ digits => (Pragma.leadingCount? digits).isSome
    | .word _ => false
  if name = text "foreign_key_check" ∨
      ([text "integrity_check", text "quick_check"].contains name ∧ !counted) then
    findTable part v.text

def applyValue (part : Option Part) (name : Bytes) (value : Pragma.Value) : Step Unit := do
  let v := value.text
  if name = text "query_only" then modify fun c => { c with queryOnly := Pragma.isOn v }
  else if name = text "encoding" then setForm v
  else if name = text "temp_store_directory" then
    let c ← get
    if v ≠ [] ∧ (c.alone ∨ !(c.tree.stat v).isOk) then throw (.statement .notWritable)
  else
    checkTables part name value
    if part ≠ some .temp then setValue name v
    else if headWriters.contains name ∨ (name = text "auto_vacuum" ∧ vacuums v) then refuseChanges

def apply (st : Pragma.Statement) : Step Unit := do
  let name := Text.lower st.name
  let part := st.database.bind fun d => Part.ofName? d.name
  match st.database, part with
  | some d, none => throw (.statement (.unknownDatabase d.written))
  | _, _ => pure ()
  if tableReaders.contains name then readTables
  if headReaders.contains name ∧ part ≠ some .temp then
    if st.value.isNone ∨ !headWriters.contains name then read
  if name = text "incremental_vacuum" then
    refuseChanges
    if part ≠ some .temp ∧ (← get).isBlank then writeHead
  match st.value with
  | none => if name = text "encoding" then readTables
  | some v => applyValue part name v

def applyAll (s : Bytes) : Step Unit :=
  (Pragma.statements s).forM fun
    | .ok st => apply st
    | .error fault => throw (.statement fault)

def prepare (settings : Settings) : Step Unit := do
  settings.statements.forM applyAll
  match settings.check with
  | .ok () => pure ()
  | .error fault => throw (.settings fault)

end ScriptCodec.Connection
