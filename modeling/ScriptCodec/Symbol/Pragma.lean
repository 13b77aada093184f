import ScriptCodec.Symbol.TextForm
import ScriptCodec.Text.Quoted

/-!
Statements that adjust the use of a symbol index: `pragma`, a name, perhaps with the name of a
database and a dot in front of it, and perhaps a value after `=` or between brackets. A text may
hold several of them with semicolons between. Each is read only when those before it have been read.
-/
namespace ScriptCodec.Pragma

inductive Token where
  | word (s : Bytes)
  | quoted (s : Bytes)
  | number
  | mark (b : UInt8)
  | other
  | unreadable
deriving DecidableEq, Repr

structure Lexeme where
  raw : Bytes
  token : Token
deriving DecidableEq, Repr

inductive Fault where
  | incomplete
  | unexpected (raw : Bytes)
  | unreadable (raw : Bytes)
  | unknownDatabase (name : Bytes)
  | unsupportedEncoding (name : Bytes)
  | unknownTable (database : Option Bytes) (name : Bytes)
  | notWritable
deriving DecidableEq, Repr

def Fault.message (f : Fault) : Bytes :=
  text "SQL logic error: " ++ detail f ++ text " (1)"
where
  detail : Fault → Bytes
    | .incomplete => text "incomplete input"
    | .unexpected raw => text "near \"" ++ raw ++ text "\": syntax error"
    | .unreadable raw => text "unrecognized token: \"" ++ raw ++ text "\""
    | .unknownDatabase name => text "unknown database " ++ name
    | .unsupportedEncoding name => text "unsupported encoding: " ++ name
    | .unknownTable none name => text "no such table: " ++ name
    | .unknownTable (some database) name => text "no such table: " ++ database ++ [0x2E] ++ name
    | .notWritable => text "not a writable directory"

def isSpace (b : UInt8) : Bool := b == 0x20 || b == 0x09 || b == 0x0A || b == 0x0C || b == 0x0D

/-- What a run of blanks may go on with: a vertical tab cannot start one. -/
def isBlank (b : UInt8) : Bool := isSpace b || b == 0x0B

def isDigit (b : UInt8) : Bool := 0x30 ≤ b && b ≤ 0x39

def isHexDigit (b : UInt8) : Bool := (Text.hexValue b).isSome

def isSeparator (b : UInt8) : Bool := b == 0x5F

def startsWord (b : UInt8) : Bool :=
  (0x61 ≤ b && b ≤ 0x7A) || (0x41 ≤ b && b ≤ 0x5A) || b == 0x5F || 0x80 ≤ b

def continuesWord (b : UInt8) : Bool := startsWord b || isDigit b || b == 0x24

/-- The text up to a closing quote, which is written twice to stand for itself, and what follows. -/
def quotedText (quote : UInt8) (done : Bytes) : Bytes → Option (Bytes × Bytes)
  | [] => none
  | b :: rest =>
    if b = quote then
      match rest with
      | c :: after =>
        if c = quote then quotedText quote (quote :: done) after else some (done.reverse, rest)
      | [] => some (done.reverse, [])
    else quotedText quote (b :: done) rest

def afterDigits (s : Bytes) : Bytes := s.dropWhile fun b => isDigit b || isSeparator b

def afterExponent : Bytes → Bytes
  | e :: rest =>
    let digits := match rest with
      | sign :: after => if sign = 0x2B ∨ sign = 0x2D then after else rest
      | [] => rest
    if (e = 0x65 ∨ e = 0x45) ∧ digits.head?.any isDigit then afterDigits digits else e :: rest
  | [] => []

def afterNumber (s : Bytes) : Bytes :=
  match s with
  | 0x30 :: x :: d :: rest =>
    if (x = 0x78 ∨ x = 0x58) ∧ isHexDigit d then
      rest.dropWhile fun b => isHexDigit b || isSeparator b
    else afterDecimal s
  | _ => afterDecimal s
where
  afterDecimal (s : Bytes) : Bytes :=
    match afterDigits s with
    | 0x2E :: fraction => afterExponent (afterDigits fraction)
    | rest => afterExponent rest

/-- A number must not run on into a word. One with separators is read, but it has no place in a
statement. -/
def numberToken (s : Bytes) : Token × Bytes :=
  let after := afterNumber s
  if after.head?.any continuesWord then (.unreadable, after.dropWhile continuesWord)
  else if (s.take (s.length - after.length)).any isSeparator then (.other, after)
  else (.number, after)

/-- The rest of a variable, after the mark it starts with. Double colons may stand between its
words, and after a word anything without blanks between brackets ends it. -/
def variableToken (named : Bool) : Bytes → Token × Bytes
  | [] => (kind, [])
  | b :: rest =>
    if continuesWord b then variableToken true rest
    else if b = 0x28 ∧ named then
      match rest.dropWhile fun c => !isBlank c && c != 0x29 with
      | 0x29 :: after => (.other, after)
      | after => (.unreadable, after)
    else
      match rest with
      | c :: after => if b = 0x3A ∧ c = 0x3A then variableToken named after else (kind, b :: rest)
      | [] => (kind, b :: rest)
where
  kind : Token := if named then .other else .unreadable

def blobToken (s : Bytes) : Token × Bytes :=
  let digits := s.takeWhile isHexDigit
  match s.dropWhile isHexDigit with
  | 0x27 :: after => (if digits.length % 2 = 0 then .other else .unreadable, after)
  | rest => (.unreadable, (rest.dropWhile (· != 0x27)).drop 1)

def quotedToken (quote : UInt8) (s : Bytes) : Token × Bytes :=
  match quotedText quote [] s with
  | some (content, after) => (.quoted content, after)
  | none => (.unreadable, [])

def bracketedToken (s : Bytes) : Token × Bytes :=
  match Text.cut [0x5D] s with
  | some (content, after) => (.quoted content, after)
  | none => (.unreadable, [])

def operators : List Bytes :=
  [text "->>", text "->", text "<=", text "<>", text "<<", text ">=", text ">>", text "!=",
    text "||"]

def token (b : UInt8) (rest : Bytes) : Token × Bytes :=
  if b = 0x27 ∨ b = 0x22 ∨ b = 0x60 then quotedToken b rest
  else if b = 0x5B then bracketedToken rest
  else if isDigit b ∨ (b = 0x2E ∧ rest.head?.any isDigit) then numberToken (b :: rest)
  else if (b = 0x78 ∨ b = 0x58) ∧ rest.head? = some 0x27 then blobToken (rest.drop 1)
  else if startsWord b then
    (.word (b :: rest.takeWhile continuesWord), rest.dropWhile continuesWord)
  else if b = 0x3D then (.mark b, if rest.head? = some b then rest.drop 1 else rest)
  else
    match operators.find? (·.isPrefixOf (b :: rest)) with
    | some op => (.other, (b :: rest).drop op.length)
    | none =>
      if (text "()+-.;").contains b then (.mark b, rest)
      else if (text "*/%&~,<>|").contains b then (.other, rest)
      else if b = 0x3F then (.other, rest.dropWhile isDigit)
      else if (text "$@:#").contains b then variableToken false rest
      else (.unreadable, rest)

/-- A mark at the start of a text, which counts as a blank anywhere between lexemes. -/
def byteOrderMark : Bytes := [0xEF, 0xBB, 0xBF]

def lexemesFrom : Nat → Bytes → List Lexeme
  | 0, _ => []
  | _ + 1, [] => []
  | fuel + 1, b :: rest =>
    if isSpace b then lexemesFrom fuel (rest.dropWhile isBlank)
    else if byteOrderMark.isPrefixOf (b :: rest) then lexemesFrom fuel (rest.drop 2)
    else if [0x2D, 0x2D].isPrefixOf (b :: rest) then lexemesFrom fuel (rest.dropWhile (· != 0x0A))
    else if [0x2F, 0x2A].isPrefixOf (b :: rest) ∧ 1 < rest.length then
      lexemesFrom fuel (((Text.cut [0x2A, 0x2F] (rest.drop 1)).map Prod.snd).getD [])
    else
      let (t, after) := token b rest
      ⟨(b :: rest).take (rest.length + 1 - after.length), t⟩ :: lexemesFrom fuel after

/-- The lexemes of a text, which ends before its first zero byte. -/
def lexemes (s : Bytes) : List Lexeme :=
  let s := s.takeWhile (· != 0)
  lexemesFrom s.length s

def reserved : List Bytes := [
  text "add", text "all", text "alter", text "and", text "as", text "autoincrement",
  text "between", text "case", text "check", text "collate", text "commit", text "constraint",
  text "create", text "default", text "deferrable", text "delete", text "distinct", text "drop",
  text "else", text "escape", text "except", text "exists", text "foreign", text "from",
  text "group", text "having", text "in", text "index", text "insert", text "intersect",
  text "into", text "is", text "isnull", text "join", text "limit", text "not", text "nothing",
  text "notnull", text "null", text "on", text "or", text "order", text "primary",
  text "references", text "returning", text "select", text "set", text "table", text "then",
  text "to", text "transaction", text "union", text "unique", text "update", text "using",
  text "values", text "when", text "where"]

def commands : List Bytes := [
  text "alter", text "analyze", text "attach", text "begin", text "commit", text "create",
  text "delete", text "detach", text "drop", text "end", text "explain", text "insert",
  text "reindex", text "release", text "replace", text "rollback", text "savepoint",
  text "select", text "update", text "vacuum", text "values", text "with"]

inductive Value where
  | number (negative : Bool) (digits : Bytes)
  | word (s : Bytes)
deriving DecidableEq, Repr

def Value.text : Value → Bytes
  | .number true digits => 0x2D :: digits
  | .number false digits => digits
  | .word s => s

structure DatabaseName where
  name : Bytes
  written : Bytes
deriving DecidableEq, Repr

structure Statement where
  database : Option DatabaseName
  name : Bytes
  value : Option Value
deriving DecidableEq, Repr

def fail {α : Type} : List Lexeme → Except Fault α
  | [] => .error .incomplete
  | ⟨raw, .unreadable⟩ :: _ => .error (.unreadable raw)
  | ⟨raw, _⟩ :: _ => .error (.unexpected raw)

def Lexeme.isWord (word : Bytes) (l : Lexeme) : Bool :=
  match l.token with
  | .word s => Text.lower s == word
  | _ => false

/-- Whether `window` in front of these lexemes begins the definition of a window. -/
def definesWindow : List Lexeme → Bool
  | named :: next :: _ =>
    next.isWord (text "as") &&
      match named.token with
      | .quoted _ => true
      | .word s => !(text "filter" :: text "indexed" :: reserved).contains (Text.lower s)
      | _ => false
  | _ => false

def name (ls : List Lexeme) : Except Fault (Bytes × List Lexeme) :=
  match ls with
  | ⟨_, .quoted s⟩ :: rest => .ok (s, rest)
  | ⟨_, .word s⟩ :: rest =>
    if reserved.contains (Text.lower s) ∨ (Text.lower s = text "window" ∧ definesWindow rest) then
      fail ls
    else .ok (s, rest)
  | _ => fail ls

/-- A number, with a sign or without, or a word. A plus is dropped. -/
def value (ls : List Lexeme) : Except Fault (Value × List Lexeme) :=
  match ls with
  | ⟨raw, .number⟩ :: rest => .ok (.number false raw, rest)
  | ⟨_, .mark 0x2B⟩ :: ⟨raw, .number⟩ :: rest => .ok (.number false raw, rest)
  | ⟨_, .mark 0x2D⟩ :: ⟨raw, .number⟩ :: rest => .ok (.number true raw, rest)
  | ⟨_, .mark 0x2B⟩ :: rest => fail rest
  | ⟨_, .mark 0x2D⟩ :: rest => fail rest
  | ⟨_, .word s⟩ :: rest =>
    if [text "on", text "delete", text "default"].contains (Text.lower s) then .ok (.word s, rest)
    else named
  | _ => named
where
  named : Except Fault (Value × List Lexeme) := (name ls).map fun (s, rest) => (.word s, rest)

def close (st : Statement) (ls : List Lexeme) : Except Fault (Statement × List Lexeme) :=
  match ls with
  | [] => .ok (st, [])
  | ⟨_, .mark 0x3B⟩ :: rest => .ok (st, rest)
  | _ => fail ls

def argument (st : Statement) (ls : List Lexeme) : Except Fault (Statement × List Lexeme) :=
  match ls with
  | ⟨_, .mark 0x3D⟩ :: rest => do
    let (v, rest) ← value rest
    close { st with value := some v } rest
  | ⟨_, .mark 0x28⟩ :: rest => do
    let (v, rest) ← value rest
    match rest with
    | ⟨_, .mark 0x29⟩ :: rest => close { st with value := some v } rest
    | _ => fail rest
  | _ => close st ls

def statement (ls : List Lexeme) : Except Fault (Statement × List Lexeme) := do
  let (first, rest) ← name ls
  match rest with
  | ⟨_, .mark 0x2E⟩ :: rest =>
    let (second, rest) ← name rest
    argument ⟨some ⟨first, (ls.head?.map Lexeme.raw).getD []⟩, second, none⟩ rest
  | _ => argument ⟨none, first, none⟩ rest

/-- The statements of a text one after the other, up to the first that is at fault or of another
kind. -/
def statementsFrom : Nat → List Lexeme → List (Except Fault Statement)
  | 0, _ => []
  | _ + 1, [] => []
  | fuel + 1, l :: rest =>
    match l.token with
    | .mark 0x3B => statementsFrom fuel rest
    | .word s =>
      if Text.lower s = text "pragma" then
        match statement rest with
        | .ok (st, after) => .ok st :: statementsFrom fuel after
        | .error f => [.error f]
      else if commands.contains (Text.lower s) then []
      else [fail (l :: rest)]
    | _ => [fail (l :: rest)]

def statements (s : Bytes) : List (Except Fault Statement) :=
  let ls := lexemes (text "pragma " ++ s)
  statementsFrom ls.length ls

def digits (base : Nat) (ds : Bytes) : Nat :=
  ds.foldl (fun n d => n * base + (Text.hexValue d).getD 0) 0

def afterHexMark? : Bytes → Option Bytes
  | 0x30 :: x :: rest => if x = 0x78 ∨ x = 0x58 then some rest else none
  | _ => none

/-- The value of leading digits, if there are any and it takes no more than 31 bits. -/
def leadingCount? (v : Bytes) : Option Nat :=
  let n := match (afterHexMark? v).filter fun s => s.head?.any isHexDigit with
    | some s => digits 16 (s.takeWhile isHexDigit)
    | none => digits 10 (v.takeWhile isDigit)
  if v.head?.any isDigit ∧ n < 2147483648 then some n else none

/-- Whether a value switches something on. Of a number only the low eight bits count. -/
def isOn (v : Bytes) : Bool :=
  if v.head?.any isDigit then (leadingCount? v).getD 0 % 256 != 0
  else [text "on", text "yes", text "true"].contains (Text.lower v)

/-- A whole number that is not below zero, perhaps with a plus and with blanks around it. One byte
after the last that a number may hold is looked at, and none beyond it. -/
def count? (v : Bytes) : Option Nat :=
  match afterHexMark? v with
  | some s => if s.all isHexDigit then some (digits 16 s) else none
  | none =>
    let held := v.takeWhile fun b => isDigit b || (text "+- \n\t").contains b
    let s := (v.take (held.length + 1)).dropWhile isBlank
    let s := if s.head? = some 0x2B then s.drop 1 else s
    if s.head?.any isDigit ∧ (s.dropWhile isDigit).all isBlank then
      some (digits 10 (s.takeWhile isDigit))
    else none

def encodings : List (Bytes × TextForm) := [
  (text "utf8", .utf8), (text "utf-8", .utf8), (text "utf-16le", .utf16 false),
  (text "utf-16be", .utf16 true), (text "utf16le", .utf16 false), (text "utf16be", .utf16 true),
  (text "utf-16", .utf16 false), (text "utf16", .utf16 false)]

end ScriptCodec.Pragma
