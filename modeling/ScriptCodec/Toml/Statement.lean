import ScriptCodec.Toml.Quoted
import ScriptCodec.Toml.Scalar

/-!
The grammar of a configuration file: a list of statements, each of which opens a table, opens a new
element of a list of tables, or gives a key a value. What a repeated key means is left to the
document. Readers spend one unit of fuel a step; a file has enough with two for each of its bytes.
-/
namespace ScriptCodec.Toml

abbrev Key := List Bytes

inductive Term where
  | string (s : Bytes)
  | integer (n : Int)
  | float
  | boolean (b : Bool)
  | moment
  | array (items : List Term)
  | inlineTable (entries : List (Key × Term))
deriving Repr

inductive Statement where
  | table (key : Key)
  | element (key : Key)
  | assign (key : Key) (value : Term)
deriving Repr

def Scalar.term : Scalar → Term
  | .integer n => .integer n
  | .float => .float
  | .moment => .moment

def dropOrderMark : Bytes → Bytes
  | 0xFF :: 0xFE :: rest => rest
  | 0xFE :: 0xFF :: rest => rest
  | 0xEF :: 0xBB :: 0xBF :: rest => rest
  | s => s

/-- No control characters but tab, line feed, and carriage return before a line feed. -/
def controlsOk : Bytes → Bool
  | [] => true
  | 0x0D :: rest => rest.head? == some 0x0A && controlsOk rest
  | b :: rest => (b == 0x09 || b == 0x0A || (0x20 ≤ b && b != 0x7F)) && controlsOk rest

def skipBlanks (s : Bytes) : Bytes := s.dropWhile isBlank

def skipFree (inComment : Bool) : Bytes → Bytes
  | [] => []
  | b :: rest =>
    if inComment then skipFree (!isBreak b) rest
    else if isSpace b then skipFree false rest
    else if b = 0x23 then skipFree true rest
    else b :: rest

def isLetter (b : UInt8) : Bool := (0x61 ≤ b && b ≤ 0x7A) || (0x41 ≤ b && b ≤ 0x5A)

def isBare (b : UInt8) : Bool := isLetter b || isDigit b || b == 0x5F || b == 0x2D

def isQuote (b : UInt8) : Bool := b == doubleQuote || b == singleQuote

def keyPart : Bytes → Option (Bytes × Bytes)
  | [] => none
  | b :: rest =>
    if isQuote b then quotedLine b rest
    else
      let word := (b :: rest).takeWhile isBare
      if word.isEmpty then none else some (word, (b :: rest).drop word.length)

def keyParts (done : List Bytes) : Nat → Bytes → Option (Key × Bytes)
  | 0, _ => none
  | fuel + 1, s =>
    match keyPart (skipBlanks s) with
    | none => none
    | some (part, rest) =>
      match skipBlanks rest with
      | 0x2E :: rest => keyParts (part :: done) fuel rest
      | rest => some ((part :: done).reverse, rest)

def word (s : Bytes) : Option (Term × Bytes) :=
  let name := s.takeWhile isLetter
  let rest := s.drop name.length
  if name = text "true" then some (.boolean true, rest)
  else if name = text "false" then some (.boolean false, rest)
  else if name = text "inf" ∨ name = text "nan" then some (.float, rest)
  else none

mutual

def term : Nat → Bytes → Option (Term × Bytes)
  | 0, _ => none
  | fuel + 1, s =>
    match skipBlanks s with
    | [] => none
    | b :: rest =>
      if b = 0x5B then (items fuel [] rest).map fun (xs, rest) => (.array xs, rest)
      else if b = 0x7B then (entries fuel [] rest).map fun (es, rest) => (.inlineTable es, rest)
      else if isQuote b then (quoted b rest).map fun (s, rest) => (.string s, rest)
      else if isDigit b || b == 0x2B || b == 0x2D then
        (scalarAt (b :: rest)).map fun (v, rest) => (v.term, rest)
      else word (b :: rest)

def items : Nat → List Term → Bytes → Option (List Term × Bytes)
  | 0, _, _ => none
  | fuel + 1, done, s =>
    match skipFree false s with
    | 0x5D :: rest => some (done.reverse, rest)
    | s =>
      match term fuel s with
      | none => none
      | some (x, rest) =>
        match skipFree false rest with
        | 0x2C :: rest => items fuel (x :: done) rest
        | 0x5D :: rest => some ((x :: done).reverse, rest)
        | _ => none

def entries : Nat → List (Key × Term) → Bytes → Option (List (Key × Term) × Bytes)
  | 0, _, _ => none
  | fuel + 1, done, s =>
    match skipFree false s with
    | 0x7D :: rest => some (done.reverse, rest)
    | s =>
      match keyParts [] fuel s with
      | some (key, 0x3D :: rest) =>
        match term fuel rest with
        | none => none
        | some (x, rest) =>
          match skipFree false rest with
          | 0x2C :: rest => entries fuel ((key, x) :: done) rest
          | 0x7D :: rest => some (((key, x) :: done).reverse, rest)
          | _ => none
      | _ => none

end

def statement (fuel : Nat) : Bytes → Option (Statement × Bytes)
  | 0x5B :: 0x5B :: rest =>
    match keyParts [] fuel rest with
    | some (key, 0x5D :: 0x5D :: rest) => some (.element key, rest)
    | _ => none
  | 0x5B :: rest =>
    match keyParts [] fuel rest with
    | some (key, 0x5D :: rest) => some (.table key, rest)
    | _ => none
  | s =>
    match keyParts [] fuel s with
    | some (key, 0x3D :: rest) => (term fuel rest).map fun (v, rest) => (.assign key v, rest)
    | _ => none

def endsStatement (s : Bytes) : Bool :=
  match s.head? with
  | none => true
  | some b => isBreak b || b == 0x23

def statements (done : List Statement) : Nat → Bytes → Option (List Statement)
  | 0, _ => none
  | fuel + 1, s =>
    match skipFree false s with
    | [] => some done.reverse
    | s =>
      match statement fuel s with
      | none => none
      | some (st, rest) =>
        let rest := skipBlanks rest
        if endsStatement rest then statements (st :: done) fuel rest else none

def parse (file : Bytes) : Option (List Statement) :=
  let s := dropOrderMark file
  if Utf8.isValid s && controlsOk s then statements [] (2 * s.length + 2) s else none

end ScriptCodec.Toml
