import ScriptCodec.Object.Report
import ScriptCodec.Symbol.StoredIndex

/-!
The answer to a question about a symbol: where it is defined and where it is referred to. A symbol
with a namespace asks for references in that namespace only.
-/
namespace ScriptCodec.Lookup

def place (offset : UInt32) : Bytes := text " @ 0x" ++ Text.hexPadded 6 offset.toNat

def definitionLine (d : Definition) : Bytes :=
  text ";   defined  " ++ d.script ++ place d.offset ++ text " params " ++
    Text.decimal d.params.toNat ++ [0x0A]

def referenceLine (r : Reference) : Bytes :=
  let caller := if r.caller.isEmpty then text "?" else r.caller
  text ";   " ++ Utf8.padRight 8 r.kind.display ++ [0x20] ++ r.script ++ text "::" ++ caller ++
    place r.offset ++ [0x20] ++ Report.qualified r.space r.name ++ Report.devMark r.devOnly ++
    [0x0A]

def answer (index : StoredIndex) (symbol : Bytes) : Bytes :=
  let (definitions, references) := match Text.cut (text "::") symbol with
    | some (space, name) => (index.definitionsOf name, index.referencesIn space name)
    | none => (index.definitionsOf symbol, index.referencesTo symbol)
  text "; " ++ symbol ++ [0x0A] ++ definitions.flatMap definitionLine ++
    references.flatMap referenceLine ++
    (if definitions.isEmpty && references.isEmpty then text ";   not found\n" else [])

end ScriptCodec.Lookup
