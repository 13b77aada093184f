import ScriptCodec.Number.Literal
import ScriptCodec.Text.Quoted

/-!
The arguments of the command line. Options come first and start with one dash or two; their value
follows an equals sign or is the next argument. The first argument that is no option starts the
files, and so does what follows a lone double dash.
-/
namespace ScriptCodec.Command

structure Options where
  mode : Bytes
  output : Bytes
  format : Bytes
  workers : Int
  verbosity : Int
  configDir : Bytes
  paths : List Bytes
deriving DecidableEq, Repr

def Options.default : Options := ⟨text "disasm", [], [], 0, -1, text ".", []⟩

inductive OptionError where
  | help
  | badForm (arg : Bytes)
  | unknown (name : Bytes)
  | noValue (name : Bytes)
  | badValue (name value : Bytes) (reason : Number.Reason)
deriving DecidableEq, Repr

def OptionError.message : OptionError → Bytes
  | .help => []
  | .badForm arg => text "bad flag syntax: " ++ arg ++ [0x0A]
  | .unknown name => text "flag provided but not defined: -" ++ name ++ [0x0A]
  | .noValue name => text "flag needs an argument: -" ++ name ++ [0x0A]
  | .badValue name value reason =>
    text "invalid value " ++ Text.quote value ++ text " for flag -" ++ name ++ text ": " ++
      (match reason with
      | .malformed => text "parse error"
      | other => other.text) ++ [0x0A]

def OptionError.exitCode : OptionError → UInt32
  | .help => 0
  | _ => 2

inductive Argument where
  | operand
  | stop
  | malformed
  | option (name : Bytes) (value : Option Bytes)

def Argument.ofName (name : Bytes) : Argument :=
  match name with
  | [] => .malformed
  | b :: rest =>
    if b = 0x2D ∨ b = 0x3D then .malformed
    else
      let head := rest.takeWhile (· != 0x3D)
      match rest.drop head.length with
      | _ :: value => .option (b :: head) (some value)
      | [] => .option (b :: head) none

def Argument.ofBytes : Bytes → Argument
  | [0x2D, 0x2D] => .stop
  | 0x2D :: 0x2D :: rest => .ofName rest
  | 0x2D :: b :: rest => .ofName (b :: rest)
  | _ => .operand

inductive Setter where
  | text (set : Options → Bytes → Options)
  | number (set : Options → Int → Options)

def setters : List (Bytes × Setter) := [
  (ScriptCodec.text "mode", .text fun o v => { o with mode := v }),
  (ScriptCodec.text "o", .text fun o v => { o with output := v }),
  (ScriptCodec.text "format", .text fun o v => { o with format := v }),
  (ScriptCodec.text "j", .number fun o n => { o with workers := n }),
  (ScriptCodec.text "v", .number fun o n => { o with verbosity := n }),
  (ScriptCodec.text "config", .text fun o v => { o with configDir := v })]

def isHelp (name : Bytes) : Bool := name == text "help" || name == text "h"

def Setter.apply (name value : Bytes) (o : Options) : Setter → Except OptionError Options
  | .text set => .ok (set o value)
  | .number set =>
    match Number.literal 64 value with
    | .ok n => .ok (set o n)
    | .error reason => .error (.badValue name value reason)

def Options.read (o : Options) : List Bytes → Except OptionError Options
  | [] => .ok o
  | arg :: rest =>
    match Argument.ofBytes arg with
    | .operand => .ok { o with paths := arg :: rest }
    | .stop => .ok { o with paths := rest }
    | .malformed => .error (.badForm arg)
    | .option name value? =>
      match setters.lookup name with
      | none => .error (if isHelp name then .help else .unknown name)
      | some setter =>
        match value?, rest with
        | some value, rest =>
          match setter.apply name value o with
          | .ok o => read o rest
          | .error e => .error e
        | none, value :: rest =>
          match setter.apply name value o with
          | .ok o => read o rest
          | .error e => .error e
        | none, [] => .error (.noValue name)

def Options.ofArguments (args : List Bytes) : Except OptionError Options :=
  Options.default.read args

def usageLines : List String := [
  "Usage: gscasm [options] <file>...",
  "",
  "Disassembles T6 compiled scripts into listings and assembles them back.",
  "",
  "Options:",
  "  -config string",
  "    \tDirectory to search upwards for gscasm.toml (default \".\")",
  "  -format string",
  "    \tListing format for disasm output and asm input: listing or cbor",
  "  -j int",
  "    \tFunctions to decode in parallel (overrides gscasm.toml)",
  "  -mode string",
  "    \tMode: disasm, asm, dump, index or lookup (default \"disasm\")",
  "  -o string",
  "    \tOutput file (\"-\" for stdout); default is <output dir>/<script name>",
  "  -v int",
  "    \tLog verbosity (overrides gscasm.toml) (default -1)",
  "",
  "Examples:",
  "  gscasm maps/mp/_utility.gsc              # write out/maps/mp/_utility.gasm",
  "  gscasm -mode asm -o - _utility.gasm > x  # assemble to stdout",
  "  gscasm -mode disasm -format cbor a.gsc   # write the module as CBOR",
  "  gscasm -mode dump a.gsc                  # print header and tables",
  "  gscasm -mode index maps/mp/*.gsc         # record symbols in the index",
  "  gscasm -mode lookup maps::spawn_player   # find definitions and callers",
  "  gscasm -mode lookup spawn_player         # same, callers in any namespace"]

def usage : Bytes := usageLines.flatMap fun line => text line ++ [0x0A]

end ScriptCodec.Command
