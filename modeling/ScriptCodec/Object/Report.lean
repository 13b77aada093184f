import ScriptCodec.Object.Basic
import ScriptCodec.Text.Quoted

/-!
A readable summary of a script object: its header and every table that has entries.
-/
namespace ScriptCodec.Report

def count (label : String) (n : Nat) (offset : UInt32) : Bytes :=
  text "; " ++ text label ++ text ": " ++ Text.decimal n ++ text " at 0x" ++
    Text.hex offset.toNat ++ [0x0A]

def headerLines (path : Bytes) (obj : ScriptObject) : Bytes :=
  let h := obj.header
  text "; === " ++ path ++ text " ===\n; Name: " ++ Text.quote obj.body.name ++
    text "\n; Magic: 0x" ++ Text.hexPadded 16 h.magic.toNat ++
    text "  Source CRC: 0x" ++ Text.hexPadded 8 h.sourceCrc.toNat ++
    text "  Flags: 0x" ++ Text.hexPadded 2 h.flags.toNat ++
    text "\n; Code: 0x" ++ Text.hex h.codeSize.toNat ++
    text " bytes at 0x" ++ Text.hex h.codeOffset.toNat ++ [0x0A] ++
    count "Includes" h.includeCount.toNat h.includeOffset ++
    count "Animtrees" h.animTreeCount.toNat h.animTreeOffset ++
    count "String fixups" h.stringFixupCount.toNat h.stringFixupOffset ++
    count "Exports" h.exportsCount.toNat h.exportsOffset ++
    count "Imports" h.importsCount.toNat h.importsOffset ++ [0x0A]

def table (title : String) (rows : List Bytes) : Bytes :=
  if rows.isEmpty then [] else text "; " ++ text title ++ text ":\n" ++ rows.flatten

def rowNumber (i : Nat) : Bytes :=
  text ";   [" ++ (Text.decimal i).leftpad 3 0x20 ++ text "] "

def exportRow (e : Export) (i : Nat) : Bytes :=
  rowNumber i ++ text "0x" ++ Text.hexPadded 6 e.offset.toNat ++
    text " size 0x" ++ Text.hexPadded 4 e.size.toNat ++
    text " crc 0x" ++ Text.hexPadded 8 e.checksum.toNat ++
    text " params " ++ Text.decimal e.params.toNat ++
    text " flags 0x" ++ Text.hexPadded 2 e.flags.toNat ++ [0x20] ++ e.name ++ [0x0A]

def qualified (space name : Bytes) : Bytes :=
  if space.isEmpty then name else space ++ text "::" ++ name

def devMark (devOnly : Bool) : Bytes := if devOnly then text " [DEV]" else []

def importRow (e : Import) (i : Nat) : Bytes :=
  rowNumber i ++ Utf8.padRight 13 e.kind.display ++
    text " params " ++ Text.decimal e.params.toNat ++
    text " refs " ++ Text.decimal e.refs.length ++ [0x20] ++
    qualified e.space e.name ++ devMark e.devOnly ++ [0x0A]

def treeRow (t : AnimTree) : Bytes :=
  text ";   " ++ t.name ++ text " (" ++ Text.decimal t.refs.length ++ text " refs)\n" ++
    t.anims.flatMap fun a =>
      text ";     0x" ++ Text.hexPadded 6 a.ref.toNat ++ [0x20] ++ Text.quote a.name ++ [0x0A]

def fixupRow (f : StringFixup) : Bytes :=
  text ";   " ++ Utf8.padRight 32 (Text.quote f.name) ++ [0x20] ++
    Text.decimal f.refs.length ++ text " refs\n"

def closed (t : Bytes) : Bytes := if t.isEmpty then [] else t ++ [0x0A]

end ScriptCodec.Report

namespace ScriptCodec

def ScriptObject.report (obj : ScriptObject) (path : Bytes) : Bytes :=
  let includes := obj.includes.map fun name => text ";   " ++ name ++ [0x0A]
  Report.headerLines path obj ++
    Report.closed (Report.table "Includes" includes) ++
    Report.closed (Report.table "Exports" (obj.exports.mapIdx fun i e => Report.exportRow e i)) ++
    Report.closed (Report.table "Imports" (obj.imports.mapIdx fun i e => Report.importRow e i)) ++
    Report.closed (Report.table "Animtrees" (obj.animTrees.map Report.treeRow)) ++
    Report.table "String fixups" (obj.fixups.map Report.fixupRow)

end ScriptCodec
