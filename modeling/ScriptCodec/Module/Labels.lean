import ScriptCodec.Text.Basic

/-!
The labels of a function: a name for each of some offsets, kept in ascending order of the offset,
so that two label maps are equal exactly when they name the same offsets alike.
-/
namespace ScriptCodec

abbrev Labels := List (UInt32 × Bytes)

namespace Labels

def set (offset : UInt32) (name : Bytes) : Labels → Labels
  | [] => [(offset, name)]
  | e :: rest =>
    if offset < e.1 then (offset, name) :: e :: rest
    else if offset = e.1 then (offset, name) :: rest
    else e :: set offset name rest

def setNew (offset : UInt32) (name : Bytes) : Labels → Labels
  | [] => [(offset, name)]
  | e :: rest =>
    if offset < e.1 then (offset, name) :: e :: rest
    else if offset = e.1 then e :: rest
    else e :: setNew offset name rest

/-- The labels of a list of entries. The last name given to an offset is the one it keeps. -/
def ofEntries (entries : List (UInt32 × Bytes)) : Labels :=
  entries.foldr (fun e labels => labels.setNew e.1 e.2) []

def nameAt? (labels : Labels) (offset : UInt32) : Option Bytes :=
  (List.find? (fun e => e.1 == offset) labels).map Prod.snd

def nameOf (target : UInt32) : Bytes := text "loc_" ++ Text.hex target.toNat

def ofTargets (targets : List UInt32) : Labels :=
  targets.foldr (fun t labels => labels.set t (nameOf t)) []

end Labels
end ScriptCodec
