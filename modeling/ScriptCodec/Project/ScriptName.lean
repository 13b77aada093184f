import ScriptCodec.Project.Path

/-!
The name under which a script is known, taken from where its file lies. Below the source root a
script is named by its path from there, elsewhere by its own path, and the endings of script files
are left out.
-/
namespace ScriptCodec.ScriptName

def endings : List Bytes := [text ".gsc", text ".csc", text ".gasm", text ".cbor"]

def dropEnding (name : Bytes) : Bytes :=
  let ending := Path.extension name
  if endings.contains (Text.lower ending) then name.take (name.length - ending.length) else name

/-- A path as it is named from a root. A path is not below the root when what is left of it starts
with two dots. -/
def located (root path : Bytes) : Bytes :=
  if root.isEmpty then path
  else
    match Path.below? (Path.ofBytes root) (Path.ofBytes path) with
    | some rest =>
      let name := rest.toBytes
      if Path.parent.isPrefixOf name then path else name
    | none => path

def ofPath (root path : Bytes) : Bytes := dropEnding (Path.clean (located root path))

end ScriptCodec.ScriptName
