import ScriptCodec.Object.DecodeError

/-!
The extent of the exported functions. The export table has no sizes: functions follow each other
in table order with a gap of four zero bytes, before which up to three bytes of padding may
stand. `derive` recovers the sizes, and `gapPadding` is the padding that makes this possible.
All arithmetic is on 32-bit words.
-/
namespace ScriptCodec.ExportSizes

def gap : UInt32 := 4

/-- Takes up to `limit` trailing bytes off a function until one of them closes it. -/
def trim (img : Image) (e : Export) : Nat → UInt32 → Decoding UInt32
  | 0, size => .ok size
  | limit + 1, size =>
    if size = 0 then .ok size
    else
      let last := e.offset + size - 1
      match img[last.toNat]? with
      | none => Decoding.fail (.endsPastInput e.name last)
      | some op => if Opcode.closesFunction op then .ok size else trim img e limit (size - 1)

def sizeBefore (img : Image) (e next : Export) : Decoding UInt32 :=
  if next.offset < e.offset + gap then
    Decoding.fail (.overlap e.name e.offset next.name next.offset)
  else trim img e 3 (next.offset - e.offset - gap)

def lastSize (e : Export) (codeEnd : UInt32) : Decoding UInt32 :=
  if codeEnd < e.offset then Decoding.fail (.startsPastCode e.name e.offset codeEnd)
  else .ok (codeEnd - e.offset)

def deriveLoop (img : Image) (codeEnd : UInt32) (done : List Export) :
    List Export → Decoding (List Export)
  | [] => .ok done.reverse
  | [e] => (lastSize e codeEnd).map fun size => ({ e with size } :: done).reverse
  | e :: next :: rest =>
    (sizeBefore img e next).bind fun size =>
      deriveLoop img codeEnd ({ e with size } :: done) (next :: rest)

def derive (img : Image) (exports : List Export) (codeEnd : UInt32) : Decoding (List Export) :=
  deriveLoop img codeEnd [] exports

/-- How many padding bytes follow a function that ends at `stop`, before the gap. A body that
closes itself is padded so that the next one starts on a multiple of four; any other gets three
bytes, which is what `derive` takes off. -/
def gapPadding (body : Bytes) (stop : UInt32) : Nat :=
  match body.getLast? with
  | some op => if Opcode.closesFunction op then Word.padding 4 stop.toNat else 3
  | none => Word.padding 4 stop.toNat

end ScriptCodec.ExportSizes
