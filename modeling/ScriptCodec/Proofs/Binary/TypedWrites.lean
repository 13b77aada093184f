import ScriptCodec.Binary.Cursor
import ScriptCodec.Proofs.Binary.Holds

/-!
Typed writes and the reads that match them. A write puts the same bytes at every place, but for
padding, which depends on the position; so what a sequence of writes leaves is known from its
start. Reading it with the matching reads gives back each value and each position, and writing
over a part of it keeps the rest.
-/
namespace ScriptCodec

namespace Image

theorem toList_front (img : Image) (n : Nat) : (img.extract 0 n).toList = img.toList.take n := by
  rw [Array.toList_extract, List.extract_eq_take_drop, Nat.sub_zero, List.drop_zero]

theorem toList_back (img : Image) (n : Nat) :
    (img.extract n img.size).toList = img.toList.drop n := by
  have hlength : (img.toList.drop n).length = img.size - n := by
    rw [List.length_drop, Array.length_toList]
  rw [Array.toList_extract, List.extract_eq_take_drop]
  exact List.take_of_length_le (Nat.le_of_eq hlength)

end Image

namespace Cursor

inductive Value where
  | u8 (v : UInt8)
  | u16 (v : UInt16)
  | i16 (v : Int16)
  | u32 (v : UInt32)
  | i32 (v : Int32)
  | u64 (v : UInt64)
  | f32 (bits : UInt32)
  | cstring (s : Bytes)
  | bytes (s : Bytes)
deriving DecidableEq, Repr

inductive Write where
  | value (v : Value)
  | align (n : Int64)
deriving DecidableEq, Repr

inductive Read where
  | u8 | u16 | i16 | u32 | i32 | u64 | f32 | cstring
  | bytes (count : Int)
  | align (n : Int64)
deriving DecidableEq, Repr

/-- What a write or a read gives: a value, or how many bytes of padding it passed. -/
inductive Datum where
  | value (v : Value)
  | padding (count : Int)
deriving DecidableEq, Repr

def Value.put (c : Cursor) : Value → Cursor
  | u8 v => c.writeU8 v
  | u16 v => c.writeU16 v
  | i16 v => c.writeI16 v
  | u32 v => c.writeU32 v
  | i32 v => c.writeI32 v
  | u64 v => c.writeU64 v
  | f32 bits => c.writeF32 bits
  | cstring s => c.writeCString s
  | bytes s => c.writeBytes s

def Write.put (c : Cursor) : Write → Datum × Cursor
  | value v => (.value v, v.put c)
  | align n => let (skip, c) := c.writeAlign n.toInt; (.padding skip, c)

def Read.get (c : Cursor) : Read → Except RangeFault (Datum × Cursor)
  | u8 => c.readU8.map fun (v, c) => (.value (.u8 v), c)
  | u16 => c.readU16.map fun (v, c) => (.value (.u16 v), c)
  | i16 => c.readI16.map fun (v, c) => (.value (.i16 v), c)
  | u32 => c.readU32.map fun (v, c) => (.value (.u32 v), c)
  | i32 => c.readI32.map fun (v, c) => (.value (.i32 v), c)
  | u64 => c.readU64.map fun (v, c) => (.value (.u64 v), c)
  | f32 => c.readF32.map fun (v, c) => (.value (.f32 v), c)
  | cstring => c.readCString.map fun (s, c) => (.value (.cstring s), c)
  | bytes count => (c.readBytes count).map fun (s, c) => (.value (.bytes s), c)
  | align n => let (skip, c) := c.align n.toInt; .ok (.padding skip, c)

def Write.read : Write → Read
  | value (.u8 _) => .u8
  | value (.u16 _) => .u16
  | value (.i16 _) => .i16
  | value (.u32 _) => .u32
  | value (.i32 _) => .i32
  | value (.u64 _) => .u64
  | value (.f32 _) => .f32
  | value (.cstring _) => .cstring
  | value (.bytes s) => .bytes s.length
  | align n => .align n

def putAll (c : Cursor) : List Write → List (Datum × Int) × Cursor
  | [] => ([], c)
  | w :: ws =>
    let (datum, c) := w.put c
    let (trace, last) := putAll c ws
    ((datum, c.pos) :: trace, last)

theorem putAll_cons (c : Cursor) (w : Write) (ws : List Write) :
    putAll c (w :: ws) = (((w.put c).1, (w.put c).2.pos) :: (putAll (w.put c).2 ws).1,
      (putAll (w.put c).2 ws).2) := rfl

def getAll (c : Cursor) : List Read → Except RangeFault (List (Datum × Int) × Cursor)
  | [] => .ok ([], c)
  | r :: rs =>
    (r.get c).bind fun (datum, c) =>
      (getAll c rs).map fun (trace, last) => ((datum, c.pos) :: trace, last)

def Value.encode : Value → Bytes
  | u8 v => [v]
  | u16 v => Word.u16 v
  | i16 v => Word.u16 v.toUInt16
  | u32 v => Word.u32 v
  | i32 v => Word.u32 v.toUInt32
  | u64 v => Word.u64 v
  | f32 bits => Word.u32 bits
  | cstring s => s ++ [0]
  | bytes s => s

namespace Write

def encode (pos : Nat) : Write → Bytes
  | value v => v.encode
  | align n => List.replicate (Word.padding n.toInt.toNat pos) 0

def datum (pos : Nat) : Write → Datum
  | value v => .value v
  | align n => .padding (Word.padding n.toInt.toNat pos)

def stop (pos : Nat) (w : Write) : Nat := pos + (w.encode pos).length

end Write

def encodeFrom (pos : Nat) : List Write → Bytes
  | [] => []
  | w :: ws => w.encode pos ++ encodeFrom (w.stop pos) ws

def traceFrom (pos : Nat) : List Write → List (Datum × Int)
  | [] => []
  | w :: ws => (w.datum pos, w.stop pos) :: traceFrom (w.stop pos) ws

theorem eq_of_toList {c d : Cursor} (hbytes : c.bytes.toList = d.bytes.toList)
    (hpos : c.pos = d.pos) : c = d := by
  cases c
  cases d
  rw [mk.injEq]
  exact ⟨Array.toList_inj.mp hbytes, hpos⟩

theorem wrap_eq {n : Int} (hlow : -2 ^ 63 ≤ n) (hhigh : n < 2 ^ 63) : wrap n = n :=
  Int.bmod_eq_of_le_mul_two (by omega) (by omega)

/-- At positions in range the padding is that of natural numbers. -/
theorem alignment_eq (pos : Nat) {n : Int} (hn : n < 2 ^ 63) :
    alignment pos n = Word.padding n.toNat pos := by
  unfold alignment
  split
  · have hsmall : n.toNat = 0 ∨ n.toNat = 1 := by omega
    rcases hsmall with h | h
    · simp [h, Word.padding]
    · rw [h, Word.padding, Nat.mod_one]
      rfl
  · obtain ⟨k, rfl⟩ := Int.eq_ofNat_of_zero_le (show 0 ≤ n by omega)
    have hrest := Nat.mod_lt pos (show 0 < k by omega)
    rw [← Int.ofNat_tmod, wrap_eq (by omega) (by omega), ← Int.ofNat_sub (Nat.le_of_lt hrest),
      ← Int.ofNat_tmod]
    rfl

section

variable {c : Cursor} {pos : Nat} {bs : Bytes}

theorem length_take_bytes (hle : pos ≤ c.length) : (c.bytes.toList.take pos).length = pos := by
  rw [List.length_take, Array.length_toList]
  exact Nat.min_eq_left hle

theorem toList_writeBytes (hpos : c.pos = pos) (hle : pos ≤ c.length) :
    (c.writeBytes bs).bytes.toList =
      c.bytes.toList.take pos ++ bs ++ c.bytes.toList.drop (pos + bs.length) := by
  have hgap : pos - c.bytes.size = 0 := Nat.sub_eq_zero_of_le hle
  simp only [writeBytes, hpos, Int.toNat_natCast, hgap, Array.replicate_zero, Array.append_empty,
    Array.toList_append, Image.toList_front, Image.toList_back]

theorem length_writeBytes (hpos : c.pos = pos) (hle : pos ≤ c.length) :
    (c.writeBytes bs).length = max c.length (pos + bs.length) := by
  have hcount := congrArg List.length (@toList_writeBytes c pos bs hpos hle)
  have hlength : c.bytes.toList.length = c.length := Array.length_toList
  simp only [Array.length_toList, List.length_append, List.length_take, List.length_drop,
    hlength] at hcount
  rw [length, hcount]
  omega

theorem holds_writeBytes (hpos : c.pos = pos) (hle : pos ≤ c.length) :
    (c.writeBytes bs).bytes.Holds pos bs :=
  ⟨_, _, toList_writeBytes hpos hle, length_take_bytes hle⟩

theorem getElem?_writeBytes (hpos : c.pos = pos) (hle : pos ≤ c.length) {i : Nat}
    (hi : i < pos ∨ pos + bs.length ≤ i) : (c.writeBytes bs).bytes[i]? = c.bytes[i]? := by
  have hfront := length_take_bytes hle
  rw [← Array.getElem?_toList, toList_writeBytes hpos hle, ← Array.getElem?_toList]
  rcases hi with hi | hi
  · rw [List.append_assoc, List.getElem?_append_left (by omega), List.getElem?_take_of_lt hi]
  · have hmiddle : (c.bytes.toList.take pos ++ bs).length = pos + bs.length := by
      rw [List.length_append, hfront]
    rw [List.getElem?_append_right (by omega), hmiddle, List.getElem?_drop]
    congr 1
    omega

theorem le_length_writeBytes (c : Cursor) (bs : Bytes) : c.length ≤ (c.writeBytes bs).length := by
  simp only [length, writeBytes, Array.size_append, Array.size_extract, Array.size_replicate,
    List.size_toArray]
  omega

theorem pos_writeBytes (hpos : c.pos = pos) (hfit : pos + bs.length < 2 ^ 63) :
    (c.writeBytes bs).pos = (pos + bs.length : Nat) := by
  simp only [writeBytes, hpos, ← Int.natCast_add]
  exact wrap_eq (by omega) (by omega)

theorem writeBytes_append (hpos : c.pos = pos) (hle : pos ≤ c.length) {s t : Bytes}
    (hfit : pos + (s ++ t).length < 2 ^ 63) :
    c.writeBytes (s ++ t) = (c.writeBytes s).writeBytes t := by
  rw [List.length_append] at hfit
  have hmid : (c.writeBytes s).pos = (pos + s.length : Nat) := pos_writeBytes hpos (by omega)
  have hin : pos + s.length ≤ (c.writeBytes s).length := by
    rw [length_writeBytes hpos hle]
    exact Nat.le_max_right _ _
  have hfront : (c.bytes.toList.take pos ++ s).length = pos + s.length := by
    rw [List.length_append, length_take_bytes hle]
  have hback : (c.bytes.toList.take pos ++ s ++ c.bytes.toList.drop (pos + s.length)).drop
      (pos + s.length + t.length) = c.bytes.toList.drop (pos + (s ++ t).length) := by
    rw [← List.drop_drop, List.drop_left' hfront, List.drop_drop, List.length_append, Nat.add_assoc]
  apply eq_of_toList
  · rw [toList_writeBytes hpos hle, toList_writeBytes hmid hin, toList_writeBytes hpos hle,
      List.take_left' hfront, hback, List.append_assoc _ s t]
  · rw [pos_writeBytes hpos (by rwa [List.length_append]), pos_writeBytes hmid (by omega),
      List.length_append, Nat.add_assoc]

theorem put_eq (hpos : c.pos = pos) (w : Write) :
    w.put c = (w.datum pos, c.writeBytes (w.encode pos)) := by
  cases w with
  | value v => cases v <;> rfl
  | align n =>
    have halign : alignment pos n.toInt = Word.padding n.toInt.toNat pos :=
      alignment_eq pos n.toInt_lt
    simp only [Write.put, writeAlign, fill, hpos, halign, Int.toNat_natCast]
    rfl

theorem setPos_of_le (hle : pos ≤ c.length) :
    c.setPos pos = .ok ⟨c.bytes, pos⟩ := by
  rw [setPos, if_neg]
  omega

/-- A write over bytes that are there changes these bytes alone. -/
theorem put_of_stop_le {w : Write} (hpos : c.pos = pos)
    (hle : w.stop pos ≤ c.length) :
    (w.put c).2.length = c.length ∧ (w.put c).2.bytes.Holds pos (w.encode pos) ∧
      ∀ i, i < pos ∨ w.stop pos ≤ i → (w.put c).2.bytes[i]? = c.bytes[i]? := by
  have hin : pos ≤ c.length := Nat.le_of_add_right_le hle
  rw [put_eq hpos w]
  refine ⟨?_, holds_writeBytes hpos hin, fun i hi => getElem?_writeBytes hpos hin hi⟩
  rw [length_writeBytes hpos hin]
  exact Nat.max_eq_left hle

theorem le_length_putAll (c : Cursor) (ws : List Write) : c.length ≤ (putAll c ws).2.length := by
  induction ws generalizing c with
  | nil => exact Nat.le_refl _
  | cons w ws ih =>
    have hput : c.length ≤ (w.put c).2.length := by
      cases w with
      | value v => cases v <;> exact le_length_writeBytes c _
      | align n => exact le_length_writeBytes c _
    exact Nat.le_trans hput (ih _)

theorem putAll_eq {ws : List Write} (hend : c.pos = c.length)
    (hsize : (putAll c ws).2.length < 2 ^ 63) :
    (putAll c ws).1 = traceFrom c.length ws ∧
      (putAll c ws).2.bytes.toList = c.bytes.toList ++ encodeFrom c.length ws ∧
      (putAll c ws).2.pos = (putAll c ws).2.length := by
  induction ws generalizing c with
  | nil => exact ⟨rfl, (List.append_nil _).symm, hend⟩
  | cons w ws ih =>
    have hbytes : (c.writeBytes (w.encode c.length)).bytes.toList =
        c.bytes.toList ++ w.encode c.length := by
      have hlength : c.bytes.toList.length = c.length := Array.length_toList
      rw [toList_writeBytes hend (Nat.le_refl _), List.take_of_length_le (by omega),
        List.drop_of_length_le (by omega), List.append_nil]
    have hlength : (c.writeBytes (w.encode c.length)).length = w.stop c.length := by
      have hcount := congrArg List.length hbytes
      rwa [List.length_append, Array.length_toList, Array.length_toList] at hcount
    rw [putAll_cons, put_eq hend w] at hsize ⊢
    have hfit := Nat.lt_of_le_of_lt (le_length_putAll _ ws) hsize
    have hpos : (c.writeBytes (w.encode c.length)).pos = w.stop c.length :=
      pos_writeBytes hend (by rwa [hlength] at hfit)
    obtain ⟨htrace, htail, hlast⟩ := ih (hpos.trans (by rw [hlength])) hsize
    refine ⟨?_, ?_, hlast⟩
    · rw [traceFrom, ← hpos, ← hlength]
      exact congrArg (List.cons _) htrace
    · rw [encodeFrom, ← hlength]
      exact htail.trans (by rw [hbytes, List.append_assoc])

end

section

variable {img : Image} {pos : Nat} {bs : Bytes} {w : Write}

theorem take_eq (hsize : img.size < 2 ^ 63) {count : Nat} (hle : pos + count ≤ img.size) :
    take ⟨img, pos⟩ count =
      .ok ((img.extract pos (pos + count)).toList, ⟨img, (pos + count : Nat)⟩) := by
  have hwrap : wrap (pos + count : Nat) = (pos + count : Nat) := wrap_eq (by omega) (by omega)
  have hwithin : ¬ ((pos : Int) < 0 ∨ (img.size : Int) < (pos + count : Nat)) := by omega
  simp only [take, length, ← Int.natCast_add, hwrap, if_neg hwithin, Int.toNat_natCast]

theorem readWord_eq (hsize : img.size < 2 ^ 63) {width : Nat} (hle : pos + width ≤ img.size)
    {α : Type} {f : Nat → α} {a : α} (h : (img.word width pos).map f = .ok a) :
    ((readWord ⟨img, pos⟩ width).map fun (n, c) => (f n, c)) =
      .ok (a, ⟨img, (pos + width : Nat)⟩) := by
  have hword : f (Word.ofBytes (img.extract pos (pos + width)).toList) = a := by
    rw [Image.word, Image.slice, if_pos hle] at h
    exact Except.ok.inj h
  rw [readWord, take_eq hsize hle, ← hword]
  rfl

theorem readU8_of_holds (hsize : img.size < 2 ^ 63) {v : UInt8} (h : img.Holds pos [v]) :
    readU8 ⟨img, pos⟩ = .ok (v, ⟨img, (pos + 1 : Nat)⟩) :=
  readWord_eq hsize h.stop_le h.u8

theorem readU16_of_holds (hsize : img.size < 2 ^ 63) {v : UInt16} (h : img.Holds pos (Word.u16 v)) :
    readU16 ⟨img, pos⟩ = .ok (v, ⟨img, (pos + 2 : Nat)⟩) :=
  readWord_eq hsize h.stop_le h.u16

theorem readU32_of_holds (hsize : img.size < 2 ^ 63) {v : UInt32} (h : img.Holds pos (Word.u32 v)) :
    readU32 ⟨img, pos⟩ = .ok (v, ⟨img, (pos + 4 : Nat)⟩) :=
  readWord_eq hsize h.stop_le h.u32

theorem readU64_of_holds (hsize : img.size < 2 ^ 63) {v : UInt64} (h : img.Holds pos (Word.u64 v)) :
    readU64 ⟨img, pos⟩ = .ok (v, ⟨img, (pos + 8 : Nat)⟩) :=
  readWord_eq hsize h.stop_le h.u64

theorem readCString_of_holds {s : Bytes} (h : img.Holds pos (s ++ [0])) (hs : 0 ∉ s) :
    readCString ⟨img, pos⟩ = .ok (s, ⟨img, (pos + (s ++ [0]).length : Nat)⟩) := by
  have hstop := h.stop_le
  have hwithin : ¬ ((pos : Int) < 0 ∨ (img.size : Int) < pos) := by omega
  rw [readCString, length, if_neg hwithin, Int.toNat_natCast, h.cstring hs, List.length_append]
  rfl

theorem readBytes_of_holds (hsize : img.size < 2 ^ 63) {s : Bytes} (h : img.Holds pos s) :
    readBytes ⟨img, pos⟩ s.length = .ok (s, ⟨img, (pos + s.length : Nat)⟩) := by
  have hslice := h.slice
  rw [Image.slice, if_pos h.stop_le, Except.ok.injEq] at hslice
  rw [readBytes, take_eq hsize h.stop_le, hslice]

theorem align_eq (n : Int64) (hfit : pos + Word.padding n.toInt.toNat pos < 2 ^ 63) :
    align ⟨img, pos⟩ n.toInt = ((Word.padding n.toInt.toNat pos : Int),
      ⟨img, (pos + Word.padding n.toInt.toNat pos : Nat)⟩) := by
  have halign : alignment pos n.toInt = Word.padding n.toInt.toNat pos :=
    alignment_eq pos n.toInt_lt
  simp only [align, halign, ← Int.natCast_add]
  rw [wrap_eq (by omega) (by omega)]

theorem get_of_holds (hsize : img.size < 2 ^ 63) (h : img.Holds pos (w.encode pos))
    (hnul : ∀ s, w = .value (.cstring s) → 0 ∉ s) :
    w.read.get ⟨img, pos⟩ = .ok (w.datum pos, ⟨img, w.stop pos⟩) := by
  cases w with
  | value v =>
    cases v with
    | u8 v =>
      rw [Write.read, Read.get, readU8_of_holds hsize h]
      rfl
    | u16 v =>
      rw [Write.read, Read.get, readU16_of_holds hsize h]
      rfl
    | i16 v =>
      rw [Write.read, Read.get, readI16, readU16_of_holds hsize h]
      rfl
    | u32 v =>
      rw [Write.read, Read.get, readU32_of_holds hsize h]
      rfl
    | i32 v =>
      rw [Write.read, Read.get, readI32, readU32_of_holds hsize h]
      rfl
    | u64 v =>
      rw [Write.read, Read.get, readU64_of_holds hsize h]
      rfl
    | f32 bits =>
      rw [Write.read, Read.get, readF32, readU32_of_holds hsize h]
      rfl
    | cstring s =>
      have hread := readCString_of_holds h (hnul s rfl)
      rw [Write.read, Read.get, hread]
      rfl
    | bytes s =>
      have hbytes : img.Holds pos s := h
      rw [Write.read, Read.get, readBytes_of_holds hsize hbytes]
      rfl
  | align n =>
    have hstop := h.stop_le
    rw [Write.encode, List.length_replicate] at hstop
    rw [Write.read, Read.get, align_eq n (by omega), Write.stop, Write.encode,
      List.length_replicate]
    rfl

theorem getAll_of_holds (hsize : img.size < 2 ^ 63) {ws : List Write}
    (h : img.Holds pos (encodeFrom pos ws)) (hnul : ∀ s, .value (.cstring s) ∈ ws → 0 ∉ s) :
    getAll ⟨img, pos⟩ (ws.map Write.read) =
      .ok (traceFrom pos ws, ⟨img, (pos + (encodeFrom pos ws).length : Nat)⟩) := by
  induction ws generalizing pos with
  | nil => rfl
  | cons w ws ih =>
    obtain ⟨hw, hrest⟩ := Image.holds_append.mp h
    have hget := get_of_holds hsize hw fun s hs => hnul s (hs ▸ List.mem_cons_self)
    have htail := @ih (w.stop pos) hrest fun s hs => hnul s (List.mem_cons_of_mem _ hs)
    have hstop : pos + (encodeFrom pos (w :: ws)).length =
        w.stop pos + (encodeFrom (w.stop pos) ws).length := by
      rw [encodeFrom, List.length_append, Write.stop, Nat.add_assoc]
    simp only [List.map_cons, getAll, hget, Except.bind, htail, Except.map, hstop, traceFrom]

theorem exists_getAll (hsize : img.size < 2 ^ 63) {ws : List Write}
    (h : img.toList = encodeFrom 0 ws) (hnul : ∀ s, .value (.cstring s) ∈ ws → 0 ∉ s) :
    ∃ c, getAll (.ofBytes img) (ws.map Write.read) = .ok (traceFrom 0 ws, c) ∧
      c.remaining = 0 := by
  have hholds : img.Holds 0 (encodeFrom 0 ws) := ⟨[], [], by rw [h]; simp, rfl⟩
  have hlength : (encodeFrom 0 ws).length = img.size := by rw [← h, Array.length_toList]
  have hget := getAll_of_holds hsize hholds hnul
  rw [Nat.zero_add, hlength] at hget
  refine ⟨⟨img, img.size⟩, hget, ?_⟩
  have hzero : (img.size : Int) - img.size = 0 := Int.sub_self _
  rw [remaining, length, hzero]
  rfl

end

end Cursor
end ScriptCodec
