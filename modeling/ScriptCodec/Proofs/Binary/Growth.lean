import ScriptCodec.Proofs.Binary.TypedWrites

/-!
Writing into memory with a capacity. Room for a write is taken from the memory at hand while it
lasts; after that the bytes move to a larger memory. Whatever the capacity at first, the bytes are
those of the cursor that has no capacity, because every write starts within the bytes or at their
end: the memory exposed by a longer length is overwritten at once.
-/
namespace ScriptCodec.Cursor

structure Buffer where
  memory : Image
  length : Nat
  pos : Nat
  length_le : length ≤ memory.size

namespace Buffer

def new (capacity : Nat) : Buffer := ⟨Array.replicate capacity 0, 0, 0, Nat.zero_le _⟩

def cursor (b : Buffer) : Cursor := ⟨b.memory.extract 0 b.length, b.pos⟩

def roomFor (b : Buffer) (count : Nat) : Image :=
  if b.memory.size < b.pos + count then
    let capacity := 2 * b.memory.size + count
    b.memory.extract 0 b.length ++ Array.replicate (capacity - b.length) 0
  else b.memory

/-- Makes the bytes long enough for `count` of them at the position. There is none if they go past
the memory. -/
def grow (b : Buffer) (count : Nat) : Option Buffer :=
  if b.pos + count ≤ b.length then some b
  else if h : b.pos + count ≤ (b.roomFor count).size then
    some ⟨b.roomFor count, b.pos + count, b.pos, h⟩
  else none

def overwrite (b : Buffer) (s : Bytes) : Buffer where
  memory := b.memory.extract 0 b.pos ++ s.toArray ++
    b.memory.extract (b.pos + s.length) b.memory.size
  length := b.length
  pos := b.pos + s.length
  length_le := by
    have hle := b.length_le
    simp only [Array.size_append, Array.size_extract, List.size_toArray]
    omega

def write (b : Buffer) (s : Bytes) : Option Buffer := (b.grow s.length).map (·.overwrite s)

def putBytes (b : Buffer) : Write → Option Buffer
  | .value (.cstring s) => (b.write s).bind (·.write [0])
  | w => b.write (w.encode b.pos)

def put (b : Buffer) (w : Write) : Option (Datum × Buffer) :=
  (b.putBytes w).map fun last => (w.datum b.pos, last)

def putAll (b : Buffer) : List Write → Option (List (Datum × Int) × Buffer)
  | [] => some ([], b)
  | w :: ws =>
    (b.put w).bind fun (datum, b) =>
      (b.putAll ws).map fun (trace, last) => ((datum, (b.pos : Int)) :: trace, last)

variable {b : Buffer} {s : Bytes}

theorem toList_cursor (b : Buffer) :
    b.cursor.bytes.toList = b.memory.toList.take b.length := Image.toList_front _ _

theorem length_cursor (b : Buffer) : b.cursor.length = b.length := by
  have hle := b.length_le
  simp only [Cursor.length, cursor, Array.size_extract]
  omega

theorem put_cursor (b : Buffer) (w : Write) :
    w.put b.cursor = (w.datum b.pos, b.cursor.writeBytes (w.encode b.pos)) := put_eq rfl w

theorem pos_add_le_roomFor (hpos : b.pos ≤ b.length) (count : Nat) :
    b.pos + count ≤ (b.roomFor count).size := by
  have hle := b.length_le
  unfold roomFor
  split
  · simp only [Array.size_append, Array.size_extract, Array.size_replicate]
    omega
  · omega

theorem take_roomFor (b : Buffer) (count : Nat) :
    (b.roomFor count).toList.take b.length = b.memory.toList.take b.length := by
  unfold roomFor
  split
  · have hfront : (b.memory.extract 0 b.length).toList.length = b.length := by
      rw [Array.length_toList, Array.size_extract]
      have hle := b.length_le
      omega
    rw [Array.toList_append, List.take_left' hfront, Image.toList_front]
  · rfl

/-- Growing succeeds and keeps the bytes there are before the ones it adds. -/
theorem exists_grow (hpos : b.pos ≤ b.length) (count : Nat) :
    ∃ g fresh, b.grow count = some g ∧ g.pos = b.pos ∧
      g.cursor.bytes.toList = b.cursor.bytes.toList ++ fresh ∧
      fresh.length = b.pos + count - b.length := by
  unfold grow
  by_cases hin : b.pos + count ≤ b.length
  · refine ⟨b, [], if_pos hin, rfl, (List.append_nil _).symm, ?_⟩
    rw [List.length_nil, Nat.sub_eq_zero_of_le hin]
  · have hroom := pos_add_le_roomFor hpos count
    have hlonger : b.length ≤ b.pos + count := Nat.le_of_not_le hin
    rw [if_neg hin, dif_pos hroom]
    refine ⟨_, ((b.roomFor count).toList.take (b.pos + count)).drop b.length, rfl, rfl, ?_, ?_⟩
    · have hold : ((b.roomFor count).toList.take (b.pos + count)).take b.length =
          b.memory.toList.take b.length := by
        rw [List.take_take, Nat.min_eq_left hlonger, take_roomFor]
      rw [toList_cursor, toList_cursor, ← hold, List.take_append_drop]
    · rw [List.length_drop, List.length_take, Array.length_toList, Nat.min_eq_left hroom]

theorem toList_overwrite (hfit : b.pos + s.length ≤ b.length) :
    (b.overwrite s).cursor.bytes.toList =
      b.cursor.bytes.toList.take b.pos ++ s ++ b.cursor.bytes.toList.drop (b.pos + s.length) := by
  have hle := b.length_le
  have hmiddle : (b.memory.toList.take b.pos ++ s).length = b.pos + s.length := by
    rw [List.length_append, List.length_take, Array.length_toList]
    omega
  have hmemory : (b.overwrite s).memory.toList =
      b.memory.toList.take b.pos ++ s ++ b.memory.toList.drop (b.pos + s.length) := by
    simp only [overwrite, Array.toList_append, Image.toList_front, Image.toList_back]
  have hlength : (b.overwrite s).length = b.length := rfl
  rw [toList_cursor, hlength, hmemory, List.take_append, hmiddle, List.take_of_length_le (by omega),
    toList_cursor, List.drop_take, List.take_take, Nat.min_eq_left (by omega)]

theorem exists_write (hpos : b.pos ≤ b.length) (hfit : b.pos + s.length < 2 ^ 63) :
    ∃ b', b.write s = some b' ∧ b'.cursor = b.cursor.writeBytes s ∧ b'.pos ≤ b'.length := by
  obtain ⟨g, fresh, hgrow, hgpos, hbytes, hfresh⟩ := exists_grow hpos s.length
  have hlength : b.cursor.bytes.toList.length = b.length := by
    rw [Array.length_toList]
    exact length_cursor b
  have hwithin : g.pos + s.length ≤ g.length := by
    have hcount := congrArg List.length hbytes
    rw [Array.length_toList, List.length_append, hlength] at hcount
    have hg : g.cursor.bytes.size = g.length := length_cursor g
    omega
  refine ⟨g.overwrite s, by rw [write, hgrow]; rfl, ?_, hwithin⟩
  have hcursor : b.pos ≤ b.cursor.length := by rwa [length_cursor]
  have hpast : fresh.drop (b.pos + s.length - b.length) = [] :=
    List.drop_of_length_le (Nat.le_of_eq hfresh)
  apply eq_of_toList
  · rw [toList_overwrite hwithin, toList_writeBytes rfl hcursor, hbytes, hgpos,
      List.take_append_of_le_length (by omega), List.drop_append, hlength, hpast, List.append_nil]
  · rw [pos_writeBytes rfl hfit, ← hgpos]
    rfl

theorem exists_put (hpos : b.pos ≤ b.length) {w : Write} (hfit : w.stop b.pos < 2 ^ 63) :
    ∃ b', b.put w = some ((w.put b.cursor).1, b') ∧ b'.cursor = (w.put b.cursor).2 ∧
      b'.pos ≤ b'.length := by
  have hbytes : ∃ b', b.putBytes w = some b' ∧
      b'.cursor = b.cursor.writeBytes (w.encode b.pos) ∧ b'.pos ≤ b'.length := by
    cases w with
    | value v =>
      cases v with
      | cstring s =>
        have hlength : (s ++ [0]).length = s.length + 1 := List.length_append
        have hboth : b.pos + (s.length + 1) < 2 ^ 63 := by
          rw [← hlength]
          exact hfit
        have hin : b.pos ≤ b.cursor.length := by rwa [length_cursor]
        obtain ⟨b₁, hfirst, hcursor₁, hpos₁⟩ := exists_write (s := s) hpos (by omega)
        have hmid : (b₁.pos : Int) = (b.pos + s.length : Nat) :=
          (congrArg Cursor.pos hcursor₁).trans (pos_writeBytes rfl (by omega))
        obtain ⟨b₂, hsecond, hcursor₂, hpos₂⟩ := exists_write (s := [0]) hpos₁ (by
          rw [List.length_singleton]
          omega)
        refine ⟨b₂, by rw [putBytes, hfirst]; exact hsecond, ?_, hpos₂⟩
        rw [hcursor₂, hcursor₁]
        exact (writeBytes_append rfl hin hfit).symm
      | _ => exact exists_write hpos hfit
    | align n => exact exists_write hpos hfit
  obtain ⟨b', hput, hcursor, hpos'⟩ := hbytes
  rw [put_cursor, put, hput]
  exact ⟨b', rfl, hcursor, hpos'⟩

/-- Whatever the capacity, writes one after the other do what they do without one. -/
theorem exists_putAll {ws : List Write} (hpos : b.pos ≤ b.length)
    (hsize : (Cursor.putAll b.cursor ws).2.length < 2 ^ 63) :
    ∃ b', b.putAll ws = some ((Cursor.putAll b.cursor ws).1, b') ∧
      b'.cursor = (Cursor.putAll b.cursor ws).2 := by
  induction ws generalizing b with
  | nil => exact ⟨b, rfl, rfl⟩
  | cons w ws ih =>
    have hfit : w.stop b.pos < 2 ^ 63 := by
      have hcursor : b.pos ≤ b.cursor.length := by rwa [length_cursor]
      have hle := le_length_putAll (b.cursor.writeBytes (w.encode b.pos)) ws
      rw [length_writeBytes rfl hcursor] at hle
      rw [putAll_cons, put_cursor] at hsize
      exact Nat.lt_of_le_of_lt (Nat.le_trans (Nat.le_max_right _ _) hle) hsize
    obtain ⟨b₁, hput, hcursor, hpos₁⟩ := exists_put hpos hfit
    rw [putAll_cons, ← hcursor] at hsize ⊢
    obtain ⟨b', htail, hlast⟩ := ih hpos₁ hsize
    refine ⟨b', ?_, hlast⟩
    simp only [putAll, hput, Option.bind_some, htail]
    rfl

end Buffer

variable {ws : List Write}

/-- What is written one after the other, into memory of any capacity at first, is read back with
the same values, paddings and positions up to the end, as long as its length is a machine word;
and writing over a part of it changes that part alone. -/
theorem getAll_putAll (capacity : Nat) (hnul : ∀ s, .value (.cstring s) ∈ ws → 0 ∉ s)
    (hsize : (putAll .empty ws).2.length < 2 ^ 63) :
    ∃ trace b, (Buffer.new capacity).putAll ws = some (trace, b) ∧
      putAll .empty ws = (trace, b.cursor) ∧
      (∃ c, getAll (.ofBytes b.cursor.bytes) (ws.map Write.read) = .ok (trace, c) ∧
        c.remaining = 0) ∧
      ∀ (w : Write) (pos : Nat), w.stop pos ≤ b.length →
        ∃ c, b.cursor.setPos pos = .ok c ∧ (w.put c).2.length = b.length ∧
          (w.put c).2.bytes.Holds pos (w.encode pos) ∧
          ∀ i, i < pos ∨ w.stop pos ≤ i → (w.put c).2.bytes[i]? = b.cursor.bytes[i]? := by
  have hnew : (Buffer.new capacity).cursor = .empty := by
    rw [Buffer.cursor, Buffer.new, Array.extract_zero]
    rfl
  rw [← hnew] at hsize ⊢
  obtain ⟨b, hputAll, hcursor⟩ := Buffer.exists_putAll (Nat.le_refl 0) hsize
  have hlength : b.cursor.length = b.length := Buffer.length_cursor b
  rw [hnew] at hputAll hcursor hsize ⊢
  obtain ⟨htrace, hbytes, -⟩ := putAll_eq rfl hsize
  rw [← hcursor] at hsize hbytes
  have hread : b.cursor.bytes.toList = encodeFrom 0 ws := hbytes
  refine ⟨_, b, hputAll, by rw [hcursor], ?_, ?_⟩
  · rw [htrace]
    exact exists_getAll hsize hread hnul
  · intro w pos hle
    rw [← hlength] at hle ⊢
    exact ⟨⟨b.cursor.bytes, pos⟩, setPos_of_le (Nat.le_of_add_right_le hle), put_of_stop_le rfl hle⟩

theorem getAll_putAll_string :
    let ws : List Write := [.value (.u8 0xAA), .align 4, .value (.cstring (text "hi"))]
    (∀ s, .value (.cstring s) ∈ ws → 0 ∉ s) ∧ (putAll .empty ws).2.length < 2 ^ 63 ∧
      ∃ trace b, (Buffer.new 2).putAll ws = some (trace, b) ∧
        ∃ c, getAll (.ofBytes b.cursor.bytes) (ws.map Write.read) = .ok (trace, c) ∧
          c.remaining = 0 := by
  intro ws
  have hnul : ∀ s, .value (.cstring s) ∈ ws → 0 ∉ s := by
    intro s hs
    simp only [ws, List.mem_cons, Write.value.injEq, Value.cstring.injEq, reduceCtorEq,
      List.not_mem_nil, false_or, or_false] at hs
    rw [hs]
    decide
  have hsize : (putAll .empty ws).2.length < 2 ^ 63 := by decide +kernel
  obtain ⟨trace, b, hput, -, hget, -⟩ := getAll_putAll 2 hnul hsize
  exact ⟨hnul, hsize, trace, b, hput, hget⟩

end ScriptCodec.Cursor
