import ScriptCodec.Proofs.Object.Emission
import ScriptCodec.Proofs.Object.Pool

/-!
The sizes of functions come back from the gaps between them. A function that closes itself stops
the trimming at its last byte, any other one has exactly as many padding bytes as are taken off,
and the last function runs to the end of the code. `Spaced` is what the reader needs of a file;
the emitted code has it, and so has any list of bodies laid out by `spread`.
-/
namespace ScriptCodec

/-- The first function is held at the front, and behind its gap the others, if there are any. -/
theorem Code.holds_joined_cons {img : Image} {pos : Nat} {b : Body} {bs : List Body}
    (h : img.Holds pos (joined (b :: bs))) :
    img.Holds pos b.bytes ∧
      (bs ≠ [] → img.Holds (pos + (b.bytes ++ gapBytes b).length) (joined bs)) := by
  rw [joined] at h
  split at h
  · rename_i hempty
    exact ⟨h, fun hne => absurd (List.isEmpty_iff.mp hempty) hne⟩
  · rw [Image.holds_append, Image.holds_append] at h
    exact ⟨h.1.1, fun _ => h.2⟩

namespace ExportSizes

variable {img : Image} {e : Export} {body : Bytes}

theorem toNat_last {offset : UInt32} {n : Nat} (h : offset.toNat + (n + 1) < 2 ^ 32) :
    (offset + UInt32.ofNat (n + 1) - 1).toNat = offset.toNat + n := by
  have hsum : (offset + UInt32.ofNat (n + 1)).toNat = offset.toNat + (n + 1) :=
    Code.toNat_add_ofNat h
  have hone : (1 : UInt32) ≤ offset + UInt32.ofNat (n + 1) := by
    rw [UInt32.le_iff_toNat_le, hsum]
    exact Nat.le_add_left 1 (offset.toNat + n)
  rw [UInt32.toNat_sub_of_le _ _ hone, hsum]
  rfl

theorem size_ne_zero {n : Nat} (h : n + 1 < 2 ^ 32) : UInt32.ofNat (n + 1) ≠ 0 := by
  intro hzero
  have hnat := congrArg UInt32.toNat hzero
  rw [toNat_ofNat_of_lt h] at hnat
  exact Nat.succ_ne_zero n hnat

theorem size_pred {n : Nat} (h : n + 1 < 2 ^ 32) : UInt32.ofNat (n + 1) - 1 = UInt32.ofNat n := by
  apply UInt32.toNat_inj.mp
  have hlast : ((0 : UInt32) + UInt32.ofNat (n + 1) - 1).toNat = (0 : UInt32).toNat + n :=
    toNat_last (by simpa using h)
  rw [UInt32.zero_add] at hlast
  rw [hlast, toNat_ofNat_of_lt (by omega)]
  exact Nat.zero_add n

/-- Padding bytes close no function, so each of them is taken off. -/
theorem trim_padding {k limit : Nat}
    (hheld : img.Holds e.offset.toNat (body ++ List.replicate k 0xFF))
    (hfit : e.offset.toNat + (body.length + k) < 2 ^ 32) :
    trim img e (limit + k) (UInt32.ofNat (body.length + k)) =
      trim img e limit (UInt32.ofNat body.length) := by
  induction k with
  | zero => rfl
  | succ k ih =>
    have hsplit : body ++ List.replicate (k + 1) 0xFF =
        body ++ List.replicate k 0xFF ++ [(0xFF : UInt8)] := by
      rw [List.replicate_succ', List.append_assoc]
    rw [hsplit, Image.holds_append, List.length_append, List.length_replicate] at hheld
    have hlast : (e.offset + UInt32.ofNat (body.length + k + 1) - 1).toNat =
        e.offset.toNat + (body.length + k) := toNat_last (by omega)
    have hbyte : img[e.offset.toNat + (body.length + k)]? = some 0xFF := hheld.2.getElem?
    have hopen : Opcode.closesFunction 0xFF = false := by decide
    rw [← Nat.add_assoc, ← Nat.add_assoc, trim, if_neg (size_ne_zero (by omega))]
    simp only [hlast, hbyte, hopen, Bool.false_eq_true, if_false]
    rw [size_pred (by omega)]
    exact ih hheld.1 (by omega)

theorem trim_closed {limit : Nat} {op : Opcode} (hlast : body.getLast? = some op)
    (hcloses : Opcode.closesFunction op = true) (hheld : img.Holds e.offset.toNat body)
    (hfit : e.offset.toNat + body.length < 2 ^ 32) :
    trim img e limit (UInt32.ofNat body.length) = .ok (UInt32.ofNat body.length) := by
  cases limit with
  | zero => rfl
  | succ limit =>
    obtain ⟨front, rfl⟩ := List.getLast?_eq_some_iff.mp hlast
    rw [Image.holds_append] at hheld
    rw [List.length_append, List.length_singleton] at hfit ⊢
    have hnat : (e.offset + UInt32.ofNat (front.length + 1) - 1).toNat =
        e.offset.toNat + front.length := toNat_last (by omega)
    have hbyte : img[e.offset.toNat + front.length]? = some op := hheld.2.getElem?
    rw [trim, if_neg (size_ne_zero (by omega))]
    simp only [hnat, hbyte, hcloses, if_true]

theorem trim_gap {stop : UInt32}
    (hheld : img.Holds e.offset.toNat (body ++ List.replicate (gapPadding body stop) 0xFF))
    (hfit : e.offset.toNat + (body.length + gapPadding body stop) < 2 ^ 32) :
    trim img e 3 (UInt32.ofNat (body.length + gapPadding body stop)) =
      .ok (UInt32.ofNat body.length) := by
  have hbody := (Image.holds_append.mp hheld).1
  obtain ⟨limit, hlimit, hstop⟩ : ∃ limit, limit + gapPadding body stop = 3 ∧
      trim img e limit (UInt32.ofNat body.length) = .ok (UInt32.ofNat body.length) := by
    have hpad := Word.padding_lt (show 0 < 4 by decide) stop.toNat
    unfold gapPadding
    cases hlast : body.getLast? with
    | none =>
      obtain rfl := List.getLast?_eq_none_iff.mp hlast
      refine ⟨3 - Word.padding 4 stop.toNat, by simp only; omega, ?_⟩
      cases 3 - Word.padding 4 stop.toNat with
      | zero => rfl
      | succ limit => rfl
    | some op =>
      cases hcloses : Opcode.closesFunction op with
      | true =>
        refine ⟨3 - Word.padding 4 stop.toNat, by simp only [hcloses, if_true]; omega, ?_⟩
        exact trim_closed hlast hcloses hbody (by omega)
      | false => exact ⟨0, by simp [hcloses], rfl⟩
  rw [← hlimit, trim_padding hheld hfit, hstop]

theorem lastSize_eq {codeEnd : UInt32} {n : Nat} (h : codeEnd.toNat = e.offset.toNat + n) :
    lastSize e codeEnd = .ok (UInt32.ofNat n) := by
  have hle : e.offset ≤ codeEnd := by
    rw [UInt32.le_iff_toNat_le, h]
    exact Nat.le_add_right _ _
  rw [lastSize, if_neg (UInt32.not_lt.mpr hle)]
  congr 1
  apply UInt32.toNat_inj.mp
  have hlt := codeEnd.toNat_lt
  rw [UInt32.toNat_sub_of_le _ _ hle, h, toNat_ofNat_of_lt (by omega)]
  omega

theorem sizeBefore_eq {next : Export} {stop : UInt32}
    (hheld : img.Holds e.offset.toNat (body ++ List.replicate (gapPadding body stop) 0xFF))
    (hnext : next.offset.toNat = e.offset.toNat + (body.length + gapPadding body stop + 4)) :
    sizeBefore img e next = .ok (UInt32.ofNat body.length) := by
  have hlt := next.offset.toNat_lt
  have hgap : gap.toNat = 4 := rfl
  have hsum : (e.offset + gap).toNat = e.offset.toNat + 4 :=
    Code.toNat_add_ofNat (show e.offset.toNat + 4 < 2 ^ 32 by omega)
  have hle : e.offset + gap ≤ next.offset := by
    rw [UInt32.le_iff_toNat_le, hsum, hnext]
    omega
  have hle' : e.offset ≤ next.offset := by
    rw [UInt32.le_iff_toNat_le, hnext]
    omega
  have hsub : (next.offset - e.offset).toNat = body.length + gapPadding body stop + 4 := by
    rw [UInt32.toNat_sub_of_le _ _ hle', hnext]
    omega
  have hgap' : gap ≤ next.offset - e.offset := by
    rw [UInt32.le_iff_toNat_le, hsub, hgap]
    omega
  have hsize : next.offset - e.offset - gap = UInt32.ofNat (body.length + gapPadding body stop) := by
    apply UInt32.toNat_inj.mp
    rw [UInt32.toNat_sub_of_le _ _ hgap', hsub, hgap, toNat_ofNat_of_lt (by omega)]
    omega
  rw [sizeBefore, if_neg (UInt32.not_lt.mpr hle), hsize]
  exact trim_gap hheld (by omega)

def unsized (e : Export) : Export := { e with size := 0 }

def sizedAs (e : Export) (body : Bytes) : Export := { e with size := UInt32.ofNat body.length }

/-- The exports start where the bodies do. Each body but the last is followed by its padding and
the gap, and the last one ends at `codeEnd`. -/
inductive Spaced (img : Image) (codeEnd : UInt32) : List Export → List Bytes → Prop where
  | nil : Spaced img codeEnd [] []
  | last {e : Export} {body : Bytes} (hend : codeEnd.toNat = e.offset.toNat + body.length) :
      Spaced img codeEnd [e] [body]
  | cons {e next : Export} {rest : List Export} {body : Bytes} {bodies : List Bytes}
      (stop : UInt32)
      (hheld : img.Holds e.offset.toNat (body ++ List.replicate (gapPadding body stop) 0xFF))
      (hnext : next.offset.toNat = e.offset.toNat + (body.length + gapPadding body stop + 4))
      (hrest : Spaced img codeEnd (next :: rest) bodies) :
      Spaced img codeEnd (e :: next :: rest) (body :: bodies)

theorem Spaced.deriveLoop_eq {codeEnd : UInt32} {exports : List Export} {bodies : List Bytes}
    (h : Spaced img codeEnd exports bodies) (done : List Export) :
    deriveLoop img codeEnd done exports =
      .ok (done.reverse ++ List.zipWith sizedAs exports bodies) := by
  induction h generalizing done with
  | nil => simp [deriveLoop]
  | last hend =>
    rw [deriveLoop, lastSize_eq hend]
    simp [Except.map, sizedAs]
  | cons stop hheld hnext hrest ih =>
    rw [deriveLoop, sizeBefore_eq hheld hnext, Except.bind, ih]
    simp [sizedAs]

theorem Spaced.sizes {codeEnd : UInt32} {exports : List Export} {bodies : List Bytes}
    (h : Spaced img codeEnd exports bodies) :
    (List.zipWith sizedAs exports bodies).map (·.size.toNat) = bodies.map List.length := by
  induction h with
  | nil => rfl
  | @last e body hend =>
    have hlt := codeEnd.toNat_lt
    simp [sizedAs, toNat_ofNat_of_lt (show body.length < 2 ^ 32 by omega)]
  | @cons e next rest body bodies stop hheld hnext hrest ih =>
    have hlt := next.offset.toNat_lt
    rw [List.zipWith_cons_cons, List.map_cons, List.map_cons, ih]
    simp [sizedAs, toNat_ofNat_of_lt (show body.length < 2 ^ 32 by omega)]

theorem Spaced.unsized_zipWith {codeEnd : UInt32} {exports : List Export} {bodies : List Bytes}
    (h : Spaced img codeEnd exports bodies) :
    (List.zipWith sizedAs exports bodies).map unsized = exports.map unsized := by
  induction h with
  | nil => rfl
  | last hend => rfl
  | cons stop hheld hnext hrest ih =>
    rw [List.zipWith_cons_cons, List.map_cons, List.map_cons, ih]
    rfl

theorem zipWith_sizedAs_exportsFrom {ctx : Code.Context} {codeOffset : UInt32} {before : Nat}
    {fns : List Function} {bs : List Code.Body} (h : Code.Lays ctx codeOffset before fns bs) :
    List.zipWith sizedAs ((Code.exportsFrom codeOffset before fns bs).map unsized)
      (bs.map (·.bytes)) = Code.exportsFrom codeOffset before fns bs := by
  induction h with
  | nil before => rfl
  | cons hhead htail ih =>
    rw [Code.exportsFrom, List.map_cons, List.map_cons, List.zipWith_cons_cons, ih]
    rfl

theorem spaced_of_lays {ctx : Code.Context} {codeOffset : UInt32} {before : Nat}
    {fns : List Function} {bs : List Code.Body} (h : Code.Lays ctx codeOffset before fns bs)
    (hheld : img.Holds (codeOffset.toNat + before) (Code.joined bs)) {codeEnd : UInt32}
    (hend : codeEnd.toNat = codeOffset.toNat + before + (Code.joined bs).length) :
    Spaced img codeEnd ((Code.exportsFrom codeOffset before fns bs).map unsized)
      (bs.map (·.bytes)) := by
  have hfit := codeEnd.toNat_lt
  rw [hend] at hfit
  induction h with
  | nil before => exact .nil
  | @cons before fn fns b bs hhead htail ih =>
    have hstart : (codeOffset + UInt32.ofNat before).toNat = codeOffset.toNat + before :=
      Code.toNat_add_ofNat (by omega)
    cases htail with
    | nil =>
      apply Spaced.last
      rw [hend]
      change _ = (codeOffset + UInt32.ofNat before).toNat + b.bytes.length
      rw [hstart]
      rfl
    | @cons _ fn' fns b' bs hhead' htail' =>
      have hchunk := Code.length_chunk b
      rw [Code.joined_cons_cons] at hheld hend hfit
      rw [Image.holds_append, Image.holds_append (a := List.replicate 4 0)] at hheld
      obtain ⟨hbody, -, hrest⟩ := hheld
      simp only [List.length_append, List.length_replicate] at hrest hend hfit
      have hpos : codeOffset.toNat + before +
          (b.bytes.length + gapPadding b.bytes b.stop) + 4 =
          codeOffset.toNat + (before + (b.bytes ++ Code.gapBytes b).length) := by omega
      have hnext : (codeOffset + UInt32.ofNat (before + (b.bytes ++ Code.gapBytes b).length)).toNat =
          (codeOffset + UInt32.ofNat before).toNat +
            (b.bytes.length + gapPadding b.bytes b.stop + 4) := by
        rw [hstart, Code.toNat_add_ofNat (by omega)]
        omega
      rw [hpos] at hrest
      rw [← hstart] at hbody
      exact .cons b.stop hbody hnext (ih hrest (by omega) (by omega))

theorem derive_exports {ctx : Code.Context} {codeOffset : UInt32} {fns : List Function}
    {bs : List Code.Body} (h : Code.Lays ctx codeOffset 0 fns bs)
    (hheld : img.Holds codeOffset.toNat (Code.joined bs)) {codeEnd : UInt32}
    (hend : codeEnd.toNat = codeOffset.toNat + (Code.joined bs).length) :
    derive img ((Code.exportsFrom codeOffset 0 fns bs).map unsized) codeEnd =
      .ok (Code.exportsFrom codeOffset 0 fns bs) := by
  have hrun := (spaced_of_lays h hheld hend).deriveLoop_eq []
  rwa [zipWith_sizedAs_exportsFrom h] at hrun

/-- What stands between a body at `start` and the next one. -/
def spacing (start : Nat) (body : Bytes) : Bytes :=
  List.replicate (gapPadding body (UInt32.ofNat (start + body.length))) 0xFF ++ List.replicate 4 0

/-- Bodies laid out one after the other from `start` on. -/
def spread (start : Nat) : List Bytes → Bytes
  | [] => []
  | [body] => body
  | body :: next :: rest =>
    body ++ spacing start body ++
      spread (start + (body ++ spacing start body).length) (next :: rest)

def starts (start : Nat) : List Bytes → List Nat
  | [] => []
  | body :: rest => start :: starts (start + (body ++ spacing start body).length) rest

/-- A body after which the reader does not have to guess: nothing is in it, or its last
instruction ends the function. -/
def ClosesItself (body : Bytes) : Prop :=
  body = [] ∨ body.getLast? = some Opcode.endOfFunction ∨ body.getLast? = some Opcode.returnValue

theorem length_append_spacing (start : Nat) (body : Bytes) :
    (body ++ spacing start body).length =
      body.length + gapPadding body (UInt32.ofNat (start + body.length)) + 4 := by
  simp [spacing, Nat.add_assoc]

theorem spaced_of_spread {start : Nat} {bodies : List Bytes} {exports : List Export}
    {codeEnd : UInt32} (hheld : img.Holds start (spread start bodies))
    (hoffsets : exports.map (·.offset.toNat) = starts start bodies)
    (hend : codeEnd.toNat = start + (spread start bodies).length) :
    Spaced img codeEnd exports bodies := by
  fun_induction spread start bodies generalizing exports with
  | case1 start =>
    obtain rfl := List.map_eq_nil_iff.mp hoffsets
    exact .nil
  | case2 start body =>
    obtain ⟨e, rfl, he⟩ := List.map_eq_singleton_iff.mp hoffsets
    exact .last (he ▸ hend)
  | case3 start body next rest ih =>
    obtain ⟨e, rest', rfl, he, hrest'⟩ := List.map_eq_cons_iff.mp hoffsets
    obtain ⟨e', rest', rfl, he', -⟩ := List.map_eq_cons_iff.mp hrest'
    rw [Image.holds_append] at hheld
    have hbody : img.Holds start
        (body ++ List.replicate (gapPadding body (UInt32.ofNat (start + body.length))) 0xFF) :=
      hheld.1.front ⟨List.replicate 4 0, by rw [spacing, List.append_assoc]⟩
    have hlength := length_append_spacing start body
    rw [List.length_append] at hend
    rw [← he] at hbody
    refine .cons _ hbody ?_ (ih hheld.2 hrest' (by omega))
    rw [he', he, hlength]

theorem gapPadding_of_closesItself {body : Bytes} (h : ClosesItself body) (stop : UInt32) :
    gapPadding body stop = Word.padding 4 stop.toNat := by
  obtain rfl | hlast | hlast := h
  · rfl
  · rw [gapPadding, hlast]
    rfl
  · rw [gapPadding, hlast]
    rfl

/-- The word of an offset leaves its remainder by four as it is. -/
theorem padding_four_toNat_ofNat (n : Nat) :
    Word.padding 4 (UInt32.ofNat n).toNat = Word.padding 4 n := by
  rw [Word.padding, Word.padding, UInt32.toNat_ofNat']
  omega

theorem starts_aligned {start : Nat} {bodies : List Bytes} {i place : Nat} {body : Bytes}
    (hbody : bodies[i]? = some body) (hplace : (starts start bodies)[i + 1]? = some place)
    (hcloses : ClosesItself body) : 4 ∣ place := by
  induction bodies generalizing start i with
  | nil => cases hbody
  | cons first rest ih =>
    rw [starts, List.getElem?_cons_succ] at hplace
    cases i with
    | zero =>
      obtain rfl : first = body := Option.some.inj hbody
      cases rest with
      | nil => cases hplace
      | cons next rest =>
        obtain rfl := Option.some.inj hplace
        have haligned := Word.add_padding_mod_four (start + first.length)
        rw [length_append_spacing, gapPadding_of_closesItself hcloses, padding_four_toNat_ofNat]
        omega
    | succ i => exact ih hbody hplace

/-- The sizes of any bodies come back from their spacing, whatever stands before and after them. -/
theorem derive_spread (before after : Bytes) (bodies : List Bytes) (exports : List Export)
    (hoffsets : exports.map (·.offset.toNat) = starts before.length bodies)
    (hfit : (before ++ spread before.length bodies ++ after).length < 2 ^ 32) :
    (∃ derived,
      derive (before ++ spread before.length bodies ++ after).toArray exports
          (UInt32.ofNat (before.length + (spread before.length bodies).length)) = .ok derived ∧
        derived.map (·.size.toNat) = bodies.map List.length ∧
        derived.map unsized = exports.map unsized) ∧
      ∀ (i : Nat) (body : Bytes) (next : Nat), bodies[i]? = some body →
        (starts before.length bodies)[i + 1]? = some next → ClosesItself body → 4 ∣ next := by
  have hheld := Image.holds_toArray before (spread before.length bodies) after
  rw [List.length_append, List.length_append] at hfit
  have hspaced := spaced_of_spread hheld hoffsets
    (toNat_ofNat_of_lt (show before.length + (spread before.length bodies).length < 2 ^ 32 by omega))
  refine ⟨⟨_, hspaced.deriveLoop_eq [], ?_, ?_⟩, fun i body next => starts_aligned⟩
  · exact hspaced.sizes
  · exact hspaced.unsized_zipWith

theorem derive_spread_three :
    let exportAt (offset : UInt32) : Export := ⟨0, offset, text "f", 0, 0, 0⟩
    ∃ derived,
      derive ([7] ++ spread 1 [[0, 0xFF], [], [1]] ++ [9]).toArray
          [exportAt 1, exportAt 10, exportAt 16] 17 = .ok derived ∧
        derived.map (·.size.toNat) = [2, 0, 1] :=
  have h := (derive_spread [7] [9] [[0, 0xFF], [], [1]]
    [⟨0, 1, text "f", 0, 0, 0⟩, ⟨0, 10, text "f", 0, 0, 0⟩, ⟨0, 16, text "f", 0, 0, 0⟩]
    (by decide) (by decide)).1
  have ⟨derived, hderived, hsizes, _⟩ := h
  ⟨derived, hderived, hsizes⟩

end ExportSizes
end ScriptCodec
