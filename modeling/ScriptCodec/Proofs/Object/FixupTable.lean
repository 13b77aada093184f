import ScriptCodec.Proofs.Object.ImportTable
import ScriptCodec.Proofs.Object.Truncation

/-!
The string fixups and animation trees of an assembled file. No reader of the code looks at the
fixups, so what they should say is read off the layout instead: which operands of an instruction
are 16-bit keys, of which strings, and at which aligned addresses they stand.
-/
namespace ScriptCodec

def alignUp (n pos : Nat) : Nat := pos + Word.padding n pos

def keysFrom (pos : Nat) (names : List Bytes) : List (Bytes × Nat) :=
  names.mapIdx fun i s => (s, alignUp 2 pos + 2 * i)

/-- The 16-bit keys among operands that start at `pos`, each with its string and address. Local
variables have their count before them. -/
def OperandKind.keys (kind : OperandKind) (pos : Nat) (args : List Bytes) : List (Bytes × Nat) :=
  match kind with
  | string => keysFrom pos (Operand.quoted args 0).toOption.toList
  | field => keysFrom pos (Operand.single args).toOption.toList
  | locals => keysFrom (pos + 1) args
  | _ => []

def Placed.keys (x : Placed) : List (Bytes × Nat) :=
  x.inst.opcode.kind?.elim [] fun kind => kind.keys (x.addr.toNat + 1) x.inst.args

theorem OperandKind.keys_of_word {kind : OperandKind} {args : List Bytes} {s : Bytes}
    (hread : kind.read args = .ok (.word s)) (pos : Nat) :
    kind.keys pos args = [(s, alignUp 2 pos)] := by
  cases OperandValue.fits_of_read hread with
  | string | field =>
    simp only [OperandKind.read, Except.map_eq_ok_iff, OperandValue.word.injEq,
      exists_eq_right] at hread
    rw [keys, hread]
    rfl

theorem OperandKind.keys_of_locals {kind : OperandKind} {args names : List Bytes}
    (hread : kind.read args = .ok (.locals names)) (pos : Nat) :
    kind.keys pos args = keysFrom (pos + 1) names := by
  cases OperandValue.fits_of_read hread with
  | locals =>
    simp only [OperandKind.read] at hread
    split at hread
    · cases hread
    · rw [← OperandValue.locals.inj (Except.ok.inj hread)]
      rfl

def Instruction.animation? (inst : Instruction) : Option (Bytes × Bytes) :=
  if inst.opcode.kind? = some .animation then (Operand.animation inst.args).toOption else none

def Placed.animation? (x : Placed) : Option (Bytes × Bytes × Nat) :=
  x.inst.animation?.map fun (tree, anim) => (tree, anim, alignUp 4 (x.addr.toNat + 1))

theorem keysFrom_cons (pos : Nat) (s : Bytes) (names : List Bytes) :
    keysFrom pos (s :: names) = (s, alignUp 2 pos) :: keysFrom (alignUp 2 pos + 2) names := by
  have heven : alignUp 2 (alignUp 2 pos + 2) = alignUp 2 pos + 2 := by
    simp only [alignUp, Word.padding]
    omega
  simp only [keysFrom, List.mapIdx_cons, heven, Nat.mul_zero, Nat.add_zero]
  congr 2
  funext i s
  rw [Nat.mul_add, Nat.mul_one, Nat.add_assoc, Nat.add_comm (2 * i)]

namespace Assembly

def literalsAt (sites : List Site) : List (Bytes × Nat) :=
  sites.filterMap fun
    | .literal s addr => some (s, addr.toNat)
    | _ => none

def animationsAt (sites : List Site) : List (Bytes × Bytes × Nat) :=
  sites.filterMap fun
    | .animation tree anim addr => some (tree, anim, addr.toNat)
    | _ => none

theorem literalsAt_append (a b : List Site) :
    literalsAt (a ++ b) = literalsAt a ++ literalsAt b := List.filterMap_append

theorem animationsAt_append (a b : List Site) :
    animationsAt (a ++ b) = animationsAt a ++ animationsAt b := List.filterMap_append

variable (sites : List Site)

theorem literalRefs_eq (s : Bytes) :
    (literalRefs sites s).map UInt32.toNat =
      ((literalsAt sites).filter fun k => k.1 == s).map Prod.snd := by
  induction sites with
  | nil => rfl
  | cons site sites ih =>
    cases site with
    | literal t addr =>
      by_cases ht : t = s
      · simpa [literalRefs, literalsAt, ht] using ih
      · simpa [literalRefs, literalsAt, ht] using ih
    | call | animation => exact ih

theorem literals_eq : literals sites = ((literalsAt sites).map Prod.fst).eraseDups := by
  rw [literals, literalsAt, List.map_filterMap]
  congr 2
  funext site
  cases site with
  | _ => rfl

theorem animationsOf_eq (tree : Bytes) :
    (animationsOf sites tree).map (fun a => (a.name, a.ref.toNat)) =
      ((animationsAt sites).filter fun k => k.1 == tree).map Prod.snd := by
  induction sites with
  | nil => rfl
  | cons site sites ih =>
    cases site with
    | animation t anim addr =>
      by_cases ht : t = tree
      · simpa [animationsOf, animationsAt, ht] using ih
      · simpa [animationsOf, animationsAt, ht] using ih
    | call | literal => exact ih

end Assembly

namespace Code

open Assembly (literalsAt animationsAt literalsAt_append animationsAt_append)

variable {img : Image} {ctx : Context} {lay : Layout} {dev : Bool} {x : Placed} {e : Emitted}

theorem literalsAt_localSites {names : List Bytes} {keys : List UInt16}
    {R : Bytes → UInt16 → Prop} (h : names.Forall₂ R keys) {pos : Nat}
    (hfit : pos + (localBytes pos keys).length < 2 ^ 32) :
    literalsAt (localSites pos names) = keysFrom pos names := by
  induction h generalizing pos with
  | nil => rfl
  | @cons s key names keys _ _ ih =>
    simp only [localBytes, List.length_append, length_pad, Word.length_u16] at hfit
    have haddr : (operandAt 2 pos).toNat = alignUp 2 pos := toNat_operandAt (by omega)
    have hrest : literalsAt (localSites (alignUp 2 pos + 2) names) =
        keysFrom (alignUp 2 pos + 2) names := ih (by rw [alignUp]; omega)
    rw [keysFrom_cons, ← hrest, ← haddr, haddr]
    exact congrArg (· :: _) (by rw [haddr])

theorem animationsAt_localSites (pos : Nat) (names : List Bytes) :
    animationsAt (localSites pos names) = [] := by
  induction names generalizing pos with
  | nil => rfl
  | cons name names ih => exact ih _

theorem exists_key_of_localBytes {names : List Bytes} {keys : List UInt16}
    (h : names.Forall₂ (fun s key => ctx.pool.key16 s = .ok key) keys) {pos : Nat}
    (hheld : img.Holds pos (localBytes pos keys)) :
    ∀ k ∈ keysFrom pos names, ∃ key, ctx.pool.key16 k.1 = .ok key ∧ img.u16 k.2 = .ok key := by
  induction h generalizing pos with
  | nil => simp [keysFrom]
  | @cons s key names keys hkey _ ih =>
    rw [localBytes, Image.holds_append, Image.holds_append] at hheld
    simp only [List.length_append, length_pad, Word.length_u16] at hheld
    obtain ⟨⟨-, hword⟩, hrest⟩ := hheld
    intro k hk
    rw [keysFrom_cons] at hk
    rcases List.mem_cons.mp hk with rfl | hk
    · exact ⟨key, hkey, hword.u16⟩
    · exact ih hrest k hk

theorem Encodes.literalsAt_sites (h : Encodes ctx lay dev x e)
    (hfit : x.addr.toNat + e.bytes.length < 2 ^ 32) : literalsAt e.sites = x.keys := by
  obtain ⟨kind, v, operand, hkind, hread, hemits, rfl, -⟩ := h
  simp only [List.length_cons] at hfit
  rw [Placed.keys, hkind, Option.elim_some]
  cases hemits with
  | string | field =>
    simp only [List.length_append, length_pad, Word.length_u16] at hfit
    have haddr : (operandAt 2 (x.addr.toNat + 1)).toNat = alignUp 2 (x.addr.toNat + 1) :=
      toNat_operandAt (by omega)
    rw [OperandKind.keys_of_word hread, ← haddr]
    rfl
  | locals hkeys =>
    simp only [List.length_cons] at hfit
    rw [OperandKind.keys_of_locals hread]
    exact literalsAt_localSites hkeys (by omega)
  | _ => rfl

theorem Encodes.animationsAt_sites (h : Encodes ctx lay dev x e)
    (hfit : x.addr.toNat + e.bytes.length < 2 ^ 32) :
    animationsAt e.sites = x.animation?.toList := by
  obtain ⟨kind, v, operand, hkind, hread, hemits, rfl, -⟩ := h
  simp only [List.length_cons] at hfit
  rw [Placed.animation?, Instruction.animation?, hkind]
  cases hemits with
  | animation =>
    simp only [OperandKind.read, Except.map_eq_ok_iff] at hread
    obtain ⟨names, hread, hvalue⟩ := hread
    obtain ⟨rfl, rfl⟩ := OperandValue.animation.inj hvalue
    simp only [List.length_append, length_pad, Word.length_u32] at hfit
    have haddr : (operandAt 4 (x.addr.toNat + 1)).toNat = alignUp 4 (x.addr.toNat + 1) :=
      toNat_operandAt (by omega)
    rw [if_pos rfl, hread]
    exact congrArg (fun addr => [(_, _, addr)]) haddr
  | locals hkeys => exact animationsAt_localSites _ _
  | _ => rfl

theorem Encodes.exists_key (h : Encodes ctx lay dev x e) (hheld : img.Holds x.addr.toNat e.bytes) :
    ∀ k ∈ x.keys, ∃ key, ctx.pool.key16 k.1 = .ok key ∧ img.u16 k.2 = .ok key := by
  obtain ⟨kind, v, operand, hkind, hread, hemits, rfl, -⟩ := h
  have hbytes := ((Image.holds_append (a := [x.inst.opcode])).mp hheld).2
  rw [Placed.keys, hkind, Option.elim_some]
  intro k hk
  cases hemits with
  | string hkey | field hkey =>
    rw [OperandKind.keys_of_word hread, List.mem_singleton] at hk
    simp only [Image.holds_append, length_pad] at hbytes
    rw [hk]
    exact ⟨_, hkey, hbytes.2.u16⟩
  | locals hkeys =>
    rw [OperandKind.keys_of_locals hread] at hk
    exact exists_key_of_localBytes hkeys ((Image.holds_append (a := [_])).mp hbytes).2 k hk
  | _ => cases hk

theorem Encodes.exists_offset (h : Encodes ctx lay dev x e) :
    ∀ a ∈ x.animation?, ∃ key, ctx.pool.offset? a.2.1 = some key := by
  obtain ⟨kind, v, operand, hkind, hread, hemits, rfl, -⟩ := h
  intro a ha
  rw [Placed.animation?, Instruction.animation?, hkind] at ha
  cases hemits with
  | animation hkey =>
    simp only [OperandKind.read, Except.map_eq_ok_iff] at hread
    obtain ⟨names, hread, hvalue⟩ := hread
    obtain ⟨rfl, rfl⟩ := OperandValue.animation.inj hvalue
    rw [if_pos rfl, hread] at ha
    rw [← Option.some.inj ha]
    exact ⟨_, StringPool.key32_eq_ok_iff.mp hkey⟩
  | _ =>
    rw [if_neg (by decide)] at ha
    cases ha

theorem EncodesAll.sitesAt {start stop : UInt32} {code : List Instruction} {xs : List Placed}
    (hplaces : Layout.Places start code xs stop) {ends : List UInt32} {es : List Emitted}
    (h : EncodesAll ctx lay ends xs es)
    (hfit : start.toNat + (es.map Emitted.bytes).flatten.length < 2 ^ 32) :
    literalsAt (es.map Emitted.sites).flatten = xs.flatMap Placed.keys ∧
      animationsAt (es.map Emitted.sites).flatten = xs.filterMap Placed.animation? := by
  induction hplaces generalizing ends es with
  | nil start =>
    cases h
    exact ⟨rfl, rfl⟩
  | @cons inst code start size stop xs _ _ ih =>
    obtain _ | @⟨_, _, _, e, es, hhead, htail⟩ := h
    simp only [List.map_cons, List.flatten_cons, List.length_append] at hfit ⊢
    have hfirst : start.toNat + e.bytes.length < 2 ^ 32 := by omega
    have hnext : (start + size).toNat = start.toNat + e.bytes.length := hhead.toNat_next hfirst
    obtain ⟨hliterals, hanimations⟩ := ih htail (by omega)
    constructor
    · rw [literalsAt_append, hhead.literalsAt_sites hfirst, hliterals, List.flatMap_cons]
    · rw [animationsAt_append, hhead.animationsAt_sites hfirst, hanimations,
        Disassembly.filterMap_cons_toList]

structure ShowsKeys (img : Image) (ctx : Context) (lay : Layout) (b : Body) : Prop where
  literals : literalsAt b.sites = lay.placed.flatMap Placed.keys
  animations : animationsAt b.sites = lay.placed.filterMap Placed.animation?
  words : ∀ x ∈ lay.placed, ∀ k ∈ x.keys, ∃ key,
    ctx.pool.key16 k.1 = .ok key ∧ img.u16 k.2 = .ok key
  pooled : ∀ x ∈ lay.placed, ∀ a ∈ x.animation?, ∃ key, ctx.pool.offset? a.2.1 = some key

theorem exists_showsKeys {fn : Function} {start : UInt32} {b : Body}
    (hbody : EncodesBody ctx fn start b) (hheld : img.Holds start.toNat b.bytes)
    (hfit : start.toNat + b.bytes.length < 2 ^ 32) :
    ∃ lay, Layout.ofFunction fn start = .ok lay ∧ ShowsKeys img ctx lay b := by
  obtain ⟨lay, es, hlay, hes, rfl⟩ := hbody
  have hplaces := (Layout.ofFunction_eq_ok_iff.mp hlay).1
  obtain ⟨hliterals, hanimations⟩ := hes.sitesAt hplaces hfit
  refine ⟨lay, hlay, hliterals, hanimations, ?_, ?_⟩
  · intro x hx
    obtain ⟨dev, e, he, hheld⟩ := hes.exists_held hplaces hheld hfit x hx
    exact he.exists_key hheld
  · intro x hx
    obtain ⟨dev, e, he, -⟩ := hes.exists_held hplaces hheld hfit x hx
    exact he.exists_offset

theorem sitesAt_flatten {lays : List Layout} {bs : List Body}
    (h : lays.Forall₂ (ShowsKeys img ctx) bs) :
    literalsAt (bs.map Body.sites).flatten = (lays.flatMap Layout.placed).flatMap Placed.keys ∧
      animationsAt (bs.map Body.sites).flatten =
        (lays.flatMap Layout.placed).filterMap Placed.animation? := by
  induction h with
  | nil => exact ⟨rfl, rfl⟩
  | cons hshows _ ih =>
    rw [List.map_cons, List.flatten_cons, List.flatMap_cons, List.flatMap_append,
      List.filterMap_append]
    constructor
    · rw [literalsAt_append, hshows.literals, ih.1]
    · rw [animationsAt_append, hshows.animations, ih.2]

end Code

namespace Assembly

variable {α : Type} {n : Nat} {xs : List α}

theorem flatten_chunks (hn : n ≠ 0) : (chunks n xs).flatten = xs := by
  fun_induction chunks n xs with
  | case1 xs h =>
    rw [List.isEmpty_iff.mp (h.resolve_right hn)]
    rfl
  | case2 xs h ih => rw [List.flatten_cons, ih, List.take_append_drop]

theorem length_pos_of_mem_chunks {chunk : List α} (h : chunk ∈ chunks n xs) :
    0 < chunk.length := by
  fun_induction chunks n xs with
  | case1 => cases h
  | case2 xs hsome ih =>
    rcases List.mem_cons.mp h with rfl | h
    · rw [not_or, List.isEmpty_iff] at hsome
      have hxs := List.length_pos_iff.mpr hsome.1
      rw [List.length_take]
      omega
    · exact ih h

/-- All chunks but the last are full. -/
theorem length_of_mem_dropLast_chunks {chunk : List α} (h : chunk ∈ (chunks n xs).dropLast) :
    chunk.length = n := by
  fun_induction chunks n xs with
  | case1 => cases h
  | case2 xs hsome ih =>
    cases hrest : chunks n (xs.drop n) with
    | nil =>
      rw [hrest] at h
      cases h
    | cons next rest =>
      rw [hrest, List.dropLast_cons_cons] at h
      rcases List.mem_cons.mp h with rfl | h
      · have hlength : (xs.drop n).length ≠ 0 := by
          intro hnil
          rw [List.length_eq_zero_iff.mp hnil, chunks] at hrest
          cases hrest
        rw [List.length_drop] at hlength
        rw [List.length_take]
        omega
      · rw [hrest] at ih
        exact ih h

theorem nodup_eraseDups (ss : List Bytes) : ss.eraseDups.Nodup := by
  match ss with
  | [] => exact List.nodup_nil
  | s :: ss =>
    rw [List.eraseDups_cons, List.nodup_cons, List.mem_eraseDups]
    exact ⟨by simp, nodup_eraseDups _⟩
termination_by ss.length
decreasing_by exact Nat.lt_succ_of_le (List.length_filter_le _ _)

theorem flatMap_of_nodup {β : Type} {ss : List Bytes} (hnodup : ss.Nodup) (s : Bytes) (ys : List β) :
    (ss.flatMap fun t => if t = s then ys else []) = if s ∈ ss then ys else [] := by
  induction ss with
  | nil => rfl
  | cons t ss ih =>
    rw [List.nodup_cons] at hnodup
    rw [List.flatMap_cons, ih hnodup.2]
    by_cases hts : t = s
    · obtain rfl := hts
      simp [hnodup.1]
    · have hst : s ≠ t := fun h => hts h.symm
      simp [hts, hst]

theorem filter_fixupsOf (sites : List Site) (s : Bytes) :
    (fixupsOf sites).filter (fun f => f.name == s) =
      (chunks maxFixupRefs (literalRefs sites s)).map (StringFixup.mk s) := by
  have hentries (t : Bytes) : ((chunks maxFixupRefs (literalRefs sites t)).map
      (StringFixup.mk t)).filter (fun f => f.name == s) =
        if t = s then (chunks maxFixupRefs (literalRefs sites s)).map (StringFixup.mk s) else [] := by
    rw [List.filter_map]
    by_cases hts : t = s
    · obtain rfl := hts
      simp [Function.comp_def]
    · simp [Function.comp_def, hts]
  have hnodup : (literals sites).Nodup := nodup_eraseDups _
  simp only [fixupsOf, List.filter_flatMap, hentries, flatMap_of_nodup hnodup]
  split
  · rfl
  · rename_i hmem
    rw [literals_eq, List.mem_eraseDups] at hmem
    have hrefs : literalRefs sites s = [] := by
      rw [← List.map_eq_nil_iff (f := UInt32.toNat), literalRefs_eq, List.map_eq_nil_iff,
        List.filter_eq_nil_iff]
      intro k hk hks
      exact hmem (List.mem_map.mpr ⟨k, hk, beq_iff_eq.mp hks⟩)
    rw [hrefs, chunks]
    rfl

end Assembly

/-- Entries of one string that list its addresses, each once and in ascending order, in as few
entries as the counts of the entries allow. -/
structure ListsAddresses (entries : List StringFixup) (addrs : List Nat) : Prop where
  refs : (entries.flatMap StringFixup.refs).map UInt32.toNat = addrs
  ascending : addrs.Pairwise (· < ·)
  counts : ∀ e ∈ entries, 0 < e.refs.length ∧ e.refs.length ≤ 255
  full : ∀ e ∈ entries.dropLast, e.refs.length = 255

namespace Assembly

theorem pairwise_literalRefs {low high : Nat} {sites : List Site}
    (h : Site.Within low high sites) (s : Bytes) :
    ((literalRefs sites s).map UInt32.toNat).Pairwise (· < ·) := by
  have haddr {site : Site} {addr : UInt32} (hsite : addr ∈ literalRefs [site] s) :
      addr = site.addr := by
    cases site with
    | literal t a =>
      by_cases ht : t = s
      · simpa [literalRefs, ht, Site.addr] using hsite
      · simp [literalRefs, ht] at hsite
    | call | animation => cases hsite
  rw [List.pairwise_map]
  refine h.1.filterMap _ ?_
  intro a b hlt addr ha addr' hb
  rw [haddr (List.mem_filterMap.mpr ⟨a, List.mem_singleton_self a, ha⟩),
    haddr (List.mem_filterMap.mpr ⟨b, List.mem_singleton_self b, hb⟩)]
  exact hlt

theorem listsAddresses_fixupsOf {low high : Nat} {sites : List Site}
    (h : Site.Within low high sites) (s : Bytes) :
    ListsAddresses ((fixupsOf sites).filter fun f => f.name == s)
      (((literalsAt sites).filter fun k => k.1 == s).map Prod.snd) := by
  rw [filter_fixupsOf, ← literalRefs_eq]
  refine ⟨?_, pairwise_literalRefs h s, ?_, ?_⟩
  · rw [List.flatMap_map, List.flatMap_def]
    change ((List.map id _).flatten).map _ = _
    rw [List.map_id, flatten_chunks (by decide)]
  · intro e he
    obtain ⟨refs, hrefs, rfl⟩ := List.mem_map.mp he
    exact ⟨length_pos_of_mem_chunks hrefs, length_of_mem_chunks hrefs⟩
  · intro e he
    rw [← List.map_dropLast] at he
    obtain ⟨refs, hrefs, rfl⟩ := List.mem_map.mp he
    exact length_of_mem_dropLast_chunks hrefs

theorem animations_words {table : StringTable} {pool : StringPool} (htable : table.Holds pool)
    {anims : List Animation} (hpooled : ∀ a ∈ anims, ∃ key, pool.offset? a.name = some key) :
    Tables.animations table (animationWords pool anims) = anims := by
  have hfrom (done : List Animation) :
      Tables.animationsFrom table done (animationWords pool anims) = done.reverse ++ anims := by
    induction anims generalizing done with
    | nil => simp [animationWords, Tables.animationsFrom]
    | cons a anims ih =>
      obtain ⟨key, hkey⟩ := hpooled a List.mem_cons_self
      rw [animationWords_cons, Tables.animationsFrom, hkey, Option.getD_some,
        htable.lookupAnim hkey, ih fun b hb => hpooled b (List.mem_cons_of_mem _ hb)]
      simp
  exact hfrom []

end Assembly

theorem Instruction.animation?_of_mention {inst : Instruction} {found : Mention}
    (h : Mention.ofInstruction .builtIn inst = .ok found) :
    found.tree = inst.animation?.map Prod.fst := by
  simp only [Mention.ofInstruction, Except.bind_eq_ok_iff, OpcodeTable.kind_builtIn] at h
  obtain ⟨kind, hkind, h⟩ := h
  cases kind with
  | animation =>
    simp only [Except.map_eq_ok_iff, Assembling.ofOperand_eq_ok_iff] at h
    obtain ⟨names, hnames, rfl⟩ := h
    rw [animation?, hkind, if_pos rfl, hnames]
    rfl
  | string | field | call | function =>
    simp only [Except.map_eq_ok_iff] at h
    obtain ⟨_, -, rfl⟩ := h
    rw [animation?, hkind, if_neg (by decide)]
    rfl
  | _ =>
    rw [animation?, hkind, if_neg (by decide), ← Except.ok.inj h]
    rfl

theorem Mentions.trees_eq {m : Module} {ms : Mentions} (hms : ofModule .builtIn m = .ok ms) :
    ms.trees = ((m.functionList.flatMap Function.code).filterMap fun inst =>
      inst.animation?.map Prod.fst).eraseDups := by
  rw [trees, filterMap_all Instruction.animation?_of_mention hms]

theorem StringPool.cstring_of_key16 {img : Image} {pool : StringPool} (hnul : ∀ s ∈ pool.strings, 0 ∉ s)
    (hheld : img.Holds Header.length pool.bytes) (hfit : Header.length + pool.bytes.length < 2 ^ 32)
    {s : Bytes} {key : UInt16} (hkey : pool.key16 s = .ok key) :
    ∃ next, img.cstring key.toNat = .ok (s, next) := by
  obtain ⟨front, rest, hstrings, hoffset⟩ := offsetFrom_eq_some (offset?_of_key16 hkey) hfit
  have hbytes : pool.bytes = terminated front ++ ((s ++ [0]) ++ terminated rest) := by
    rw [← terminated_cons, ← terminated_append, ← hstrings]
    rfl
  rw [hbytes, Image.holds_append, Image.holds_append] at hheld
  rw [UInt16.toNat_toUInt32] at hoffset
  have hs : s ∈ pool.strings := by
    rw [hstrings]
    exact List.mem_append_right _ List.mem_cons_self
  rw [hoffset]
  exact ⟨_, hheld.2.1.cstring (hnul s hs)⟩

namespace Layout

def keys (lays : List Layout) : List (Bytes × Nat) := (lays.flatMap placed).flatMap Placed.keys

def animations (lays : List Layout) : List (Bytes × Bytes × Nat) :=
  (lays.flatMap placed).filterMap Placed.animation?

theorem map_fst_animations (lays : List Layout) :
    (animations lays).map Prod.fst =
      ((lays.flatMap placed).map Placed.inst).filterMap fun inst => inst.animation?.map Prod.fst := by
  rw [animations, List.map_filterMap, List.filterMap_map]
  refine List.filterMap_congr ?_
  intro x _
  rw [Placed.animation?, Option.map_map, Function.comp_apply]
  rfl

end Layout

structure AnimTree.Lists (lays : List Layout) (tree : AnimTree) : Prop where
  refs : tree.refs = []
  anims : tree.anims.map (fun a => (a.name, a.ref.toNat)) =
    ((Layout.animations lays).filter fun k => k.1 == tree.name).map Prod.snd

theorem Assembly.lists_treeRead {img : Image} {ctx : Code.Context} {lays : List Layout}
    {bs : List Code.Body} (hshows : lays.Forall₂ (Code.ShowsKeys img ctx) bs) {table : StringTable}
    (htable : table.Holds ctx.pool) (tree : Bytes) :
    (treeRead table ctx.pool (bs.map Code.Body.sites).flatten tree).Lists lays := by
  have hsites : animationsAt (bs.map Code.Body.sites).flatten = Layout.animations lays :=
    (Code.sitesAt_flatten hshows).2
  have hlisted := animationsOf_eq (bs.map Code.Body.sites).flatten tree
  rw [hsites] at hlisted
  refine ⟨rfl, Eq.trans (congrArg (List.map _) (animations_words htable ?_)) hlisted⟩
  intro a ha
  have hmem : (a.name, a.ref.toNat) ∈
      ((Layout.animations lays).filter fun k => k.1 == tree).map Prod.snd := by
    rw [← hlisted]
    exact List.mem_map_of_mem ha
  obtain ⟨k, hk, hka⟩ := List.mem_map.mp hmem
  obtain ⟨x, hx, hxk⟩ := List.mem_filterMap.mp (List.mem_filter.mp hk).1
  obtain ⟨lay, hlay, hx⟩ := List.mem_flatMap.mp hx
  obtain ⟨b, -, hb⟩ := hshows.exists_right hlay
  have hpooled := hb.pooled x hx k hxk
  rwa [hka] at hpooled

theorem disassemble_fixups {flags : UInt8} {m : Module} {a : Assembled}
    (h : assemble .builtIn flags m = .ok a) (hnul : m.IsNulFree)
    (hlength : a.file.length < 2 ^ 32) (hfixups : m.FixupsFit .builtIn) :
    ∃ ms obj lays, Mentions.ofModule .builtIn m = .ok ms ∧
      disassemble .builtIn a.file.toArray = .ok obj ∧
      obj.exports.map Export.name = m.functionList.map Function.name ∧
      (m.functionList.zip obj.exports).Forall₂
        (fun p lay => Layout.ofFunction p.1 p.2.offset = .ok lay) lays ∧
      (∀ s, ListsAddresses (obj.fixups.filter fun f => f.name == s)
        (((Layout.keys lays).filter fun k => k.1 == s).map Prod.snd)) ∧
      (∀ k ∈ Layout.keys lays, ∃ key next, (ms.pool m).key16 k.1 = .ok key ∧
        Image.u16 a.file.toArray k.2 = .ok key ∧
        Image.cstring a.file.toArray key.toNat = .ok (k.1, next)) ∧
      obj.animTrees.map AnimTree.name = ((Layout.animations lays).map Prod.fst).eraseDups ∧
      ∀ tree ∈ obj.animTrees, tree.Lists lays := by
  obtain ⟨ms, bs, r, hfile⟩ := exists_fileOf h hlength
  have hstrings := hnul ms hfile.mentions
  obtain ⟨s, gs, lays, hobj, hs, hnames, hlays, hshows⟩ := hfile.exists_exports hstrings
    fun _ _ _ => Code.exists_showsKeys
  obtain ⟨low, high, hwithin⟩ := hfile.within_sites
  have hinsts := Layout.flatMap_code hfile.lays (hs.exports ▸ hlays)
  have hsites : Assembly.literalsAt (Assembly.codeOf m ms bs).sites = Layout.keys lays :=
    (Code.sitesAt_flatten hshows).1
  refine ⟨ms, s.object gs, lays, hfile.mentions, hobj, hnames, hlays, ?_, ?_, ?_, ?_⟩
  · intro t
    have hnamed := (Assembly.assemble_eq_ok_iff_named.mp h).1
    have hle := hfile.length_fixups_le hnamed hfixups
    rw [hfile.writes.length_fixups, ← Assembly.length_fixupsOf] at hle
    have hall : s.fixups = Assembly.fixupsOf (Assembly.codeOf m ms bs).sites := by
      rw [hs.fixups, Nat.mod_eq_of_lt (by omega), List.take_length]
    change ListsAddresses (s.fixups.filter _) _
    rw [hall, ← hsites]
    exact Assembly.listsAddresses_fixupsOf hwithin t
  · intro k hk
    obtain ⟨x, hx, hk⟩ := List.mem_flatMap.mp hk
    obtain ⟨lay, hlay, hx⟩ := List.mem_flatMap.mp hx
    obtain ⟨b, -, hb⟩ := hshows.exists_right hlay
    obtain ⟨key, hkey, hword⟩ := hb.words x hx k hk
    have hpool := hfile.holdsParts.pool
    have hfits := hfile.holdsParts.pool_stop
    have hlt := (r.header flags m ms (Assembly.codeOf m ms bs)).includeOffset.toNat_lt
    rw [hfits] at hlt
    obtain ⟨next, hnext⟩ := StringPool.cstring_of_key16
      (fun s hs => hstrings s (Mentions.mem_pool.mp hs)) hpool hlt hkey
    exact ⟨key, next, hkey, hword, hnext⟩
  · change s.animTrees.map AnimTree.name = _
    rw [hs.trees, Layout.map_fst_animations, hinsts,
      ← Mentions.trees_eq hfile.mentions, List.map_map]
    exact List.map_id _
  · intro tree htree
    change tree ∈ s.animTrees at htree
    rw [hs.trees] at htree
    obtain ⟨name, -, rfl⟩ := List.mem_map.mp htree
    exact Assembly.lists_treeRead hshows hs.strings name

def keyedModule : Module where
  name := text "m"
  includes := none
  functions := some [
    some ⟨0, 0, 0, 0, text "f", some [
      some ⟨0, 8, 23, some [text "a", text "b"]⟩,
      some ⟨8, 4, 10, some [text "\"a\""]⟩,
      some ⟨12, 1, 0, none⟩], none⟩,
    some ⟨0, 0, 0, 0, text "g", some [
      some ⟨0, 4, 32, some [text "b"]⟩,
      some ⟨4, 8, 19, some [text "t", text "\"run\""]⟩,
      some ⟨12, 8, 19, some [text "t", text "\"walk\""]⟩,
      some ⟨20, 1, 0, none⟩], none⟩]
  imports := none

theorem disassemble_fixups_keyedModule :
    ∃ a obj lays, assemble .builtIn 0 keyedModule = .ok a ∧ keyedModule.IsNulFree ∧
      a.file.length < 2 ^ 32 ∧ keyedModule.FixupsFit .builtIn ∧
      disassemble .builtIn a.file.toArray = .ok obj ∧
      (∀ s, ListsAddresses (obj.fixups.filter fun f => f.name == s)
        (((Layout.keys lays).filter fun k => k.1 == s).map Prod.snd)) ∧
      obj.animTrees.map AnimTree.name = ((Layout.animations lays).map Prod.fst).eraseDups ∧
      ∀ tree ∈ obj.animTrees, tree.Lists lays := by
  obtain ⟨a, ha, hlength⟩ : ∃ a, assemble .builtIn 0 keyedModule = .ok a ∧
      decide (a.file.length < 2 ^ 32) = true := Except.exists_of_any (by decide +kernel)
  have hnul : keyedModule.IsNulFree := by decide +kernel
  have hfixups : keyedModule.FixupsFit .builtIn := by decide +kernel
  obtain ⟨ms, obj, lays, -, hobj, -, -, hlists, -, hnames, htrees⟩ :=
    disassemble_fixups ha hnul (of_decide_eq_true hlength) hfixups
  exact ⟨a, obj, lays, ha, hnul, of_decide_eq_true hlength, hfixups, hobj, hlists, hnames, htrees⟩

end ScriptCodec
