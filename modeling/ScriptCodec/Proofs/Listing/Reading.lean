import ScriptCodec.Proofs.Listing.Lines
import ScriptCodec.Proofs.Object.Targets

/-!
Reading what was printed. A function comes back with the same instructions, placed back to back
from the address the reader has reached, and every label at the new address of the boundary it
was printed before. The lines of an instruction are one step; code, functions and modules follow
by induction on the layout.
-/
namespace ScriptCodec

namespace Labels

def moved (labels : Labels) (places : List (UInt32 × UInt32)) : Labels :=
  places.filterMap fun p => (labels.nameAt? p.1).map fun name => (p.2, name)

theorem moved_append (labels : Labels) (places places' : List (UInt32 × UInt32)) :
    labels.moved (places ++ places') = labels.moved places ++ labels.moved places' :=
  List.filterMap_append

def Separate (labels : Labels) : Prop := labels.Pairwise fun e f => e.1 < f.1 ∧ e.2 ≠ f.2

theorem set_of_forall_lt {labels : Labels} {offset : UInt32} (h : ∀ e ∈ labels, e.1 < offset)
    (name : Bytes) : labels.set offset name = labels ++ [(offset, name)] := by
  induction labels with
  | nil => rfl
  | cons e labels ih =>
    obtain ⟨he, hlabels⟩ := List.forall_mem_cons.mp h
    have hlt : ¬ offset < e.1 := UInt32.not_lt.mpr (UInt32.le_of_lt he)
    have hne : offset ≠ e.1 := (UInt32.ne_of_lt he).symm
    rw [set, if_neg hlt, if_neg hne, ih hlabels, List.cons_append]

theorem nameAt?_eq_none {labels : Labels} {offset : UInt32} (h : ∀ e ∈ labels, e.1 < offset) :
    labels.nameAt? offset = none := by
  have hfind : List.find? (fun e => e.1 == offset) labels = none := by
    rw [List.find?_eq_none]
    intro e he
    simpa using UInt32.ne_of_lt (h e he)
  rw [nameAt?, hfind, Option.map_none]

theorem separate_moved {labels : Labels} (hnames : (labels.map Prod.snd).Nodup)
    {offsets addrs : List UInt32} (hlength : offsets.length = addrs.length)
    (hoffsets : offsets.Pairwise (· < ·)) (haddrs : addrs.Pairwise (· < ·)) :
    (labels.moved (offsets.zip addrs)).Separate := by
  have hfst : (offsets.zip addrs).Pairwise fun p q => p.1 < q.1 := by
    rw [← List.pairwise_map, List.map_fst_zip (Nat.le_of_eq hlength)]
    exact hoffsets
  have hsnd : (offsets.zip addrs).Pairwise fun p q => p.2 < q.2 := by
    rw [← List.pairwise_map, List.map_snd_zip (Nat.le_of_eq hlength.symm)]
    exact haddrs
  refine (hfst.and hsnd).filterMap _ ?_
  intro p q hpq e he f hf
  obtain ⟨name, hname, rfl⟩ := Option.map_eq_some_iff.mp he
  obtain ⟨name', hname', rfl⟩ := Option.map_eq_some_iff.mp hf
  refine ⟨hpq.2, ?_⟩
  intro hsame
  have hentry :=
    List.inj_on_of_nodup_map hnames (mem_of_nameAt? hname) (mem_of_nameAt? hname') hsame
  exact UInt32.ne_of_lt hpq.1 (Prod.mk.inj hentry).1

end Labels

def Placed.relaid (x : Placed) : Instruction := ⟨x.addr, x.size, x.inst.opcode, some x.inst.args⟩

def Function.relaid (fn : Function) (start : UInt32) (placed : List Placed) (stop : UInt32) :
    Function :=
  { fn with
    offset := start
    size := stop - start
    instructions := if placed.isEmpty then none else some (placed.map fun x => some x.relaid)
    labels := some (fn.labelMap.moved (fn.boundaryOffsets.zip (placed.map Placed.addr ++ [stop]))) }

namespace Listing

def State.outside (s : State) (addr : UInt32) : State := { s with addr, draft := none }

def State.inside (s : State) (addr : UInt32) (d : Draft) : State := { s with addr, draft := some d }

def Draft.opened (fn : Function) (start : UInt32) : Draft where
  offset := start
  params := fn.params
  flags := fn.flags
  name := fn.name

def Draft.withLabels (d : Draft) (labels : Labels) : Draft :=
  { d with labels, pending := [], aliases := [], bound := (labels.map Prod.swap).reverse }

def Draft.await (d : Draft) (names : List Bytes) : Draft := { d with pending := names }

def Draft.addCode (d : Draft) (placed : List Placed) : Draft :=
  { d with code := (placed.map Placed.relaid).reverse ++ d.code }

namespace Draft

variable {d : Draft} {bound : Labels} {addr : UInt32}

theorem bindName_withLabels {name : Bytes} (h : (bound ++ [(addr, name)]).Separate) :
    (d.withLabels bound).bindName addr name = .ok (d.withLabels (bound ++ [(addr, name)])) := by
  have hbefore : ∀ e ∈ bound, e.1 < addr ∧ e.2 ≠ name :=
    fun e he => (List.pairwise_append.mp h).2.2 e he _ (List.mem_singleton.mpr rfl)
  have hlow : ∀ e ∈ bound, e.1 < addr := fun e he => (hbefore e he).1
  have hnew : (d.withLabels bound).bound.find? (fun e => e.1 == name) = none := by
    rw [List.find?_eq_none]
    intro e he
    obtain ⟨l, hl, rfl⟩ := List.mem_map.mp (List.mem_reverse.mp he)
    simpa using (hbefore l hl).2
  have hfree : (d.withLabels bound).labels.nameAt? addr = none := Labels.nameAt?_eq_none hlow
  have hset : (d.withLabels bound).labels.set addr name = bound ++ [(addr, name)] :=
    Labels.set_of_forall_lt hlow name
  simp only [bindName, hnew, hfree, hset]
  simp [withLabels]

theorem bindPending_withLabels {labels : Labels} {offset : UInt32}
    (h : (bound ++ labels.moved [(offset, addr)]).Separate) :
    ((d.withLabels bound).await (labels.nameAt? offset).toList).bindPending addr =
      .ok (d.withLabels (bound ++ labels.moved [(offset, addr)])) := by
  cases hname : labels.nameAt? offset with
  | none =>
    have hmoved : labels.moved [(offset, addr)] = [] := by simp [Labels.moved, hname]
    rw [hmoved, List.append_nil]
    rfl
  | some name =>
    have hmoved : labels.moved [(offset, addr)] = [(addr, name)] := by
      simp [Labels.moved, hname]
    rw [hmoved] at h ⊢
    have hbind := bindName_withLabels (d := d) h
    simp only [bindPending, await, Option.toList_some, List.reverse_singleton, List.foldlM_cons,
      List.foldlM_nil]
    exact (bind_pure _).trans hbind

end Draft

end Listing

/-- An instruction that has a mnemonic and whose operands are tokens. -/
def Instruction.IsListed (inst : Instruction) : Prop :=
  (∃ kind, inst.opcode.kind? = some kind) ∧ ∀ a ∈ inst.args, Listing.IsToken a

/-- A function that can be printed so that each of its lines is read for what it is. -/
structure Function.IsListed (fn : Function) : Prop where
  name : ∀ b ∈ fn.name, Listing.isBlank b = false ∧ b ≠ 0x0A
  code : ∀ inst ∈ fn.code, inst.IsListed
  ascends : fn.boundaryOffsets.Pairwise (· < ·)
  labels : fn.labelMap.Ascends
  names : (fn.labelMap.map Prod.snd).Nodup
  declared : ∀ e ∈ fn.labelMap, Listing.IsLabelName e.2
  unused : fn.code = [] → fn.labelMap = []

section

variable {fn : Function} {start stop : UInt32} {placed : List Placed}

theorem Function.length_boundaryOffsets (hplaces : Layout.Places start fn.code placed stop) :
    fn.boundaryOffsets.length = (placed.map Placed.addr ++ [stop]).length := by
  rw [boundaryOffsets, ← hplaces.map_inst]
  simp

theorem Function.separate_relaid (hfn : fn.IsListed)
    (hplaces : Layout.Places start fn.code placed stop)
    (hascend : (placed.map Placed.addr ++ [stop]).Pairwise (· < ·)) :
    (fn.relaid start placed stop).labelMap.Separate :=
  Labels.separate_moved hfn.names (length_boundaryOffsets hplaces) hfn.ascends hascend

end

structure Module.IsListed (m : Module) : Prop where
  includes : ∀ path ∈ m.includeList, Listing.IsToken path
  functions : ∀ fn ∈ m.functionList, fn.IsListed

namespace Listing

theorem isToken_includeMark : IsToken includeMark := IsWord.isToken (by decide)

theorem isToken_header {fn : Function} (hfn : fn.IsListed) :
    ∀ t ∈ [subMark ++ fn.name, Text.decimal fn.params.toNat, Text.decimal fn.flags.toNat],
      IsToken t := by
  refine List.forall_mem_cons.mpr ⟨IsWord.isToken_append (by decide) hfn.name, ?_⟩
  exact List.forall_mem_cons.mpr ⟨(isWord_decimal _).isToken,
    List.forall_mem_singleton.mpr (isWord_decimal _).isToken⟩

section

variable {lead head : Bytes} {args : List Bytes} (hlead : ∀ b ∈ lead, isBlank b = true)
  (h : ∀ t ∈ head :: args, IsToken t) (s : State) (addr : UInt32)

include hlead h

theorem parseLine_outside :
    parseLine .builtIn (s.outside addr) (dropReturn (tokenLine lead head args)) =
      outerLine (s.outside addr) head (head :: args) := by
  simp only [parseLine, tokenize_tokenLine hlead h, State.outside]

theorem parseLine_inside (d : Draft) :
    parseLine .builtIn (s.inside addr d) (dropReturn (tokenLine lead head args)) =
      innerLine .builtIn (s.inside addr d) d head args := by
  simp only [parseLine, tokenize_tokenLine hlead h, State.inside]

end

theorem parseLine_empty (s : State) : parseLine .builtIn s (dropReturn []) = .ok s := by
  have htokens : tokenize (dropReturn []) = .ok [] := by decide +kernel
  rw [parseLine, htokens]

section

variable (s : State) (addr : UInt32) (d : Draft)

theorem parseLine_include {path : Bytes} (hpath : IsToken path) :
    parseLine .builtIn (s.outside addr) (dropReturn (tokenLine [] includeMark [path])) =
      .ok (State.outside { s with includes := path :: s.includes } addr) := by
  have htokens : ∀ t ∈ [includeMark, path], IsToken t :=
    List.forall_mem_cons.mpr ⟨isToken_includeMark, List.forall_mem_singleton.mpr hpath⟩
  rw [parseLine_outside (by simp) htokens]
  simp only [State.outside, outerLine, if_true]

theorem parseLine_header {fn : Function} (hfn : fn.IsListed) :
    parseLine .builtIn (s.outside addr) (dropReturn (headerLine fn)) =
      .ok (s.inside addr (.opened fn addr)) := by
  have hmark : subMark ++ fn.name ≠ includeMark := by
    intro h
    have hlead := afterLead_append subMark fn.name
    have hnone : Text.afterLead subMark includeMark = none := by decide
    rw [h, hnone] at hlead
    cases hlead
  have hread (n : UInt8) : Number.unsigned 10 8 (Text.decimal n.toNat) = .ok n.toNat :=
    Number.unsigned_decimal (by decide) (by decide) n.toNat_lt
  rw [headerLine, parseLine_outside (by simp) (isToken_header hfn)]
  simp only [State.outside, State.inside, outerLine, if_neg hmark, afterLead_append,
    beginFunction, hread, Except.mapError, bind, Except.bind, pure, Except.pure,
    UInt8.ofNat_toNat, Draft.opened]

theorem parseLine_label {name : Bytes} (hname : IsLabelName name) :
    parseLine .builtIn (s.inside addr d) (dropReturn (tokenLine [0x09] (name ++ [0x3A]) [])) =
      .ok (s.inside addr (d.addLabel name)) := by
  rw [parseLine_inside (by simp [isBlank]) (List.forall_mem_singleton.mpr hname.1)]
  simp only [innerLine, hname.2, beforeTrail_append, State.inside]

theorem parseLine_instruction {inst : Instruction} (hinst : inst.IsListed) :
    parseLine .builtIn (s.inside addr d)
        (dropReturn (tokenLine [0x09, 0x09] inst.opcode.display inst.args)) =
      addInstruction (s.inside addr d) d inst.opcode inst.args := by
  obtain ⟨⟨kind, hkind⟩, hargs⟩ := hinst
  obtain ⟨hword, hend, hlabel⟩ := isMnemonic_display hkind
  have hline (args : List Bytes) :
      instructionLine .builtIn (s.inside addr d) d inst.opcode.display args =
        addInstruction (s.inside addr d) d inst.opcode args := by
    rw [instructionLine, OpcodeTable.opcode_builtIn hkind]
  rw [parseLine_inside (by simp [isBlank]) (List.forall_mem_cons.mpr ⟨hword.isToken, hargs⟩)]
  cases inst.args with
  | nil => simp only [innerLine, hend, hlabel, hline]
  | cons a args => simp only [innerLine, hline]

theorem parseLine_end {name : Bytes} (hname : ∀ b ∈ name, isBlank b = false ∧ b ≠ 0x0A) :
    parseLine .builtIn (s.inside addr d) (dropReturn (tokenLine [] (endMark ++ name) [])) =
      endFunction (s.inside addr d) d name := by
  have htoken : IsToken (endMark ++ name) := IsWord.isToken_append (by decide) hname
  rw [parseLine_inside (by simp) (List.forall_mem_singleton.mpr htoken)]
  simp only [innerLine, afterLead_append]

end

section

variable (s : State) (d : Draft) {labels : Labels} (bound : Labels)
  (hlabels : ∀ e ∈ labels, IsLabelName e.2)

include hlabels

theorem readLines_label (addr offset : UInt32) :
    readLines (s.inside addr (d.withLabels bound)) (labelLines labels offset) =
      .ok (s.inside addr ((d.withLabels bound).await (labels.nameAt? offset).toList)) := by
  rw [labelLines]
  cases hname : labels.nameAt? offset with
  | none => rfl
  | some name =>
    have hline := parseLine_label s addr (d.withLabels bound)
      (hlabels _ (Labels.mem_of_nameAt? hname))
    rw [Option.toList_some, List.map_singleton, readLines_cons hline]
    rfl

theorem readLines_instruction {inst : Instruction} (hinst : inst.IsListed) {addr size : UInt32}
    (hsize : instructionSize inst.opcode addr inst.args = .ok size)
    (hbound : (bound ++ labels.moved [(inst.offset, addr)]).Separate) :
    readLines (s.inside addr (d.withLabels bound)) (instructionLines labels inst) =
      .ok (s.inside (addr + size) ((d.addCode [⟨inst, addr, size⟩]).withLabels
        (bound ++ labels.moved [(inst.offset, addr)]))) := by
  have hline : parseLine .builtIn _ _ = _ := parseLine_instruction s addr
    ((d.withLabels bound).await (labels.nameAt? inst.offset).toList) hinst
  have hbind := Draft.bindPending_withLabels (d := d) hbound
  rw [addInstruction] at hline
  simp only [State.inside, hsize, Except.mapError, bind, Except.bind, hbind] at hline
  rw [instructionLines, readLines_append (readLines_label s d bound hlabels addr inst.offset)]
  exact readLines_cons hline []

theorem readLines_code {start stop : UInt32} {code : List Instruction} {placed : List Placed}
    (hplaces : Layout.Places start code placed stop) (hcode : ∀ inst ∈ code, inst.IsListed)
    (hbound : (bound ++ labels.moved
      ((code.map Instruction.offset).zip (placed.map Placed.addr))).Separate) :
    readLines (s.inside start (d.withLabels bound)) (code.flatMap (instructionLines labels)) =
      .ok (s.inside stop ((d.addCode placed).withLabels
        (bound ++ labels.moved ((code.map Instruction.offset).zip (placed.map Placed.addr))))) := by
  induction hplaces generalizing d bound with
  | nil => simp [readLines, Labels.moved, Draft.addCode, pure, Except.pure]
  | @cons inst code addr size stop placed hsize _ ih =>
    obtain ⟨hinst, hcode⟩ := List.forall_mem_cons.mp hcode
    have hsplit : labels.moved (((inst :: code).map Instruction.offset).zip
        (List.map Placed.addr (⟨inst, addr, size⟩ :: placed))) =
        labels.moved [(inst.offset, addr)] ++
          labels.moved ((code.map Instruction.offset).zip (placed.map Placed.addr)) :=
      labels.moved_append [(inst.offset, addr)] _
    rw [hsplit, ← List.append_assoc] at hbound ⊢
    have hfirst := readLines_instruction s d bound hlabels hinst hsize
      (List.pairwise_append.mp hbound).1
    rw [List.flatMap_cons, readLines_append hfirst, ih _ _ hcode hbound]
    simp [Draft.addCode]

end

section

variable {fn : Function} (hfn : fn.IsListed) {start stop : UInt32} {placed : List Placed}

theorem boundaries_relaid (hplaces : Layout.Places start fn.code placed stop) :
    fn.boundaryOffsets.zip (placed.map Placed.addr ++ [stop]) =
      (fn.code.map Instruction.offset).zip (placed.map Placed.addr) ++ [(fn.stop, stop)] := by
  have hlength : (fn.code.map Instruction.offset).length = (placed.map Placed.addr).length := by
    rw [← hplaces.map_inst, List.map_map, List.length_map, List.length_map]
  rw [Function.boundaryOffsets, List.zip_append hlength]
  rfl

include hfn

theorem readLines_stop (s : State) (d : Draft) (bound : Labels) :
    readLines (s.inside stop (d.withLabels bound))
        (if fn.code.isEmpty then [] else labelLines fn.labelMap fn.stop) =
      .ok (s.inside stop ((d.withLabels bound).await (fn.labelMap.nameAt? fn.stop).toList)) := by
  by_cases hempty : fn.code = []
  · rw [hfn.unused hempty, hempty]
    rfl
  · rw [if_neg (by simpa using hempty)]
    exact readLines_label s d bound hfn.declared stop fn.stop

theorem readLines_end (s : State) {d : Draft} (hd : d.name = fn.name) {labels bound : Labels}
    {offset : UInt32} (hbound : (bound ++ labels.moved [(offset, stop)]).Separate) :
    readLines (s.inside stop ((d.withLabels bound).await (labels.nameAt? offset).toList))
        [tokenLine [] (endMark ++ fn.name) [], []] =
      .ok (State.outside { s with
        functions := (d.withLabels (bound ++ labels.moved [(offset, stop)])).close stop ::
          s.functions } stop) := by
  have hname : fn.name = ((d.withLabels bound).await (labels.nameAt? offset).toList).name := hd.symm
  have hend := parseLine_end s stop ((d.withLabels bound).await (labels.nameAt? offset).toList)
    hfn.name
  rw [endFunction, if_pos hname] at hend
  simp only [State.inside, Draft.bindPending_withLabels hbound, Except.map] at hend
  rw [State.inside, readLines_cons hend, readLines_cons (parseLine_empty _)]
  rfl

omit hfn in
theorem close_opened (hplaces : Layout.Places start fn.code placed stop) :
    (((Draft.opened fn start).addCode placed).withLabels
      (fn.labelMap.moved ((fn.code.map Instruction.offset).zip (placed.map Placed.addr)) ++
        fn.labelMap.moved [(fn.stop, stop)])).close stop = fn.relaid start placed stop := by
  rw [← Labels.moved_append, ← boundaries_relaid hplaces]
  cases placed with
  | nil => rfl
  | cons x placed =>
    simp [Draft.close, Draft.opened, Draft.withLabels, Draft.addCode, Function.relaid]

theorem readLines_function (hplaces : Layout.Places start fn.code placed stop)
    (hascend : (placed.map Placed.addr ++ [stop]).Pairwise (· < ·)) (s : State) :
    readLines (s.outside start) (functionLines fn) =
      .ok (State.outside { s with
        functions := fn.relaid start placed stop :: s.functions } stop) := by
  have hlabels := Function.separate_relaid hfn hplaces hascend
  change (fn.labelMap.moved _).Separate at hlabels
  rw [boundaries_relaid hplaces, Labels.moved_append] at hlabels
  have hcode := readLines_code s (.opened fn start) [] hfn.declared hplaces hfn.code
    (List.pairwise_append.mp hlabels).1
  have hbody := (readLines_append hcode _).trans (readLines_stop hfn s _ _)
  rw [functionLines, List.cons_append, readLines_cons (parseLine_header s start hfn), bodyLines]
  change readLines (s.inside start ((Draft.opened fn start).withLabels [])) _ = _
  rw [readLines_append hbody, List.nil_append, readLines_end hfn s rfl hlabels,
    close_opened hplaces]

end

section

variable {fn : Function} (hfn : fn.IsListed)

include hfn

theorem not_mem_labelLines (offset : UInt32) :
    ∀ line ∈ labelLines fn.labelMap offset, 0x0A ∉ line := by
  intro line hline
  obtain ⟨name, hname, rfl⟩ := List.mem_map.mp hline
  have hlabel := hfn.declared _ (Labels.mem_of_nameAt? (Option.mem_toList.mp hname))
  exact not_mem_tokenLine (by simp) (List.forall_mem_singleton.mpr hlabel.1)

theorem not_mem_bodyLines : ∀ line ∈ bodyLines fn, 0x0A ∉ line := by
  intro line hline
  rcases List.mem_append.mp hline with hline | hline
  · obtain ⟨inst, hinst, hline⟩ := List.mem_flatMap.mp hline
    rcases List.mem_append.mp hline with hline | hline
    · exact not_mem_labelLines hfn _ line hline
    · obtain ⟨⟨kind, hkind⟩, hargs⟩ := hfn.code inst hinst
      rw [List.mem_singleton.mp hline]
      refine not_mem_tokenLine (by simp) (List.forall_mem_cons.mpr ⟨?_, hargs⟩)
      exact (isMnemonic_display hkind).1.isToken
  · split at hline
    · cases hline
    · exact not_mem_labelLines hfn _ line hline

theorem not_mem_functionLines : ∀ line ∈ functionLines fn, 0x0A ∉ line := by
  intro line hline
  rw [functionLines, List.cons_append, List.mem_cons, List.mem_append, List.mem_pair] at hline
  rcases hline with rfl | hline | rfl | rfl
  · exact not_mem_tokenLine (by simp) (isToken_header hfn)
  · exact not_mem_bodyLines hfn line hline
  · refine not_mem_tokenLine (by simp) (List.forall_mem_singleton.mpr ?_)
    exact IsWord.isToken_append (by decide) hfn.name
  · simp

end

/-- Functions read one after the other, each from the address where the one before it stops. -/
inductive Relaid : UInt32 → List Function → List Function → UInt32 → Prop
  | nil (addr : UInt32) : Relaid addr [] [] addr
  | cons {start next stop : UInt32} {fn : Function} {fns gs : List Function}
    {placed : List Placed} (places : Layout.Places start fn.code placed next)
    (ascends : (placed.map Placed.addr ++ [next]).Pairwise (· < ·))
    (rest : Relaid next fns gs stop) :
    Relaid start (fn :: fns) (fn.relaid start placed next :: gs) stop

theorem readLines_functions {start stop : UInt32} {fns gs : List Function}
    (h : Relaid start fns gs stop) (hfns : ∀ fn ∈ fns, fn.IsListed) (s : State) :
    readLines (s.outside start) (fns.flatMap functionLines) =
      .ok (State.outside { s with functions := gs.reverse ++ s.functions } stop) := by
  induction h generalizing s with
  | nil => rfl
  | cons places ascends _ ih =>
    obtain ⟨hfn, hfns⟩ := List.forall_mem_cons.mp hfns
    rw [List.flatMap_cons, readLines_append (readLines_function hfn places ascends s), ih hfns]
    simp

theorem readLines_includes {paths : List Bytes} (h : ∀ path ∈ paths, IsToken path) (s : State)
    (addr : UInt32) :
    readLines (s.outside addr) (paths.map fun path => tokenLine [] includeMark [path]) =
      .ok (State.outside { s with includes := paths.reverse ++ s.includes } addr) := by
  induction paths generalizing s with
  | nil => rfl
  | cons path paths ih =>
    obtain ⟨hpath, hpaths⟩ := List.forall_mem_cons.mp h
    rw [List.map_cons, readLines_cons (parseLine_include s addr hpath), ih hpaths]
    simp

section

variable {m : Module} (hm : m.IsListed) {gs : List Function} {stop : UInt32}

include hm

theorem readLines_module (h : Relaid 0 m.functionList gs stop) :
    readLines {} (moduleLines m) = .ok ⟨m.includeList.reverse, gs.reverse, stop, none⟩ := by
  have hbanner : readLines {} defaultBanner = .ok (State.outside {} 0) := by
    have htokens : tokenize (dropReturn (text "// T6 GSC ASSEMBLY")) = .ok [] := by decide +kernel
    rw [defaultBanner, readLines_cons (by rw [parseLine, htokens])]
    rfl
  have hincludes := readLines_includes hm.includes {} 0
  have hempty (t : State) : readLines t [[]] = .ok t := readLines_cons (parseLine_empty t) []
  rw [moduleLines, List.append_assoc, List.append_assoc, readLines_append hbanner,
    readLines_append hincludes, readLines_append (hempty _), readLines_functions h hm.functions]
  simp [State.outside]

theorem not_mem_moduleLines : ∀ line ∈ moduleLines m, 0x0A ∉ line := by
  intro line hline
  simp only [moduleLines, List.mem_append, List.mem_map, List.mem_singleton,
    List.mem_flatMap] at hline
  rcases hline with ((hline | ⟨path, hpath, rfl⟩) | rfl) | ⟨fn, hfn, hline⟩
  · have hall : ∀ line ∈ defaultBanner, 0x0A ∉ line := by decide
    exact hall line hline
  · refine not_mem_tokenLine (by simp) (List.forall_mem_cons.mpr ⟨isToken_includeMark, ?_⟩)
    exact List.forall_mem_singleton.mpr (hm.includes path hpath)
  · simp
  · exact not_mem_functionLines (hm.functions fn hfn) line hline

theorem parse_unlines (h : Relaid 0 m.functionList gs stop)
    (hlimit : ∀ line ∈ lines (unlines (moduleLines m)), line.length + 1 ≤ lineLimit) :
    parse .builtIn (unlines (moduleLines m)) =
      .ok (State.module ⟨m.includeList.reverse, gs.reverse, stop, none⟩) := by
  rw [lines_unlines (not_mem_moduleLines hm)] at hlimit
  rw [parse, lines_unlines (not_mem_moduleLines hm)]
  exact parseLines_of_readLines (readLines_module hm h) hlimit rfl 0

end

end Listing
end ScriptCodec
