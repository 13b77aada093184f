import ScriptCodec.Proofs.Listing.Lines

/-!
Quoted literals among the operands of a line. A literal has no control bytes, so it does not end
its line, and it is scanned as one token wherever it stands. The bytes it was written for are then
read back from it, whatever they are.
-/
namespace ScriptCodec.Listing

theorem visible_quoteGlyph {g : Utf8.Glyph} (hg : g.IsValid) {b : UInt8}
    (hb : b ∈ Text.quoteGlyph g) : 0x20 ≤ b ∧ b ≠ 0x7F := by
  rcases Text.quoteGlyph_cases g with ⟨code, rfl, hprint, -, heq⟩ | ⟨c, rest, heq, hc, hrest⟩
  · have hcode : 0x20 ≤ code ∧ code ≠ 0x7F := by
      constructor
      · exact Text.le_of_isPrintable hprint
      · rintro rfl
        exact absurd hprint (by decide +kernel)
    have hvisible : 0x20 ≤ b.toNat ∧ b.toNat ≠ 0x7F := by
      rw [heq] at hb
      rcases mem_encode hg hb with h | h
      · rwa [h]
      · omega
    refine ⟨UInt8.le_iff_toNat_le.mpr hvisible.1, ?_⟩
    rintro rfl
    exact hvisible.2 rfl
  · rw [heq, List.mem_cons, List.mem_cons] at hb
    rcases hb with rfl | rfl | hb
    · decide
    · exact ⟨UInt8.le_trans (by decide) hc.1, UInt8.ne_of_lt hc.2⟩
    · rcases hrest with rfl | ⟨width, n, rfl⟩
      · cases hb
      · have hword := isWordByte_lowerHex hb
        exact ⟨UInt8.le_trans (by decide) hword.1, hword.ne (by decide)⟩

/-- A literal has no control bytes, whatever it stands for. -/
theorem visible_quote {s : Bytes} {b : UInt8} (hb : b ∈ Text.quote s) : 0x20 ≤ b ∧ b ≠ 0x7F := by
  rw [Text.quote, List.mem_cons, List.mem_append, List.mem_flatMap, List.mem_singleton] at hb
  rcases hb with rfl | ⟨g, hg, hb⟩ | rfl
  · decide
  · exact visible_quoteGlyph (Utf8.isValid_of_mem_glyphs hg) hb
  · decide

theorem not_mem_quote {b : UInt8} (hb : b < 0x20) (s : Bytes) : b ∉ Text.quote s :=
  fun hmem => UInt8.not_lt.mpr (visible_quote hmem).1 hb

theorem quoted_append_cons (pre : List Bytes) (s : Bytes) (post : List Bytes) :
    Operand.quoted (pre ++ Text.quote s :: post) pre.length = .ok s := by
  rw [Operand.quoted, List.getElem?_append_right (Nat.le_refl _), Nat.sub_self,
    List.getElem?_cons_zero]
  simp only [Text.unquote_quote]

/-- A literal among tokens is found again in the line that is written for them, and stands for the
bytes it was made from. -/
theorem tokenize_instruction_quote (s : Bytes) {mnemonic : Bytes} {pre post : List Bytes}
    (hmnemonic : tokenize mnemonic = .ok [mnemonic] ∨
      ∃ op, OpcodeTable.builtIn.name op = .ok mnemonic)
    (hpre : ∀ a ∈ pre, tokenize a = .ok [a]) (hpost : ∀ a ∈ post, tokenize a = .ok [a]) :
    0x0A ∉ Text.quote s ∧ 0x0D ∉ Text.quote s ∧
      ∃ line, instructionText mnemonic (pre ++ Text.quote s :: post) = line ++ [0x0A] ∧
        tokenize line = .ok (mnemonic :: (pre ++ Text.quote s :: post)) ∧
        Operand.quoted (pre ++ Text.quote s :: post) pre.length = .ok s := by
  have hhead : TokenShape mnemonic := by
    rcases hmnemonic with h | ⟨op, h⟩
    · exact .of_tokenize h
    · exact (isMnemonic_of_name h).1.isToken.shape
  have hshape : ∀ t ∈ mnemonic :: (pre ++ Text.quote s :: post), TokenShape t := by
    refine List.forall_mem_cons.mpr ⟨hhead, List.forall_mem_append.mpr ⟨?_, ?_⟩⟩
    · exact fun a ha => .of_tokenize (hpre a ha)
    · exact List.forall_mem_cons.mpr
        ⟨(isToken_quote s).shape, fun a ha => .of_tokenize (hpost a ha)⟩
  refine ⟨not_mem_quote (by decide) s, not_mem_quote (by decide) s, ?_⟩
  refine ⟨tokenLine [0x09, 0x09] mnemonic (pre ++ Text.quote s :: post), rfl, ?_, ?_⟩
  · exact tokenize_of_shapes (by simp [isBlank]) hshape
  · exact quoted_append_cons pre s post

def awkwardBytes : Bytes := text "// a \"b" ++ [0x0A, 0xFF, 0x5C]

theorem tokenize_instruction_quote_animation :
    OpcodeTable.builtIn.name 19 = .ok (text "GET_ANIMATION") ∧
      tokenize (text "generic_human") = .ok [text "generic_human"] ∧
      tokenize (text "\"x y\"") = .ok [text "\"x y\""] ∧
      ∃ line, instructionText (text "GET_ANIMATION")
          [text "generic_human", Text.quote awkwardBytes, text "\"x y\""] = line ++ [0x0A] ∧
        tokenize line = .ok [text "GET_ANIMATION", text "generic_human", Text.quote awkwardBytes,
          text "\"x y\""] ∧
        Operand.quoted [text "generic_human", Text.quote awkwardBytes, text "\"x y\""] 1 =
          .ok awkwardBytes := by
  have hname : OpcodeTable.builtIn.name 19 = .ok (text "GET_ANIMATION") := by decide +kernel
  have htree : tokenize (text "generic_human") = .ok [text "generic_human"] := by decide +kernel
  have hlast : tokenize (text "\"x y\"") = .ok [text "\"x y\""] := by decide +kernel
  have hpre : ∀ a ∈ [text "generic_human"], tokenize a = .ok [a] :=
    List.forall_mem_singleton.mpr htree
  have hpost : ∀ a ∈ [text "\"x y\""], tokenize a = .ok [a] := List.forall_mem_singleton.mpr hlast
  have hline := tokenize_instruction_quote awkwardBytes (Or.inr ⟨19, hname⟩) hpre hpost
  exact ⟨hname, htree, hlast, hline.2.2⟩

end ScriptCodec.Listing
