import AgbTools.ThumbLoads

/-! Whether the offsets of accepted addresses fit the instructions that the load and store patterns
print for them. -/
namespace AgbTools
namespace Thumb
namespace Loads

section Model

/-- A load by a move pattern, `op %0, %1`. -/
def moveLoad (o : Opcode) (r : ℕ) (x : Address) : List Token :=
  outputAsmInsn [.tok (.op o),.arg 0,.tok .comma,.arg 1] [.reg r,.mem x]

/-- A store by a move pattern, `op %1, %0`. -/
def moveStore (o : Opcode) (r : ℕ) (x : Address) : List Token :=
  outputAsmInsn [.tok (.op o),.arg 1,.tok .comma,.arg 0] [.mem x,.reg r]

/-- The store of `*movdi_insn` and `*movdf_insn`. -/
def doubleStore (r : ℕ) (x : Address) : Option (List Token) :=
  (plusConstant x 4).map (fun y =>
    outputAsmInsn [.tok (.op .str),.arg 1,.tok .comma,.arg 0,.tok .newline,
      .tok (.op .str),.high 1,.tok .comma,.arg 2] [.mem x,.reg r,.mem y])

/-- The texts of the patterns that access memory in a mode of a size: `*movqi_insn` and
`*extendqisi2_insn`, `*movhi_insn` and `*extendhisi2_insn`, `*movsi_insn` and `*movsf_insn`,
`*movdi_insn` and `*movdf_insn`. -/
def accessTexts (ph : Phase) (size r t : ℕ) (x : Address) : List (Option (List Token)) :=
  match size with
  | 1 => [some (moveLoad .ldrb r x),some (moveStore .strb r x),some (extendqisi2Insn ph r x)]
  | 2 => [some (moveLoad .ldrh r x),some (moveStore .strh r x),some (extendhisi2Insn r t x)]
  | 4 => [some (moveLoad .ldr r x),some (moveStore .str r x)]
  | 8 => [thumbLoadDoubleFromAddress r x,doubleStore r x]
  | _ => []

end Model

section Encoding

/-- A low register, or one that has still to become one. -/
def LowBase (b : ℕ) : Prop := b < 8 ∨ b = argPointer ∨ firstPseudo ≤ b

/-- The offsets an instruction holds. -/
def HoldsOffset (w : Width) (b : ℕ) (k : Word) : Prop :=
  match w with
  | .byte => LowBase b ∧ k.toNat ≤ 31
  | .half => LowBase b ∧ k.toNat ≤ 62 ∧ k.toNat%2 = 0
  | .word => (LowBase b ∧ k.toNat ≤ 124 ∨ b = stackPointer ∧ k.toNat ≤ 1020) ∧ k.toNat%4 = 0

def Instr.Encodable : Instr → Prop
  | .load w false _ (.offset b k) | .store w _ (.offset b k) => HoldsOffset w b k
  | .load _ true _ (.offset _ _) => False
  | .movImm _ k => k.toNat ≤ 255
  | _ => True

/-- The text is code whose instructions all have an encoding. -/
def Encoded (text : Option (List Token)) : Prop :=
  ∃ ts code, text = some ts ∧ read ts = some code ∧ ∀ i ∈ code, i.Encodable

theorem encoded_iff {text : Option (List Token)} {ts : List Token} {code : List Instr}
    (htext : text = some ts) (hread : read ts = some code) :
    Encoded text ↔ ∀ i ∈ code, i.Encodable := by
  constructor
  · rintro ⟨ts',code',htext',hread',hall⟩
    obtain rfl := Option.some.inj (htext.symm.trans htext')
    obtain rfl := Option.some.inj (hread.symm.trans hread')
    exact hall
  · intro hall
    exact ⟨ts,code,htext,hread,hall⟩

end Encoding

section Offsets

variable {ph : Phase} {size b r t : ℕ} {k : Word}

theorem and_three (k : Word) : k &&& 3 = 0 ↔ k.toNat%4 = 0 := by
  have hnat : (k &&& 3).toNat = k.toNat%4 := by
    rw [BitVec.toNat_and]
    exact Nat.and_two_pow_sub_one_eq_mod k.toNat 2
  rw [← hnat]
  constructor
  · intro h
    rw [h]
    rfl
  · intro h
    exact BitVec.eq_of_toNat_eq h

theorem and_one (k : Word) : k &&& 1 = 0 ↔ k.toNat%2 = 0 := by
  have hnat : (k &&& 1).toNat = k.toNat%2 := by
    rw [BitVec.toNat_and]
    exact Nat.and_two_pow_sub_one_eq_mod k.toNat 1
  rw [← hnat]
  constructor
  · intro h
    rw [h]
    rfl
  · intro h
    exact BitVec.eq_of_toNat_eq h

theorem lowBase_ne_stackPointer (h : LowBase b) : b ≠ stackPointer := by
  rintro rfl
  unfold LowBase at h
  revert h
  decide

/-- The offsets accepted for words and double words off a low register. Near the end of the positive
numbers the sum with the size has wrapped around. -/
theorem wide_offset (hsize : size = 4 ∨ size = 8) (h : legitimateOffset size k = true) :
    k.toNat < 2^31 ∧ k.toNat%4 = 0 ∧ (k.toNat+size ≤ 128 ∨ 2^31 ≤ k.toNat+size) := by
  have hne : size ≠ 1 := by omega
  have hne' : size ≠ 2 := by omega
  rw [legitimateOffset,if_neg hne,if_neg hne',decide_eq_true_eq,and_three] at h
  obtain ⟨hpos,hsum,hmod⟩ := h
  have hlt := k.isLt
  rw [BitVec.toInt_eq_toNat_cond] at hpos hsum
  rw [BitVec.toNat_add,BitVec.toNat_ofNat] at hsum
  refine ⟨?_,hmod,?_⟩
  · split at hpos <;> omega
  · split at hpos <;> split at hsum <;> omega

theorem narrow_offsets (h : legitimate ph size (.plus (.reg b) (.int k)) = true) (hsize : size < 4) :
    LowBase b ∧ legitimateOffset size k = true := by
  obtain hlow | ⟨-,hwide,-⟩ := legitimate_offset h
  · exact hlow
  · omega

/-- What acceptance says of a word and a double word. -/
theorem wide_offsets (h : legitimate ph size (.plus (.reg b) (.int k)) = true)
    (hsize : size = 4 ∨ size = 8) :
    k.toNat%4 = 0 ∧ (LowBase b ∧ k.toNat < 2^31 ∧ (k.toNat+size ≤ 128 ∨ 2^31 ≤ k.toNat+size) ∨
      b = stackPointer ∧ k.toNat < 1024) := by
  obtain ⟨hlow,hoff⟩ | ⟨hstack,-,hlt,hmod⟩ := legitimate_offset h
  · obtain ⟨hpos,hmod,hsum⟩ := wide_offset hsize hoff
    exact ⟨hmod,.inl ⟨hlow,hpos,hsum⟩⟩
  · exact ⟨(and_three k).mp hmod,.inr ⟨hstack,hlt⟩⟩

end Offsets

section Codes

variable {ph : Phase} {b r t : ℕ} {k : Word}

/-- A move's one instruction. -/
theorem read_move {o : Opcode} {i : Instr}
    (hline : readLine [.op o,.reg r,.comma,.opening,.reg b,.comma,.imm k,.closing] = some [i]) :
    read (moveLoad o r (.plus (.reg b) (.int k))) = some [i] ∧
      read (moveStore o r (.plus (.reg b) (.int k))) = some [i] := by
  have hone := read_one (by simp) hline
  exact ⟨hone,hone⟩

theorem plusConstant_offset (hk : k+4 ≠ 0) :
    plusConstant (.plus (.reg b) (.int k)) 4 = some (.plus (.reg b) (.int (k+4))) := by
  have hplus : plusConstant (.plus (.reg b) (.int k)) 4 =
    some (if k+4 = 0 then .reg b else .plus (.reg b) (.int (k+4))) := rfl
  rw [hplus,if_neg hk]

/-- Both orders of the double-word load access the same two words. -/
theorem doubleLoad_encoded (hk : k+4 ≠ 0) :
    Encoded (thumbLoadDoubleFromAddress r (.plus (.reg b) (.int k))) ↔
      HoldsOffset .word b k ∧ HoldsOffset .word b (k+4) := by
  have hcase : thumbLoadDoubleFromAddress r (.plus (.reg b) (.int k)) =
      if r = b then highFirst r (.plus (.reg b) (.int k)) else lowFirst r (.plus (.reg b) (.int k)) := rfl
  have hread : ∀ a c : ℕ, ∀ j l : Word,
      read ((loadLine a (.plus (.reg b) (.int j))++[.newline])++
        (loadLine c (.plus (.reg b) (.int l))++[.newline])) =
        some [.load .word false a (.offset b j),.load .word false c (.offset b l)] := by
    intro a c j l
    rw [List.append_assoc,List.singleton_append]
    exact read_two (newline_notMem_loadLine _ _) (newline_notMem_loadLine _ _) rfl rfl
  rw [hcase]
  split
  · have htext : highFirst r (.plus (.reg b) (.int k)) =
        some ((loadLine (r+1) (.plus (.reg b) (.int (k+4)))++[.newline])++
          (loadLine r (.plus (.reg b) (.int k))++[.newline])) := by
      rw [highFirst,plusConstant_offset hk,Option.map_some,outputAsmInsn_loadLow,outputAsmInsn_loadHigh]
    rw [encoded_iff htext (hread ..)]
    simp [Instr.Encodable,and_comm]
  · have htext : lowFirst r (.plus (.reg b) (.int k)) =
        some ((loadLine r (.plus (.reg b) (.int k))++[.newline])++
          (loadLine (r+1) (.plus (.reg b) (.int (k+4)))++[.newline])) := by
      rw [lowFirst,plusConstant_offset hk,Option.map_some,outputAsmInsn_loadLow,outputAsmInsn_loadHigh]
    rw [encoded_iff htext (hread ..)]
    simp [Instr.Encodable]

/-- A line of the double-word store. -/
def storeLine (r b : ℕ) (k : Word) : List Token :=
  [.op .str,.reg r,.comma,.opening,.reg b,.comma,.imm k,.closing]

theorem doubleStore_encoded (hk : k+4 ≠ 0) :
    Encoded (doubleStore r (.plus (.reg b) (.int k))) ↔
      HoldsOffset .word b k ∧ HoldsOffset .word b (k+4) := by
  have htext : doubleStore r (.plus (.reg b) (.int k)) =
      some (storeLine r b k++Token.newline::(storeLine (r+1) b (k+4)++[Token.newline])) := by
    rw [doubleStore,plusConstant_offset hk]
    rfl
  have hread : read (storeLine r b k++Token.newline::(storeLine (r+1) b (k+4)++[Token.newline])) =
      some [.store .word r (.offset b k),.store .word (r+1) (.offset b (k+4))] :=
    read_two (by simp [storeLine]) (by simp [storeLine]) rfl rfl
  rw [encoded_iff htext hread]
  simp [Instr.Encodable]

theorem byte_encoded (h : legitimate ph 1 (.plus (.reg b) (.int k)) = true) :
    ∀ text ∈ accessTexts ph 1 r t (.plus (.reg b) (.int k)), Encoded text := by
  obtain ⟨hlow,hoff⟩ := narrow_offsets h (by decide)
  have hk : k.toNat < 32 := of_decide_eq_true hoff
  have hholds : HoldsOffset .byte b k := ⟨hlow,by omega⟩
  have hoffset : ¬offsettable ph 1 (.plus (.reg b) (.int k)) = false := by simp [offsettable_byte h]
  intro text htext
  simp only [accessTexts,List.mem_cons,List.not_mem_nil,or_false] at htext
  obtain rfl | rfl | rfl := htext
  · rw [encoded_iff rfl (read_move rfl).1]
    simpa [Instr.Encodable] using hholds
  · rw [encoded_iff rfl (read_move rfl).2]
    simpa [Instr.Encodable] using hholds
  · unfold extendqisi2Insn
    rw [if_neg hoffset]
    by_cases hb : b = r
    · simp only [if_pos hb]
      refine (encoded_iff rfl (read_shift b k)).mpr ?_
      simpa [Instr.Encodable] using hholds
    · simp only [if_neg hb]
      refine (encoded_iff rfl (read_offset b k (.inr ⟨rfl,rfl⟩))).mpr ?_
      have : k.toNat ≤ 255 := by omega
      simpa [Instr.Encodable] using this

theorem half_encoded (h : legitimate ph 2 (.plus (.reg b) (.int k)) = true) :
    ∀ text ∈ accessTexts ph 2 r t (.plus (.reg b) (.int k)), Encoded text := by
  obtain ⟨hlow,hoff⟩ := narrow_offsets h (by decide)
  have hk : k.toNat < 64 ∧ k &&& 1 = 0 := of_decide_eq_true hoff
  have heven : k.toNat%2 = 0 := (and_one k).mp hk.2
  have hholds : HoldsOffset .half b k := ⟨hlow,by omega,heven⟩
  intro text htext
  simp only [accessTexts,List.mem_cons,List.not_mem_nil,or_false] at htext
  obtain rfl | rfl | rfl := htext
  · rw [encoded_iff rfl (read_move rfl).1]
    simpa [Instr.Encodable] using hholds
  · rw [encoded_iff rfl (read_move rfl).2]
    simpa [Instr.Encodable] using hholds
  · refine (encoded_iff rfl (read_offset b k (.inl ⟨rfl,rfl⟩))).mpr ?_
    have : k.toNat ≤ 255 := by omega
    simpa [Instr.Encodable] using this

theorem word_encoded_iff :
    (∀ text ∈ accessTexts ph 4 r t (.plus (.reg b) (.int k)), Encoded text) ↔ HoldsOffset .word b k := by
  simp only [accessTexts,List.forall_mem_cons,List.not_mem_nil,false_imp_iff,implies_true,and_true]
  rw [encoded_iff rfl (read_move rfl).1,encoded_iff rfl (read_move rfl).2]
  simp [Instr.Encodable]

theorem double_encoded_iff (hk : k+4 ≠ 0) :
    (∀ text ∈ accessTexts ph 8 r t (.plus (.reg b) (.int k)), Encoded text) ↔
      HoldsOffset .word b k ∧ HoldsOffset .word b (k+4) := by
  simp only [accessTexts,List.forall_mem_cons,List.not_mem_nil,false_imp_iff,implies_true,and_true]
  rw [doubleLoad_encoded hk,doubleStore_encoded hk,and_self]

end Codes

section Results

variable {ph : Phase} {b r t : ℕ} {k : Word}

/-- The offset and the size stay within `int`, and the offset of a double word on the stack leaves
room for its second word. -/
def Fits (size b : ℕ) (k : Word) : Prop :=
  k.toInt+size < 2^31 ∧ ¬(size = 8 ∧ b = stackPointer ∧ k = 1020)

theorem toInt_of_lt (h : k.toNat < 2^31) : k.toInt = k.toNat := by
  rw [BitVec.toInt_eq_toNat_cond,if_pos (by omega)]

theorem word_fits (h : legitimate ph 4 (.plus (.reg b) (.int k)) = true) :
    HoldsOffset .word b k ↔ Fits 4 b k := by
  obtain ⟨hmod,⟨hlow,hpos,hsum⟩ | ⟨rfl,hlt⟩⟩ := wide_offsets h (.inl rfl)
  · have hne := lowBase_ne_stackPointer hlow
    rw [Fits,toInt_of_lt hpos]
    constructor
    · rintro ⟨⟨-,hk⟩ | ⟨hstack,-⟩,-⟩
      · exact ⟨by omega,by omega⟩
      · exact absurd hstack hne
    · rintro ⟨hfit,-⟩
      exact ⟨.inl ⟨hlow,by omega⟩,hmod⟩
  · rw [Fits,toInt_of_lt (by omega)]
    constructor
    · intro hholds
      exact ⟨by omega,by omega⟩
    · intro hfit
      exact ⟨.inr ⟨rfl,by omega⟩,hmod⟩

theorem double_fits (h : legitimate ph 8 (.plus (.reg b) (.int k)) = true) :
    HoldsOffset .word b k ∧ HoldsOffset .word b (k+4) ↔ Fits 8 b k := by
  have hlast : k = 1020 ↔ k.toNat = 1020 := BitVec.toNat_eq
  have hnext : k.toNat < 2^31 → (k+4).toNat = k.toNat+4 := by
    intro hlt
    have hfour : (4 : Word).toNat = 4 := rfl
    rw [BitVec.toNat_add,hfour]
    omega
  obtain ⟨hmod,⟨hlow,hpos,hsum⟩ | ⟨rfl,hlt⟩⟩ := wide_offsets h (.inr rfl)
  · have hne := lowBase_ne_stackPointer hlow
    rw [Fits,toInt_of_lt hpos,HoldsOffset,HoldsOffset,hnext hpos]
    constructor
    · rintro ⟨⟨⟨-,hk⟩ | ⟨hstack,-⟩,-⟩,-⟩
      · exact ⟨by omega,fun hbad => hne hbad.2.1⟩
      · exact absurd hstack hne
    · rintro ⟨hfit,-⟩
      exact ⟨⟨.inl ⟨hlow,by omega⟩,hmod⟩,.inl ⟨hlow,by omega⟩,by omega⟩
  · rw [Fits,toInt_of_lt (by omega),HoldsOffset,HoldsOffset,hnext (by omega),hlast]
    have hnlow : ¬LowBase stackPointer := fun hlow => lowBase_ne_stackPointer hlow rfl
    constructor
    · rintro ⟨-,⟨hlow,-⟩ | ⟨-,hk⟩,-⟩
      · exact absurd hlow hnlow
      · exact ⟨by omega,by omega⟩
    · rintro ⟨-,hbad⟩
      have hk : k.toNat ≠ 1020 := fun hk => hbad ⟨rfl,rfl,hk⟩
      exact ⟨⟨.inr ⟨rfl,by omega⟩,hmod⟩,.inr ⟨rfl,by omega⟩,by omega⟩

theorem add_four_ne_zero {size : ℕ} (h : legitimate ph size (.plus (.reg b) (.int k)) = true)
    (hsize : size = 4 ∨ size = 8) : k+4 ≠ 0 := by
  have hlt : k.toNat < 2^31 := by
    obtain ⟨-,⟨-,hpos,-⟩ | ⟨-,hlt⟩⟩ := wide_offsets h hsize
    · exact hpos
    · omega
  intro hzero
  have hnat := congrArg BitVec.toNat hzero
  have hfour : (4 : Word).toNat = 4 := rfl
  have hnone : (0 : Word).toNat = 0 := rfl
  rw [BitVec.toNat_add,hfour,hnone] at hnat
  omega

/-- Of an accepted register with an offset, everything the patterns print has an encoding exactly when
the offset fits. -/
theorem accepted_encodable (ph : Phase) (size b r t : ℕ) (k : Word)
    (hsize : size = 1 ∨ size = 2 ∨ size = 4 ∨ size = 8)
    (h : legitimate ph size (.plus (.reg b) (.int k)) = true) :
    (∀ text ∈ accessTexts ph size r t (.plus (.reg b) (.int k)), Encoded text) ↔ Fits size b k := by
  obtain rfl | rfl | rfl | rfl := hsize
  · have hk : k.toNat < 32 := of_decide_eq_true (narrow_offsets h (by decide)).2
    have hfits : Fits 1 b k := by
      rw [Fits,toInt_of_lt (by omega)]
      exact ⟨by omega,by omega⟩
    exact iff_of_true (byte_encoded h) hfits
  · have hk : k.toNat < 64 ∧ k &&& 1 = 0 := of_decide_eq_true (narrow_offsets h (by decide)).2
    have hfits : Fits 2 b k := by
      rw [Fits,toInt_of_lt (by omega)]
      exact ⟨by omega,by omega⟩
    exact iff_of_true (half_encoded h) hfits
  · exact word_encoded_iff.trans (word_fits h)
  · exact (double_encoded_iff (add_four_ne_zero h (.inr rfl))).trans (double_fits h)

/-- The last offset of a double word off a low register, and on the stack. -/
theorem accepted_encodable_last :
    (∀ text ∈ accessTexts output 8 0 1 (.plus (.reg 7) (.int 120)), Encoded text) ∧
      ∀ text ∈ accessTexts output 8 0 1 (.plus (.reg 13) (.int 1016)), Encoded text :=
  ⟨(accepted_encodable output 8 7 0 1 120 (by decide) (by decide)).mpr ⟨by decide,by decide⟩,
    (accepted_encodable output 8 13 0 1 1016 (by decide) (by decide)).mpr ⟨by decide,by decide⟩⟩

/-- A double word at the end of the stack pointer's range is accepted; its second word is out of
reach. -/
theorem stack_double_out_of_reach :
    legitimate output 8 (.plus (.reg stackPointer) (.int 1020)) = true ∧
      ¬Encoded (thumbLoadDoubleFromAddress 0 (.plus (.reg stackPointer) (.int 1020))) ∧
      ¬Encoded (doubleStore 0 (.plus (.reg stackPointer) (.int 1020))) := by
  have hfar : ¬(HoldsOffset .word stackPointer 1020 ∧ HoldsOffset .word stackPointer (1020+4)) := by
    rintro ⟨-,⟨hlow,-⟩ | ⟨-,hk⟩,-⟩
    · exact lowBase_ne_stackPointer hlow rfl
    · revert hk
      decide
  refine ⟨by decide,?_,?_⟩
  · rwa [doubleLoad_encoded (by decide)]
  · rwa [doubleStore_encoded (by decide)]

end Results

end Loads
end Thumb
end AgbTools
