import AgbTools.RfuTransfer

/-! The receiving side of a reliable NI transfer: what a receiving slot holds after so many messages
of each channel, and that it takes each message once and at its own place. -/
namespace AgbTools
namespace Rfu

open Framing StopAndWait

section Memory
variable {T : Transfer} {base : ℕ} {mem₀ mem : ℕ → Byte} {got : Channel → ℕ}

/-- The blocks that were taken are in place, everything else is as it was. -/
def Holds (T : Transfer) (base : ℕ) (mem₀ mem : ℕ → Byte) (got : Channel → ℕ) : Prop :=
  ∀ a, mem a =
    if base ≤ a ∧ a < base + T.size ∧
        (a-base)/T.payload/4 < got (.data (Fin.ofNat 4 ((a-base)/T.payload))) then
      T.mem (T.src + (a-base))
    else mem₀ a

theorem Holds.initial (hgot : ∀ k, got (.data k) = 0) : Holds T base mem₀ mem₀ got := by
  intro a
  rw [if_neg]
  rintro ⟨-,-,hlt⟩
  rw [hgot] at hlt
  exact Nat.not_lt_zero _ hlt

/-- The address of a byte says which block it is of. -/
theorem block_index {n o : ℕ} (hlow : n*T.payload ≤ o) (hhigh : o < n*T.payload + T.payload) :
    o/T.payload = n := by
  apply Nat.div_eq_of_lt_le hlow
  rw [Nat.succ_mul]
  exact hhigh

/-- Storing the next block of a phase. -/
theorem Holds.write (h : Holds T base mem₀ mem got) {k : Fin 4} {i : ℕ} (hi : got (.data k) = i) :
    Holds T base mem₀
      (CellMemory.write mem (base + (4*i + k)*T.payload) (T.block T.data (4*i + k)))
      (Function.update got (.data k) (i+1)) := by
  have hk := k.isLt
  have hlen : (T.block T.data (4*i + k)).length = min T.payload (T.size - (4*i + k)*T.payload) := by
    rw [T.length_block,T.length_data]
  intro a
  by_cases hin : base + (4*i + k)*T.payload ≤ a ∧
      a < base + (4*i + k)*T.payload + (T.block T.data (4*i + k)).length
  · obtain ⟨o,rfl⟩ := Nat.exists_eq_add_of_le hin.1
    have ho : o < (T.block T.data (4*i + k)).length := by omega
    have hdata : o < T.payload ∧ (4*i + k)*T.payload + o < T.size := by
      rw [hlen] at ho
      omega
    have hsub : base + (4*i + k)*T.payload + o - base = (4*i + k)*T.payload + o := by omega
    have hindex : ((4*i + k)*T.payload + o)/T.payload = 4*i + k :=
      block_index (Nat.le_add_right _ _) (by omega)
    have hphase : Fin.ofNat 4 (4*i + k) = k := by
      apply Fin.ext
      rw [Fin.val_ofNat]
      omega
    have hround : (4*i + (k : ℕ))/4 = i := by omega
    rw [CellMemory.write_inside _ _ _ _ ho,hsub,hindex,hphase,hround,Function.update_self,
      if_pos ⟨by omega,by omega,Nat.lt_succ_self i⟩]
    simp [Transfer.block,Transfer.data]
  · rw [CellMemory.write_outside _ (by omega),h a]
    have hother : base ≤ a → a < base + T.size →
        Function.update got (.data k) (i+1) (.data (Fin.ofNat 4 ((a-base)/T.payload))) =
          got (.data (Fin.ofNat 4 ((a-base)/T.payload))) ∨ ¬ (a-base)/T.payload/4 = i := by
      intro hlow hhigh
      by_cases hkk : Fin.ofNat 4 ((a-base)/T.payload) = k
      · right
        intro hdiv
        have hmod : (a-base)/T.payload%4 = k := congrArg Fin.val hkk
        have hindex : (a-base)/T.payload = 4*i + k := by omega
        have hdm := Nat.div_add_mod (a-base) T.payload
        have hmlt := Nat.mod_lt (a-base) T.payload_pos
        rw [hindex,Nat.mul_comm] at hdm
        apply hin
        rw [hlen]
        omega
      · left
        rw [Function.update_of_ne (fun e => hkk (Channel.data.inj e))]
    by_cases hrange : base ≤ a ∧ a < base + T.size
    · obtain ⟨hlow,hhigh⟩ := hrange
      have hiff : (a-base)/T.payload/4 < got (.data (Fin.ofNat 4 ((a-base)/T.payload))) ↔
          (a-base)/T.payload/4 <
            Function.update got (.data k) (i+1) (.data (Fin.ofNat 4 ((a-base)/T.payload))) := by
        obtain hsame | hne := hother hlow hhigh
        · rw [hsame]
        · by_cases hkk : Fin.ofNat 4 ((a-base)/T.payload) = k
          · rw [hkk,Function.update_self,hi]
            omega
          · rw [Function.update_of_ne (fun e => hkk (Channel.data.inj e))]
      simp only [hlow,hhigh,hiff]
    · have hno : ∀ P : Prop, ¬ (base ≤ a ∧ a < base + T.size ∧ P) := fun P hP => hrange ⟨hP.1,hP.2.1⟩
      rw [if_neg (hno _),if_neg (hno _)]

/-- When all blocks are in place the buffer holds the data. -/
theorem Holds.complete (h : Holds T base mem₀ mem got)
    (hgot : ∀ k, got (.data k) = T.plan.total (.data k)) : CellMemory.read mem base T.size = T.data := by
  rw [Transfer.data,CellMemory.read_eq_iff]
  refine ⟨by simp,fun i hi => ?_⟩
  have hlt : i < T.size := by simpa using hi
  have hblock : (4*(i/T.payload/4) + (Fin.ofNat 4 (i/T.payload) : Fin 4))*T.payload < T.size := by
    have hindex : 4*(i/T.payload/4) + (Fin.ofNat 4 (i/T.payload) : Fin 4) = i/T.payload := by
      rw [Fin.val_ofNat]
      omega
    rw [hindex]
    exact Nat.lt_of_le_of_lt (Nat.div_mul_le_self i T.payload) hlt
  have hgot' : i/T.payload/4 < got (.data (Fin.ofNat 4 (i/T.payload))) := by
    rw [hgot]
    exact T.lt_total_data.mpr hblock
  rw [h,Nat.add_sub_cancel_left,if_pos ⟨Nat.le_add_right _ _,by omega,hgot'⟩,CellMemory.getElem_read]

end Memory

section Slots
variable {T : Transfer} {x : NiSlot} {got : Channel → ℕ} {g : ℕ}

/-- How many bytes of the control data `g` blocks are. -/
def Transfer.controlEnd (T : Transfer) (g : ℕ) : ℕ := min (g*T.payload) 7

/-- A receiving slot after `g` blocks of the control data. -/
structure RecvControl (T : Transfer) (x : NiSlot) (g : ℕ) : Prop where
  state : x.state = 0x8041
  error : x.errorCode = 0
  phase : x.phase = 0
  n : x.n 0 = Fin.ofNat 4 g
  ptr : x.ptr 0 = .control (T.controlEnd g)
  remain : x.remain = 7 - (T.controlEnd g : ℕ)
  small : x.payloadSize < 256^2 ∧ x.dataSize < 256^4
  control : x.control.take (T.controlEnd g) = T.control.take (T.controlEnd g)

/-- A receiving slot in the data stage. -/
structure RecvData (T : Transfer) (base : ℕ) (x : NiSlot) (got : Channel → ℕ) : Prop where
  state : x.state = 0x8042
  error : x.errorCode = 0
  payload : x.payloadSize = T.payload
  n : ∀ k, x.n k = Fin.ofNat 4 (got (.data k))
  ptr : ∀ k : Fin 4, got (.data k) < T.plan.total (.data k) →
    x.ptr k = .data (base + (4*got (.data k) + k)*T.payload)

/-- A receiving slot that has all data; its end may have been noted. -/
structure RecvDone (x : NiSlot) : Prop where
  state : x.state = 0x8043 ∧ x.phase = 0 ∧ x.n 0 = 0 ∨ x.state = 0x46
  error : x.errorCode = 0

@[simp] theorem length_slotControl (x : NiSlot) : x.control.length = 7 := by
  simp [NiSlot.control]

/-- The control data of a slot is any seven bytes stored into it. -/
theorem control_setControl {o : ℕ} {bs : List Byte} (ho : o ≤ 7) :
    (x.setControl o bs).control = x.control.take o ++ bs.take (7-o) ++ x.control.drop (o + bs.length) := by
  unfold NiSlot.setControl
  generalize hc : x.control.take o ++ bs.take (7-o) ++ x.control.drop (o + bs.length) = c
  have hlen : c.length = 7 := by
    rw [← hc]
    simp
    omega
  match c, hlen with
  | [b₀,b₁,b₂,b₃,b₄,b₅,b₆], _ =>
    have htwo := toBytes_ofBytes [b₁,b₂]
    have hfour := toBytes_ofBytes [b₃,b₄,b₅,b₆]
    simp only [List.length_cons,List.length_nil] at htwo hfour
    simp [NiSlot.control,htwo,hfour]

theorem setControl_small {o : ℕ} {bs : List Byte} :
    (x.setControl o bs).payloadSize < 256^2 ∧ (x.setControl o bs).dataSize < 256^4 := by
  unfold NiSlot.setControl
  dsimp only
  constructor
  · apply (ofBytes_lt _).trans_le
    exact Nat.pow_le_pow_right (by decide) (by simp)
  · apply (ofBytes_lt _).trans_le
    exact Nat.pow_le_pow_right (by decide) (by simp)

/-- All of the control data has arrived. -/
theorem RecvControl.fields (h : RecvControl T x (T.blocks 7)) :
    x.dataType = 0 ∧ x.payloadSize = T.payload ∧ x.dataSize = T.size ∧ x.remain = 0 := by
  have hend : T.controlEnd (T.blocks 7) = 7 := by
    have hle := T.mul_blocks_le (Nat.le_refl (T.blocks 7))
    rw [Transfer.controlEnd]
    omega
  have hcontrol := h.control
  rw [hend,List.take_of_length_le (by simp),List.take_of_length_le (by simp)] at hcontrol
  rw [NiSlot.control,Transfer.control,List.cons.injEq] at hcontrol
  obtain ⟨htype,hrest⟩ := hcontrol
  obtain ⟨hpayload,hsize⟩ := List.append_inj hrest (by simp)
  have hp := congrArg ofBytes hpayload
  have hd := congrArg ofBytes hsize
  have hTp : T.payload < 256^2 := T.payload_lt
  have hTs : T.size < 256^4 := T.size_lt.trans (by decide)
  rw [ofBytes_toBytes,ofBytes_toBytes,Nat.mod_eq_of_lt h.small.1,Nat.mod_eq_of_lt hTp] at hp
  rw [ofBytes_toBytes,ofBytes_toBytes,Nat.mod_eq_of_lt h.small.2,Nat.mod_eq_of_lt hTs] at hd
  have hremain := h.remain
  rw [hend] at hremain
  exact ⟨htype,hp,hd,by omega⟩

/-- A sub-frame that is noted: its phase is the one the next answer is about. -/
def NiSlot.noted (x : NiSlot) (f : SubFrame) (fails : BitVec 16) : NiSlot :=
  { x with phase := f.phase, failCounter := fails }

variable {f : SubFrame} {fails : BitVec 16} {base : ℕ}

theorem RecvControl.noted (h : RecvControl T x g) (hf : f.phase = 0) : RecvControl T (x.noted f fails) g :=
  ⟨h.state,h.error,hf,h.n,h.ptr,h.remain,h.small,h.control⟩

theorem RecvData.noted (h : RecvData T base x got) : RecvData T base (x.noted f fails) got :=
  ⟨h.state,h.error,h.payload,h.n,h.ptr⟩

theorem RecvDone.noted (h : RecvDone x) (hf : f.phase = 0) : RecvDone (x.noted f fails) := by
  refine ⟨?_,h.error⟩
  obtain ⟨hstate,-,hn⟩ | hstate := h.state
  · exact .inl ⟨hstate,hf,hn⟩
  · exact .inr hstate

/-- The slot after a payload of `k` bytes was stored, apart from the bytes. -/
def NiSlot.moved (x : NiSlot) (f : SubFrame) : NiSlot :=
  { x with ptr := Function.update x.ptr f.phase ((x.ptr f.phase).add f.payload.length) }

theorem moved_ptr (x : NiSlot) (f : SubFrame) :
    (x.moved f).ptr = Function.update x.ptr f.phase ((x.ptr f.phase).add f.payload.length) := rfl

theorem moved_payloadSize (x : NiSlot) (f : SubFrame) : (x.moved f).payloadSize = x.payloadSize := rfl

/-- The next block of the control data. -/
theorem RecvControl.next (h : RecvControl T x g) (hf : Carries T f (.control,g)) (hg : g < T.blocks 7) :
    RecvControl T (((x.moved f).setControl (T.controlEnd g) f.payload).afterPayload f) (g+1) := by
  obtain ⟨-,hphase,hn,hpayload⟩ := hf
  have hlt := T.lt_blocks.mp hg
  have hlen : f.payload.length = min T.payload (7 - g*T.payload) := by
    rw [hpayload,T.length_block,T.length_control]
  have hend : T.controlEnd g = g*T.payload := by
    rw [Transfer.controlEnd]
    omega
  have hmul : (g+1)*T.payload = g*T.payload + T.payload := Nat.succ_mul _ _
  have hnext : T.controlEnd (g+1) = T.controlEnd g + f.payload.length := by
    rw [hend,hlen,Transfer.controlEnd,hmul]
    omega
  have hcontrol : ((x.moved f).setControl (T.controlEnd g) f.payload).control.take (T.controlEnd (g+1)) =
      T.control.take (T.controlEnd (g+1)) := by
    have hfit : f.payload.take (7 - T.controlEnd g) = f.payload :=
      List.take_of_length_le (by rw [hlen,hend]; omega)
    have hblock : f.payload = (T.control.drop (T.controlEnd g)).take f.payload.length := by
      rw [hlen,← T.length_control,hend]
      conv_lhs => rw [hpayload,Transfer.block]
      rw [← List.length_drop,Nat.min_comm,List.take_eq_take_iff]
      omega
    have hlength : ((x.moved f).control.take (T.controlEnd g)).length = T.controlEnd g := by
      rw [List.length_take,length_slotControl,hend]
      omega
    rw [control_setControl (by omega),hfit,hnext,List.take_append_of_le_length (by simp [hlength]),
      List.take_of_length_le (by simp [hlength]),List.take_add,← hblock]
    congr 1
    exact h.control
  have hstate : ((x.moved f).setControl (T.controlEnd g) f.payload).state ≠ 0x8042 := by
    show x.state ≠ 0x8042
    rw [h.state]
    decide
  unfold NiSlot.afterPayload
  rw [if_neg hstate,hphase]
  refine ⟨h.state,h.error,h.phase,?_,?_,?_,setControl_small,hcontrol⟩
  · simp only [Function.update_self]
    exact hn
  · simp only [Function.update_self]
    show (x.moved f).ptr 0 = _
    rw [moved_ptr,hphase,Function.update_self,h.ptr,Ptr.add,hnext]
  · show x.remain - f.payload.length = _
    rw [h.remain,hnext]
    push_cast
    omega

/-- The next block of a phase. -/
theorem RecvData.next (h : RecvData T base x got) {k : Fin 4} (hf : Carries T f (.data k,got (.data k)))
    (hk : got (.data k) < T.plan.total (.data k)) :
    RecvData T base ((x.moved f).afterPayload f) (Function.update got (.data k) (got (.data k) + 1)) := by
  obtain ⟨-,hphase,hn,hpayload⟩ := hf
  have hstate : (x.moved f).state = 0x8042 := h.state
  unfold NiSlot.afterPayload
  rw [if_pos hstate,hphase]
  refine ⟨h.state,h.error,h.payload,fun k' => ?_,fun k' hk' => ?_⟩
  · by_cases hkk : k' = k
    · subst hkk
      simp only [Function.update_self]
      exact hn
    · have hne : Channel.data k' ≠ .data k := fun e => hkk (Channel.data.inj e)
      simp only [Function.update_of_ne hkk,Function.update_of_ne hne]
      exact h.n k'
  · by_cases hkk : k' = k
    · subst hkk
      rw [Function.update_self] at hk'
      have hfull := T.lt_total_data.mp hk'
      have hmul : (4*(got (.data k') + 1) + k')*T.payload =
          (4*got (.data k') + k')*T.payload + 4*T.payload := by ring
      have hlen : f.payload.length = T.payload := by
        rw [hpayload,T.length_block,T.length_data]
        omega
      simp only [Function.update_self]
      rw [moved_ptr,moved_payloadSize,hphase,Function.update_self,h.ptr k' hk,h.payload]
      simp only [Ptr.add,hlen,hmul]
      congr 1
      omega
    · have hne : Channel.data k' ≠ .data k := fun e => hkk (Channel.data.inj e)
      rw [Function.update_of_ne hne] at hk'
      simp only [Function.update_of_ne hkk,Function.update_of_ne hne]
      rw [moved_ptr,hphase,Function.update_of_ne hkk]
      exact h.ptr k' hk'

/-- The data stage begins when the control data is complete. -/
theorem RecvControl.startData (h : RecvControl T x (T.blocks 7)) (hgot : ∀ k, got (.data k) = 0) :
    RecvData T base (x.startData base) got := by
  refine ⟨rfl,h.error,h.fields.2.1,fun k => ?_,fun k _ => ?_⟩
  · rw [hgot]
    rfl
  · rw [hgot,NiSlot.startData,h.fields.2.1]
    rw [Nat.mul_zero,Nat.zero_add,Nat.mul_comm]

end Slots

section Stations
variable {T : Transfer} {t : Fin 4} {base : ℕ} {mem₀ : ℕ → Byte} {s : Station} {f : SubFrame}
  {got : Channel → ℕ}

/-- Where a receiving slot is after so many messages of each channel. A slot without room for its
header never takes part. -/
inductive RecvAt (T : Transfer) (base : ℕ) (mem₀ : ℕ → Byte) (x : NiSlot) (mem : ℕ → Byte)
    (got : Channel → ℕ) : Prop
  | dead (hstate : x.state = 0x49) (herror : x.errorCode ≠ 0)
  | fresh (hx : x = .zero) (hmem : mem = mem₀) (hgot : ∀ c, c ≠ .over → got c = 0)
  | control (h : RecvControl T x (got .control)) (hpos : got .control ≠ 0) (hmem : mem = mem₀)
      (hgot : ∀ k, got (.data k) = 0) (hlast : got .last = 0)
  | data (h : RecvData T base x got) (hmem : Holds T base mem₀ mem got)
      (hstart : ∃ k, got (.data k) ≠ 0) (hlast : got .last = 0)
  | done (h : RecvDone x) (hmem : Holds T base mem₀ mem got)
      (hgot : ∀ k, got (.data k) = T.plan.total (.data k)) (hlast : got .last = 1)

/-- A console that receives in slot `t` into a buffer at `base` with room for the data. -/
structure Receives (T : Transfer) (t : Fin 4) (base : ℕ) (mem₀ : ℕ → Byte) (s : Station)
    (got : Channel → ℕ) : Prop where
  address : (s.niBuffer t).address = base
  room : T.size ≤ (s.niBuffer t).size
  slot : RecvAt T base mem₀ (s.niRecv t) s.mem got

theorem receiveData_repeat (h : f.n ≠ (s.niRecv t).n f.phase + 1) : receiveData s t f = s := if_neg h

theorem receiveData_eq_control {o : ℕ} (hn : f.n = (s.niRecv t).n f.phase + 1)
    (hptr : (s.niRecv t).ptr f.phase = .control o) :
    receiveData s t f = { s with
      niRecv := Function.update s.niRecv t
        ((((s.niRecv t).moved f).setControl o f.payload).afterPayload f) } := by
  unfold receiveData storePayload
  rw [if_pos hn]
  simp only [hptr]
  rw [Function.update_self,Function.update_idem,NiSlot.moved,hptr]

theorem receiveData_eq_data {a : ℕ} (hn : f.n = (s.niRecv t).n f.phase + 1)
    (hptr : (s.niRecv t).ptr f.phase = .data a) :
    receiveData s t f = { s with
      niRecv := Function.update s.niRecv t (((s.niRecv t).moved f).afterPayload f)
      mem := CellMemory.write s.mem a f.payload } := by
  unfold receiveData storePayload
  rw [if_pos hn]
  simp only [hptr]
  rw [Function.update_self,Function.update_idem,NiSlot.moved,hptr]

theorem receiverEnd_noted (x₀ : NiSlot) (h : (s.niRecv t).errorCode = 0) :
    ∃ fails alive, receiverEnd s t f x₀ = { s with
      niRecv := Function.update s.niRecv t ((s.niRecv t).noted f fails), commAck := alive } := by
  unfold receiverEnd
  dsimp only
  rw [if_neg (not_not.mpr h)]
  split_ifs
  · exact ⟨_,_,rfl⟩
  · exact ⟨_,_,rfl⟩

/-- Noting a sub-frame keeps what the slot holds. -/
theorem Receives.noted (h : Receives T t base mem₀ s got) (x₀ : NiSlot)
    (herror : (s.niRecv t).errorCode = 0)
    (hnoted : ∀ fails, RecvAt T base mem₀ ((s.niRecv t).noted f fails) s.mem got) :
    Receives T t base mem₀ (receiverEnd s t f x₀) got := by
  obtain ⟨fails,alive,heq⟩ := receiverEnd_noted (f := f) x₀ herror
  rw [heq]
  refine ⟨h.address,h.room,?_⟩
  show RecvAt T base mem₀ (Function.update s.niRecv t _ t) s.mem got
  rw [Function.update_self]
  exact hnoted fails

/-- A block of the control data at a slot that waits for it. -/
theorem Receives.controlBlock (haddress : (s.niBuffer t).address = base) (hroom : T.size ≤ (s.niBuffer t).size)
    {g : ℕ} (h : RecvControl T (s.niRecv t) g) (hf : Carries T f (.control,g)) (hg : g < T.blocks 7)
    (hmem : s.mem = mem₀) (hgot : ∀ k, got (.data k) = 0) (hlast : got .last = 0)
    (hnew : got .control = g+1) (x₀ : NiSlot) :
    Receives T t base mem₀ (receiverEnd (receiveData s t f) t f x₀) got := by
  have hphase : f.phase = 0 := hf.2.1
  have hn : f.n = (s.niRecv t).n f.phase + 1 := by
    rw [hphase,h.n,ofNat_add_one]
    exact hf.2.2.1
  have hptr : (s.niRecv t).ptr f.phase = .control (T.controlEnd g) := by rw [hphase,h.ptr]
  have hnext := h.next hf hg
  rw [receiveData_eq_control hn hptr]
  have hslot : RecvAt T base mem₀
      ((((s.niRecv t).moved f).setControl (T.controlEnd g) f.payload).afterPayload f) s.mem got :=
    .control (hnew ▸ hnext) (by omega) hmem hgot hlast
  refine Receives.noted ?_ x₀ ?_ ?_
  · refine ⟨haddress,hroom,?_⟩
    simpa using hslot
  · simpa using hnext.error
  · intro fails
    simp only [Function.update_self]
    exact .control (hnew ▸ hnext.noted hphase) (by omega) hmem hgot hlast

/-- A repeated sub-frame is noted and nothing else. -/
theorem Receives.repeated (h : Receives T t base mem₀ s got) (x₀ : NiSlot)
    (hn : f.n ≠ (s.niRecv t).n f.phase + 1) (herror : (s.niRecv t).errorCode = 0)
    (hnoted : ∀ fails, RecvAt T base mem₀ ((s.niRecv t).noted f fails) s.mem got) :
    Receives T t base mem₀ (receiverEnd (receiveData s t f) t f x₀) got := by
  rw [receiveData_repeat hn]
  exact h.noted x₀ herror hnoted

/-- A block of a phase at a slot in the data stage. -/
theorem Receives.dataBlock (haddress : (s.niBuffer t).address = base) (hroom : T.size ≤ (s.niBuffer t).size)
    (h : RecvData T base (s.niRecv t) got) (hmem : Holds T base mem₀ s.mem got) (hlast : got .last = 0)
    {k : Fin 4} (hf : Carries T f (.data k,got (.data k))) (hk : got (.data k) < T.plan.total (.data k))
    (x₀ : NiSlot) :
    Receives T t base mem₀ (receiverEnd (receiveData s t f) t f x₀)
      (Function.update got (.data k) (got (.data k) + 1)) := by
  have hphase : f.phase = k := hf.2.1
  have hn : f.n = (s.niRecv t).n f.phase + 1 := by
    rw [hphase,h.n,ofNat_add_one]
    exact hf.2.2.1
  have hptr : (s.niRecv t).ptr f.phase = .data (base + (4*got (.data k) + k)*T.payload) := by
    rw [hphase,h.ptr k hk]
  have hnext := h.next hf hk
  have hmem' := hmem.write (k := k) rfl
  have hstart : ∃ k', Function.update got (.data k) (got (.data k) + 1) (.data k') ≠ 0 :=
    ⟨k,by simp⟩
  have hlast' : Function.update got (.data k) (got (.data k) + 1) .last = 0 := by simpa using hlast
  rw [receiveData_eq_data hn hptr,hf.2.2.2]
  refine Receives.noted ?_ x₀ ?_ ?_
  · refine ⟨haddress,hroom,?_⟩
    simp only [Function.update_self]
    exact .data hnext hmem' hstart hlast'
  · simp only [Function.update_self]
    exact hnext.error
  · intro fails
    simp only [Function.update_self]
    exact .data hnext.noted hmem' hstart hlast'

theorem receiverEnd_error (x₀ : NiSlot) (h : (s.niRecv t).errorCode ≠ 0) : receiverEnd s t f x₀ = s := if_pos h

theorem receiveLast_other (h : (s.niRecv t).state ≠ 0x8042) :
    receiveLast s t = { s with recvEnd := bit t ||| s.recvEnd } := if_neg h

theorem niReceiveReceiver_control (hf : f.state = 1) (hstate : (s.niRecv t).state = 0x8041) :
    niReceiveReceiver s t f = receiverEnd (receiveData s t f) t f (s.niRecv t) := by
  unfold niReceiveReceiver receiverStage
  simp [hf,hstate]

theorem niReceiveReceiver_data (hf : f.state = 2) (hstate : (s.niRecv t).state = 0x8042) :
    niReceiveReceiver s t f = receiverEnd (receiveData s t f) t f (s.niRecv t) := by
  unfold niReceiveReceiver receiverStage
  simp [hf,hstate]

theorem niReceiveReceiver_last (hf : f.state = 3) :
    niReceiveReceiver s t f = receiverEnd (receiveLast s t) t f (s.niRecv t) := by
  unfold niReceiveReceiver receiverStage
  simp [hf]

theorem niReceiveReceiver_over (hf : f.state = 0) :
    niReceiveReceiver s t f = receiverEnd s t f (s.niRecv t) := by
  unfold niReceiveReceiver receiverStage
  simp [hf]

/-- A slot without room stays as it is. -/
theorem niReceiveReceiver_dead (hstate : (s.niRecv t).state = 0x49) (herror : (s.niRecv t).errorCode ≠ 0) :
    (niReceiveReceiver s t f).niRecv t = s.niRecv t ∧ (niReceiveReceiver s t f).niBuffer = s.niBuffer := by
  by_cases hlast : f.state = 3
  · have hother : (s.niRecv t).state ≠ 0x8042 := by rw [hstate]; decide
    have hend := receiverEnd_error (s := { s with recvEnd := bit t ||| s.recvEnd }) (f := f) (s.niRecv t) herror
    rw [niReceiveReceiver_last hlast,receiveLast_other hother,hend]
    exact ⟨rfl,rfl⟩
  have hnone : niReceiveReceiver s t f = s ∨
      niReceiveReceiver s t f = receiverEnd s t f (s.niRecv t) := by
    unfold niReceiveReceiver receiverStage
    by_cases hdata : f.state = 2
    · exact .inr (by simp [hdata,hstate])
    by_cases hcontrol : f.state = 1
    · exact .inl (by simp [hcontrol,hstate,niInitSlotAsRecvControllData])
    · exact .inr (by simp [hlast,hdata,hcontrol])
  obtain heq | heq := hnone
  · rw [heq]
    exact ⟨rfl,rfl⟩
  · rw [heq,receiverEnd_error _ herror]
    exact ⟨rfl,rfl⟩

/-- The first data sub-frame finds the control data complete. -/
theorem niReceiveReceiver_start (hf : f.state = 2) (h : RecvControl T (s.niRecv t) (T.blocks 7))
    (haddress : (s.niBuffer t).address = base) (hroom : T.size ≤ (s.niBuffer t).size) :
    niReceiveReceiver s t f = receiverEnd (receiveData { s with
      niRecv := Function.update s.niRecv t ((s.niRecv t).startData base) } t f) t f (s.niRecv t) := by
  obtain ⟨htype,-,hsize,hremain⟩ := h.fields
  have hroom' : ¬ (s.niBuffer t).size < (s.niRecv t).dataSize := by omega
  unfold niReceiveReceiver receiverStage niInitSlotAsRecvDataEntity
  simp [hf,h.state,hremain,htype,hroom',haddress,NiSlot.startData]

/-- The first control sub-frame finds the slot free: it has no room, or it begins. -/
theorem niReceiveReceiver_init (hf : f.state = 1) (hzero : s.niRecv t = .zero) :
    (((niReceiveReceiver s t f).niRecv t).state = 0x49 ∧ ((niReceiveReceiver s t f).niRecv t).errorCode ≠ 0 ∧
      (niReceiveReceiver s t f).niBuffer = s.niBuffer) ∨
    ∃ s', niReceiveReceiver s t f = receiverEnd (receiveData s' t f) t f (s.niRecv t) ∧
      RecvControl T (s'.niRecv t) 0 ∧ s'.mem = s.mem ∧ s'.niBuffer = s.niBuffer := by
  by_cases hframe : frameSize s t < if s.mode = .parent then 3 else 2
  · left
    unfold niReceiveReceiver receiverStage niInitSlotAsRecvControllData
    simp [hf,hzero,NiSlot.zero,hframe]
  · right
    have hinit : ∃ x p c flag, niInitSlotAsRecvControllData s t = { s with
        niRecv := Function.update s.niRecv t x, parentFrame := p, childFrame := c, niRecvFlag := flag } ∧
        RecvControl T x 0 := by
      unfold niInitSlotAsRecvControllData
      simp only [hzero,hframe,if_false]
      rw [if_neg (by decide)]
      obtain ⟨p,c,hframes⟩ := setFrameSize_eq _ t _
      rw [hframes]
      refine ⟨_,p,c,_,rfl,rfl,rfl,rfl,rfl,?_,?_,⟨Nat.pow_pos (by decide),Nat.pow_pos (by decide)⟩,?_⟩
      · simp [Transfer.controlEnd]
      · simp [Transfer.controlEnd]
      · simp [Transfer.controlEnd]
    obtain ⟨x,p,c,flag,heq,hx⟩ := hinit
    refine ⟨niInitSlotAsRecvControllData s t,?_,?_,?_,?_⟩
    · have hstate : ((niInitSlotAsRecvControllData s t).niRecv t).state = 0x8041 := by
        rw [heq]
        simpa using hx.state
      unfold niReceiveReceiver receiverStage
      rw [if_neg (by omega),if_neg (by omega),if_pos hf,if_neg (by rw [hzero]; decide)]
      simp only [hstate,if_true]
    · rw [heq]
      simpa using hx
    · rw [heq]
    · rw [heq]

end Stations

section Deliver
variable {T : Transfer} {t : Fin 4} {base : ℕ} {mem₀ : ℕ → Byte} {s : Station} {f : SubFrame}
  {p : Pair Channel} {c : Channel} {m : ℕ} {rest : List (Channel × ℕ)}

theorem take_repeated {got : Channel → ℕ} (h : m + 1 = got c) : Pair.take got (c,m) = got := by
  rw [Pair.take,if_neg]
  show m ≠ got c
  omega

theorem take_next {got : Channel → ℕ} (h : m = got c) :
    Pair.take got (c,m) = Function.update got c (got c + 1) := by
  rw [Pair.take,if_pos (show m = got c from h)]
  show Function.update got c (m+1) = _
  rw [h]

/-- There is data, so its first channel is not empty. -/
theorem Transfer.total_pos (T : Transfer) : 0 < T.plan.total (.data 0) := by
  apply T.lt_total_data.mpr
  simpa using T.size_pos

/-- The stages before that of a message on its way have been received. -/
theorem got_before (hin : InStep T.plan p) (hmem : (c,m) ∈ p.forward) (c' : Channel)
    (hlt : T.plan.stage c' < T.plan.stage c) : p.got c' = T.plan.total c' :=
  hin.got_of_complete (hin.before c (.inr ⟨m,hmem⟩) c' hlt)

theorem Receives.deliver_fresh (hin : InStep T.plan p) (h : Receives T t base mem₀ s p.got)
    (hx : s.niRecv t = .zero) (hmem : s.mem = mem₀) (hgot : ∀ c, c ≠ .over → p.got c = 0)
    (hm : (c,m) ∈ p.forward) (hf : Carries T f (c,m)) :
    Receives T t base mem₀ (niReceiveReceiver s t f) (Pair.take p.got (c,m)) := by
  have hcontrol : c = .control := by
    by_contra hne
    have hstage : T.plan.stage .control < T.plan.stage c := by
      cases c with
      | control => exact absurd rfl hne
      | data k => exact Nat.zero_lt_one
      | last => exact Nat.zero_lt_two
      | «over» => exact Nat.zero_lt_succ 2
    have hall := got_before hin hm .control hstage
    rw [hgot .control (by simp)] at hall
    exact absurd hall (T.blocks_pos (by decide)).ne
  subst hcontrol
  have hzero := hgot .control (by simp)
  have hm0 : m = 0 := by
    obtain hrep | hnew := hin.deliver_cases hm
    · dsimp only at hrep
      omega
    · dsimp only at hnew
      omega
  subst hm0
  rw [take_next hzero.symm,hzero]
  obtain ⟨hstate,herror,hbuffer⟩ | ⟨s',heq,hcontrol,hmem',hbuffer⟩ := niReceiveReceiver_init (T := T) hf.1 hx
  · exact ⟨by rw [hbuffer]; exact h.address,by rw [hbuffer]; exact h.room,.dead hstate herror⟩
  · rw [heq]
    refine Receives.controlBlock (by rw [hbuffer]; exact h.address) (by rw [hbuffer]; exact h.room)
      hcontrol hf (T.blocks_pos (by decide)) (hmem'.trans hmem) (fun k => ?_) ?_ ?_ _
    · simpa using hgot (.data k) (by simp)
    · simpa using hgot .last (by simp)
    · simp

theorem Receives.deliver_control (hin : InStep T.plan p) (h : Receives T t base mem₀ s p.got)
    (hx : RecvControl T (s.niRecv t) (p.got .control)) (hpos : p.got .control ≠ 0) (hmem : s.mem = mem₀)
    (hgot : ∀ k, p.got (.data k) = 0) (hlast : p.got .last = 0)
    (hm : (c,m) ∈ p.forward) (hf : Carries T f (c,m)) :
    Receives T t base mem₀ (niReceiveReceiver s t f) (Pair.take p.got (c,m)) := by
  -- no message of the stages behind the data can be on its way
  have hstage : T.plan.stage c < 2 := by
    by_contra hge
    have hall := got_before hin hm (.data 0) (show 1 < T.plan.stage c by omega)
    rw [hgot] at hall
    exact absurd hall T.total_pos.ne
  have hcases := hin.deliver_cases hm
  have htotal := (hin.forward _ hm).2.2
  cases c with
  | last => exact absurd hstage (Nat.lt_irrefl 2)
  | «over» => exact absurd hstage (by decide : ¬ 3 < 2)
  | control =>
    obtain ⟨hstate,hphase,hn,-⟩ := id hf
    rw [niReceiveReceiver_control hstate hx.state]
    obtain hrep | hnew := hcases
    · have hne : f.n ≠ (s.niRecv t).n f.phase + 1 := by
        rw [hphase,hx.n,hn,ofNat_add_one]
        dsimp only at hrep
        rw [hrep]
        exact (ofNat_succ_ne _).symm
      rw [take_repeated hrep]
      exact h.repeated _ hne hx.error
        (fun fails => .control (hx.noted hphase) hpos hmem hgot hlast)
    · dsimp only at hnew
      subst hnew
      rw [take_next rfl]
      exact Receives.controlBlock h.address h.room hx hf htotal hmem (fun k => by simpa using hgot k)
        (by simpa using hlast) (by simp) _
  | data k =>
    have hm0 : m = p.got (.data k) := by
      obtain hrep | hnew := hcases
      · dsimp only at hrep
        rw [hgot] at hrep
        omega
      · exact hnew
    subst hm0
    have hall := got_before hin hm .control Nat.zero_lt_one
    have hcomplete : RecvControl T (s.niRecv t) (T.blocks 7) := by
      rw [hall] at hx
      exact hx
    rw [niReceiveReceiver_start hf.1 hcomplete h.address h.room,take_next rfl]
    refine Receives.dataBlock ?_ ?_ ?_ ?_ hlast hf htotal _
    · exact h.address
    · exact h.room
    · simp only [Function.update_self]
      exact hcomplete.startData hgot
    · rw [← hmem]
      exact Holds.initial hgot

/-- The message behind the data: the receive is done. -/
theorem Receives.deliver_last (h : Receives T t base mem₀ s p.got)
    (hx : RecvData T base (s.niRecv t) p.got) (hmem : Holds T base mem₀ s.mem p.got)
    (hgot : ∀ k, p.got (.data k) = T.plan.total (.data k)) (hlast : p.got .last = 0)
    (hf : Carries T f (.last,0)) :
    Receives T t base mem₀ (niReceiveReceiver s t f) (Pair.take p.got (.last,0)) := by
  obtain ⟨hstate,hphase⟩ := hf
  rw [take_next hlast.symm,niReceiveReceiver_last hstate]
  have hreceive : receiveLast s t = { s with
      recvEnd := bit t ||| s.recvEnd
      niRecv := Function.update s.niRecv t
        { s.niRecv t with phase := 0, n := Function.update (s.niRecv t).n 0 0, state := 0x8043 } } :=
    if_pos hx.state
  have hdone : RecvDone
      { s.niRecv t with phase := 0, n := Function.update (s.niRecv t).n 0 0, state := 0x8043 } :=
    ⟨.inl ⟨rfl,rfl,by simp⟩,hx.error⟩
  have hholds : Holds T base mem₀ s.mem (Function.update p.got .last (0+1)) := by
    intro a
    rw [hmem a]
    simp
  have hgot' : ∀ k, Function.update p.got .last (0+1) (.data k) = T.plan.total (.data k) := by
    intro k
    simpa using hgot k
  rw [hreceive]
  refine Receives.noted ?_ _ ?_ ?_
  · refine ⟨h.address,h.room,?_⟩
    simp only [Function.update_self]
    exact .done hdone hholds hgot' (by simp [hlast])
  · simp only [Function.update_self]
    exact hx.error
  · intro fails
    simp only [Function.update_self]
    exact .done (hdone.noted hphase) hholds hgot' (by simp [hlast])

theorem Receives.deliver_data (hin : InStep T.plan p) (h : Receives T t base mem₀ s p.got)
    (hx : RecvData T base (s.niRecv t) p.got) (hmem : Holds T base mem₀ s.mem p.got)
    (hstart : ∃ k, p.got (.data k) ≠ 0) (hlast : p.got .last = 0)
    (hm : (c,m) ∈ p.forward) (hf : Carries T f (c,m)) :
    Receives T t base mem₀ (niReceiveReceiver s t f) (Pair.take p.got (c,m)) := by
  have hcases := hin.deliver_cases hm
  have htotal := (hin.forward _ hm).2.2
  cases c with
  | control =>
    obtain ⟨k,hk⟩ := hstart
    exact absurd (hin.after _ hm (.data k) hk) (by decide : ¬ 1 ≤ 0)
  | «over» =>
    have hall := got_before hin hm .last (Nat.lt_succ_self 2)
    rw [hlast] at hall
    exact absurd hall Nat.zero_ne_one
  | data k =>
    obtain ⟨hstate,hphase,hn,-⟩ := id hf
    rw [niReceiveReceiver_data hstate hx.state]
    obtain hrep | hnew := hcases
    · have hne : f.n ≠ (s.niRecv t).n f.phase + 1 := by
        rw [hphase,hx.n,hn,ofNat_add_one]
        dsimp only at hrep
        rw [hrep]
        exact (ofNat_succ_ne _).symm
      rw [take_repeated hrep]
      exact h.repeated _ hne hx.error (fun fails => .data hx.noted hmem hstart hlast)
    · dsimp only at hnew
      subst hnew
      rw [take_next rfl]
      exact Receives.dataBlock h.address h.room hx hmem hlast hf htotal _
  | last =>
    have hm0 : m = 0 := by
      obtain hrep | hnew := hcases
      · dsimp only at hrep
        omega
      · exact hnew.trans hlast
    subst hm0
    have hgot : ∀ k, p.got (.data k) = T.plan.total (.data k) :=
      fun k => got_before hin hm (.data k) Nat.one_lt_two
    exact h.deliver_last hx hmem hgot hlast hf

theorem Receives.deliver_done (hin : InStep T.plan p) (h : Receives T t base mem₀ s p.got)
    (hx : RecvDone (s.niRecv t)) (hmem : Holds T base mem₀ s.mem p.got)
    (hgot : ∀ k, p.got (.data k) = T.plan.total (.data k)) (hlast : p.got .last = 1)
    (hm : (c,m) ∈ p.forward) (hf : Carries T f (c,m)) :
    Receives T t base mem₀ (niReceiveReceiver s t f) (Pair.take p.got (c,m)) := by
  have hstage : 2 ≤ T.plan.stage c := hin.after _ hm .last (by rw [hlast]; exact Nat.one_ne_zero)
  have htotal := (hin.forward _ hm).2.2
  cases c with
  | control => exact absurd hstage (by decide : ¬ 2 ≤ 0)
  | data k => exact absurd hstage (by decide : ¬ 2 ≤ 1)
  | last =>
    obtain ⟨hstate,hphase⟩ := id hf
    have hm0 : m + 1 = p.got .last := by
      have hlt : m < 1 := htotal
      omega
    have hother : (s.niRecv t).state ≠ 0x8042 := by
      obtain ⟨hdone,-⟩ | hdone := hx.state
      · rw [hdone]
        decide
      · rw [hdone]
        decide
    rw [take_repeated hm0,niReceiveReceiver_last hstate,receiveLast_other hother]
    refine Receives.noted ?_ _ hx.error (fun fails => .done (hx.noted hphase) hmem hgot hlast)
    exact ⟨h.address,h.room,h.slot⟩
  | «over» =>
    obtain ⟨hstate,hphase⟩ := id hf
    have hdata : ∀ k, Pair.take p.got (.over,m) (.data k) = p.got (.data k) := by
      intro k
      unfold Pair.take
      split_ifs
      · simp
      · rfl
    have hlast' : Pair.take p.got (.over,m) .last = 1 := by
      unfold Pair.take
      split_ifs
      · simpa using hlast
      · exact hlast
    have hholds : Holds T base mem₀ s.mem (Pair.take p.got (.over,m)) := by
      intro a
      rw [hmem a,hdata]
    have hgot' : ∀ k, Pair.take p.got (.over,m) (.data k) = T.plan.total (.data k) := by
      intro k
      rw [hdata,hgot]
    rw [niReceiveReceiver_over hstate]
    exact Receives.noted ⟨h.address,h.room,.done hx hholds hgot' hlast'⟩ _ hx.error
      (fun fails => .done (hx.noted hphase) hholds hgot' hlast')

/-- A receiving slot follows its pair: what it takes, it takes once and at its place. -/
theorem Receives.deliver (hin : InStep T.plan p) (h : Receives T t base mem₀ s p.got)
    (hm : (c,m) ∈ p.forward) (hf : Carries T f (c,m)) :
    Receives T t base mem₀ (niReceiveReceiver s t f) (Pair.take p.got (c,m)) := by
  obtain ⟨hstate,herror⟩ | ⟨hx,hmem,hgot⟩ | ⟨hx,hpos,hmem,hgot,hlast⟩ | ⟨hx,hmem,hstart,hlast⟩ |
    ⟨hx,hmem,hgot,hlast⟩ := h.slot
  · obtain ⟨hslot,hbuffer⟩ := niReceiveReceiver_dead (f := f) hstate herror
    exact ⟨by rw [hbuffer]; exact h.address,by rw [hbuffer]; exact h.room,
      .dead (by rw [hslot]; exact hstate) (by rw [hslot]; exact herror)⟩
  · exact h.deliver_fresh hin hx hmem hgot hm hf
  · exact h.deliver_control hin hx hpos hmem hgot hlast hm hf
  · exact h.deliver_data hin hx hmem hstart hlast hm hf
  · exact h.deliver_done hin hx hmem hgot hlast hm hf

end Deliver

section Answers
variable {T : Transfer} {t : Fin 4} {base : ℕ} {mem₀ : ℕ → Byte} {s : Station} {got : Channel → ℕ}

/-- An answer says how far the slot is on one channel. -/
theorem Receives.answer (h : Receives T t base mem₀ s got) (hactive : (s.niRecv t).active = true) :
    ∃ c, Reports ((s.niRecv t).subFrame s.mode s.mem) (c,got c) := by
  have hphase : ∀ {y : NiSlot}, y.state ≠ 0x8022 → y.sendPhase = y.phase := by
    intro y hy
    rw [NiSlot.sendPhase,if_neg hy]
  obtain ⟨hstate,-⟩ | ⟨hx,-,-⟩ | ⟨hx,-,-,-,-⟩ | ⟨hx,-,-,-⟩ | ⟨hx,-,-,hlast⟩ := h.slot
  · rw [NiSlot.active,hstate] at hactive
    exact absurd hactive (by decide)
  · rw [NiSlot.active,hx] at hactive
    exact absurd hactive (by decide)
  · have hsend := (hphase (by rw [hx.state]; decide)).trans hx.phase
    refine ⟨.control,?_,hsend,?_⟩
    · show (s.niRecv t).state.toNat % 16 = 1
      rw [hx.state]
      decide
    · show (s.niRecv t).n (s.niRecv t).sendPhase = _
      rw [hsend,hx.n]
  · refine ⟨.data (s.niRecv t).sendPhase,?_,rfl,hx.n _⟩
    show (s.niRecv t).state.toNat % 16 = 2
    rw [hx.state]
    decide
  · obtain ⟨hstate,hzero,hn⟩ | hstate := hx.state
    · have hsend := (hphase (by rw [hstate]; decide)).trans hzero
      refine ⟨.last,?_,hsend,?_,hlast⟩
      · show (s.niRecv t).state.toNat % 16 = 3
        rw [hstate]
        decide
      · show (s.niRecv t).n (s.niRecv t).sendPhase = _
        rw [hsend,hn]
    · rw [NiSlot.active,hstate] at hactive
      exact absurd hactive (by decide)

/-- Noting the end of a complete receive keeps its data. -/
theorem Receives.finishRecv (h : Receives T t base mem₀ s got) :
    Receives T t base mem₀ (Rfu.finishRecv s t) got := by
  by_cases hend : (s.niRecv t).state = 0x8043 ∧ s.recvEnd.getLsbD t = false
  · have hdone : RecvAt T base mem₀ { s.niRecv t with state := 0x46 } s.mem got := by
      obtain ⟨hstate,-⟩ | ⟨hx,-,-⟩ | ⟨hx,-,-,-,-⟩ | ⟨hx,-,-,-⟩ | ⟨hx,hmem,hgot,hlast⟩ := h.slot
      · exact absurd (hstate.symm.trans hend.1) (by decide)
      · rw [hx] at hend
        exact absurd hend.1 (by decide)
      · exact absurd (hx.state.symm.trans hend.1) (by decide)
      · exact absurd (hx.state.symm.trans hend.1) (by decide)
      · exact .done ⟨.inr rfl,hx.error⟩ hmem hgot hlast
    unfold Rfu.finishRecv
    dsimp only
    rw [if_pos hend]
    obtain ⟨p,c,heq⟩ := releaseFrame_eq { s with
      nameFlag := if (s.niRecv t).dataType = 1 then bit t ||| s.nameFlag else s.nameFlag } t true (s.niRecv t)
    rw [heq]
    refine ⟨h.address,h.room,?_⟩
    simp only [Function.update_self]
    exact hdone
  · unfold Rfu.finishRecv
    dsimp only
    rw [if_neg hend]
    exact h

end Answers

end Rfu
end AgbTools
