import AgbTools.RfuContain
import AgbTools.StopAndWait

/-! A reliable NI transfer: a sending slot, one receiving slot for each target, and links between
them that keep the order of frames but may lose or repeat them. -/
namespace AgbTools
namespace Rfu

open Framing StopAndWait

section Network

/-- The consoles and the frames on their way, oldest first. Target `t` receives in its slot `t`.
`acknowledged` records which target has acknowledged the chunk at which address. -/
structure Net where
  sender : Station
  receiver : Fin 4 → Station
  forward : Fin 4 → List SubFrame
  back : Fin 4 → List SubFrame
  acknowledged : List (Fin 4 × Ptr)

inductive NetEvent
  | send
  | deliver (t : Fin 4)
  | answer (t : Fin 4)
  | confirm (t : Fin 4)
  | loseFrame (t : Fin 4) (n : ℕ)
  | doubleFrame (t : Fin 4) (n : ℕ)
  | loseAnswer (t : Fin 4) (n : ℕ)
  | doubleAnswer (t : Fin 4) (n : ℕ)
  | changeSendTarget (bm : Byte)
  | finishSend
  | finishRecv (t : Fin 4)

/-- The sub-frame of the sending slot goes out to its targets. -/
def netSend (j : Fin 4) (net : Net) : Net :=
  let x := net.sender.niSend j
  let f := x.subFrame net.sender.mode net.sender.mem
  if x.active then
    { net with
      sender := { net.sender with niSend := Function.update net.sender.niSend j x.advance }
      forward := fun t => if x.bmSlot.getLsbD t then net.forward t ++ [f] else net.forward t }
  else net

def netDeliver (net : Net) (t : Fin 4) : Net :=
  match net.forward t with
  | [] => net
  | f::rest => { net with
      receiver := Function.update net.receiver t (niReceiveReceiver (net.receiver t) t f)
      forward := Function.update net.forward t rest }

/-- A receiving slot sends its header. -/
def netAnswer (net : Net) (t : Fin 4) : Net :=
  let r := net.receiver t
  let y := r.niRecv t
  if y.active then
    { net with back := Function.update net.back t (net.back t ++ [y.subFrame r.mode r.mem]) }
  else net

/-- The slot takes the answer for an acknowledgement of a chunk. -/
def NiSlot.acknowledges (x : NiSlot) (f : SubFrame) : Prop :=
  x.state = 0x8022 ∧ x.answers f ∧ x.n f.phase = f.n

instance (x : NiSlot) (f : SubFrame) : Decidable (x.acknowledges f) :=
  inferInstanceAs (Decidable (_ ∧ _ ∧ _))

/-- An answer of target `t` reaches the sending slot while it is among its targets. -/
def netConfirm (j : Fin 4) (net : Net) (t : Fin 4) : Net :=
  match net.back t with
  | [] => net
  | f::rest =>
    let x := net.sender.niSend j
    let net := { net with back := Function.update net.back t rest }
    if x.bmSlot.getLsbD t && net.sender.niSendFlag.getLsbD t then
      { net with
        sender := niReceiveSender net.sender j t f
        acknowledged := if x.acknowledges f then (t,x.ptr f.phase)::net.acknowledged
          else net.acknowledged }
    else net

def netStep (j : Fin 4) (net : Net) : NetEvent → Net
  | .send => netSend j net
  | .deliver t => netDeliver net t
  | .answer t => netAnswer net t
  | .confirm t => netConfirm j net t
  | .loseFrame t n => { net with forward := Function.update net.forward t (lose n (net.forward t)) }
  | .doubleFrame t n =>
    { net with forward := Function.update net.forward t (double n (net.forward t)) }
  | .loseAnswer t n => { net with back := Function.update net.back t (lose n (net.back t)) }
  | .doubleAnswer t n => { net with back := Function.update net.back t (double n (net.back t)) }
  | .changeSendTarget bm => { net with sender := (changeNi net.sender j bm).2 }
  | .finishSend => { net with sender := finishSend net.sender j }
  | .finishRecv t =>
    { net with receiver := Function.update net.receiver t (finishRecv (net.receiver t) t) }

/-- The network when the send request has been accepted. -/
def netInitial (sender : Station) (receiver : Fin 4 → Station) : Net :=
  ⟨sender,receiver,fun _ => [],fun _ => [],[]⟩

end Network

section Plan

/-- What is transferred: the bytes at `src` in the memory of the sender, in blocks of `payload`. -/
structure Transfer where
  payload : ℕ
  size : ℕ
  src : ℕ
  mem : ℕ → Byte
  payload_pos : 0 < payload
  payload_lt : payload < 2^16
  size_pos : 0 < size
  size_lt : size < 2^31

/-- The control data, the data in four phases, the end, and what is sent after it. -/
inductive Channel
  | control | data (k : Fin 4) | last | over
  deriving DecidableEq

namespace Transfer
variable (T : Transfer)

def control : List Byte := 0 :: (toBytes 2 T.payload ++ toBytes 4 T.size)
def data : List Byte := CellMemory.read T.mem T.src T.size

/-- The number of blocks `len` bytes are sent in. -/
def blocks (len : ℕ) : ℕ := (len + T.payload - 1)/T.payload

/-- Block `i` of some bytes. -/
def block (bs : List Byte) (i : ℕ) : List Byte := (bs.drop (i*T.payload)).take T.payload

def plan : Plan Channel where
  stage
    | .control => 0
    | .data _ => 1
    | .last => 2
    | .over => 3
  total
    | .control => T.blocks 7
    | .data k => (T.blocks T.size + 3 - k)/4
    | .last => 1
    | .over => 1

theorem lt_blocks {i len : ℕ} : i < T.blocks len ↔ i*T.payload < len := by
  have hpos := T.payload_pos
  rw [blocks,← Nat.succ_le_iff,Nat.le_div_iff_mul_le hpos,Nat.succ_mul]
  omega

theorem mul_blocks_le {i len : ℕ} (h : T.blocks len ≤ i) : len ≤ i*T.payload := by
  by_contra hlt
  exact absurd (T.lt_blocks.mpr (Nat.lt_of_not_le hlt)) (Nat.not_lt.mpr h)

theorem blocks_pos {len : ℕ} (h : 0 < len) : 0 < T.blocks len := T.lt_blocks.mpr (by simpa using h)

@[simp] theorem length_control : T.control.length = 7 := by simp [control]

@[simp] theorem length_data : T.data.length = T.size := by simp [data]

theorem length_block (bs : List Byte) (i : ℕ) :
    (T.block bs i).length = min T.payload (bs.length - i*T.payload) := by
  simp [block]

/-- A chunk of phase `k` is one of the data. -/
theorem lt_total_data {k : Fin 4} {i : ℕ} :
    i < T.plan.total (.data k) ↔ (4*i + k)*T.payload < T.size := by
  have hk := k.isLt
  rw [← T.lt_blocks]
  show i < (T.blocks T.size + 3 - k)/4 ↔ _
  omega

end Transfer

/-- Sequence numbers tell neighbouring messages apart. -/
theorem ofNat_succ_ne (i : ℕ) : Fin.ofNat 4 (i+1) ≠ Fin.ofNat 4 i := by
  intro h
  have hval := congrArg Fin.val h
  simp only [Fin.val_ofNat] at hval
  omega

theorem ofNat_add_one (i : ℕ) : Fin.ofNat 4 i + 1 = Fin.ofNat 4 (i+1) := by
  apply Fin.ext
  simp [Fin.val_add]

end Plan

section Frames
variable (T : Transfer)

/-- The sub-frame carries message `i` of a channel. -/
def Carries (f : SubFrame) : Channel × ℕ → Prop
  | (.control, i) => f.state = 1 ∧ f.phase = 0 ∧ f.n = Fin.ofNat 4 (i+1) ∧
      f.payload = T.block T.control i
  | (.data k, i) => f.state = 2 ∧ f.phase = k ∧ f.n = Fin.ofNat 4 (i+1) ∧
      f.payload = T.block T.data (4*i+k)
  | (.last, _) => f.state = 3 ∧ f.phase = 0
  | (.over, _) => f.state = 0 ∧ f.phase = 0

/-- The sub-frame says that `r` messages of a channel were taken. -/
def Reports (f : SubFrame) : Channel × ℕ → Prop
  | (.control, r) => f.state = 1 ∧ f.phase = 0 ∧ f.n = Fin.ofNat 4 r
  | (.data k, r) => f.state = 2 ∧ f.phase = k ∧ f.n = Fin.ofNat 4 r
  | (.last, r) => f.state = 3 ∧ f.phase = 0 ∧ f.n = 0 ∧ r = 1
  | (.over, _) => False

end Frames

section Sender
variable {T : Transfer} {x : NiSlot} {out : Channel → ℕ}

/-- What is fixed in the sending slot. -/
structure Sends (T : Transfer) (x : NiSlot) : Prop where
  src : x.src = T.src
  type : x.dataType = 0
  payload : x.payloadSize = T.payload
  size : x.dataSize = T.size

structure InControl (T : Transfer) (x : NiSlot) (out : Channel → ℕ) : Prop where
  state : x.state = 0x8021
  channel : out .control < T.blocks 7
  rest : ∀ c, c ≠ .control → out c = 0
  phase : x.phase = 0
  n : x.n 0 = Fin.ofNat 4 (out .control + 1)
  ptr : x.ptr 0 = .control (out .control*T.payload)
  remain : x.remain = 7 - (out .control*T.payload : ℕ)

structure InData (T : Transfer) (x : NiSlot) (out : Channel → ℕ) : Prop where
  state : x.state = 0x8022
  control : out .control = T.blocks 7
  within : ∀ k, out (.data k) ≤ T.plan.total (.data k)
  last : out .last = 0
  «over» : out .over = 0
  n : ∀ k, x.n k = Fin.ofNat 4 (out (.data k) + 1)
  ptr : ∀ k : Fin 4, x.ptr k = .data (T.src + (4*out (.data k) + k)*T.payload)
  remain : x.remain = T.size -
    ((out (.data 0) + out (.data 1) + out (.data 2) + out (.data 3))*T.payload : ℕ)
  left : 0 < x.remain

structure InLast (T : Transfer) (x : NiSlot) (out : Channel → ℕ) : Prop where
  state : x.state = 0x8023
  control : out .control = T.blocks 7
  data : ∀ k, out (.data k) = T.plan.total (.data k)
  last : out .last = 0
  «over» : out .over = 0
  phase : x.phase = 0
  n : x.n 0 = 0
  remain : x.remain = 0

structure InOver (T : Transfer) (x : NiSlot) (out : Channel → ℕ) : Prop where
  state : x.state = 0x8020
  control : out .control = T.blocks 7
  data : ∀ k, out (.data k) = T.plan.total (.data k)
  last : out .last = 1
  «over» : out .over = 0
  phase : x.phase = 0

/-- Where the sending slot is while the messages `out` are out. -/
inductive AtStage (T : Transfer) (x : NiSlot) (out : Channel → ℕ) : Prop
  | control (h : InControl T x out)
  | data (h : InData T x out)
  | last (h : InLast T x out)
  | «over» (h : InOver T x out)

/-- The channel that phase `k` stands for. -/
def phaseChannel (state : BitVec 16) (k : Fin 4) : Option Channel :=
  if state = 0x8021 then if k = 0 then some .control else none
  else if state = 0x8022 then some (.data k)
  else if state = 0x8023 then if k = 0 then some .last else none
  else none

/-- Bytes read one by one are a piece of the list. -/
theorem map_getD_range {bs : List Byte} {o p size : ℕ} (h : size = min p (bs.length - o)) :
    ((List.range size).map fun i => bs.getD (o+i) 0) = (bs.drop o).take p := by
  subst h
  refine List.ext_getElem (by simp) fun i hi hi' => ?_
  have hlt : o + i < bs.length := by simp at hi; omega
  simp [hlt]

theorem read_drop_take (mem : ℕ → Byte) {a n o p size : ℕ} (h : size = min p (n - o)) :
    CellMemory.read mem (a+o) size = ((CellMemory.read mem a n).drop o).take p := by
  subst h
  refine List.ext_getElem (by simp) fun i hi hi' => ?_
  simp [Nat.add_assoc]

/-- Four tries see every phase. -/
theorem seek_open {k : Fin 4} (h : ∃ k', x.phaseDone k' = false) :
    x.phaseDone (x.seek 4 k) = false := by
  obtain ⟨k',hk'⟩ := h
  have hall : ∀ k k' : Fin 4, k' = k ∨ k' = k+1 ∨ k' = k+1+1 ∨ k' = k+1+1+1 := by decide
  simp only [NiSlot.seek]
  split_ifs with h₀ h₁ h₂ h₃
  · obtain rfl | rfl | rfl | rfl := hall k k' <;> simp_all
  · simpa using h₃
  · simpa using h₂
  · simpa using h₁
  · simpa using h₀

theorem InControl.carries (h : InControl T x out) (hs : Sends T x) (m : Mode) (mem : ℕ → Byte) :
    Carries T (x.subFrame m mem) (.control,out .control) := by
  have hlt := T.lt_blocks.mp h.channel
  have hphase : x.sendPhase = 0 := by
    rw [NiSlot.sendPhase,h.state,if_neg (by decide),h.phase]
  have hsize : x.sendSize = min T.payload (7 - out .control*T.payload) := by
    have hbit : ¬ x.state.getLsbD 6 = true := by rw [h.state]; decide
    have hpayload := T.payload_lt
    rw [NiSlot.sendSize,if_neg hbit,h.state,if_neg (by decide),h.remain,hs.payload]
    split_ifs
    · omega
    · omega
  have hcontrol : x.control = T.control := by
    rw [NiSlot.control,hs.type,hs.payload,hs.size,Transfer.control]
  refine ⟨?_,hphase,?_,?_⟩
  · show x.state.toNat % 16 = 1
    rw [h.state]
    decide
  · show x.n x.sendPhase = _
    rw [hphase,h.n]
  · show x.bytesAt mem x.sendSize (x.ptr x.sendPhase) = _
    rw [hphase,h.ptr,NiSlot.bytesAt,hcontrol,Transfer.block]
    exact map_getD_range (by rw [hsize,Transfer.length_control])

theorem InData.phaseDone_iff (h : InData T x out) (hs : Sends T x) (k : Fin 4) :
    x.phaseDone k = false ↔ out (.data k) < T.plan.total (.data k) := by
  rw [NiSlot.phaseDone,h.ptr,hs.src,hs.size,T.lt_total_data]
  simp only [decide_eq_false_iff_not]
  omega

/-- As long as chunks are left there is an open phase. -/
theorem InData.open_phase (h : InData T x out) :
    ∃ k, out (.data k) < T.plan.total (.data k) := by
  by_contra hnone
  have hdone : ∀ k, T.plan.total (.data k) ≤ out (.data k) := by
    intro k
    by_contra hlt
    exact hnone ⟨k,Nat.lt_of_not_le hlt⟩
  have hleft := h.left
  rw [h.remain] at hleft
  have hlt := T.lt_blocks.mpr (by omega :
    (out (.data 0) + out (.data 1) + out (.data 2) + out (.data 3))*T.payload < T.size)
  have h₀ : (T.blocks T.size + 3 - 0)/4 ≤ out (.data 0) := hdone 0
  have h₁ : (T.blocks T.size + 3 - 1)/4 ≤ out (.data 1) := hdone 1
  have h₂ : (T.blocks T.size + 3 - 2)/4 ≤ out (.data 2) := hdone 2
  have h₃ : (T.blocks T.size + 3 - 3)/4 ≤ out (.data 3) := hdone 3
  omega

theorem InData.carries (h : InData T x out) (hs : Sends T x) (m : Mode) :
    out (.data x.sendPhase) < T.plan.total (.data x.sendPhase) ∧
      Carries T (x.subFrame m T.mem) (.data x.sendPhase,out (.data x.sendPhase)) := by
  obtain ⟨k,hk⟩ := h.open_phase
  have hopen : out (.data x.sendPhase) < T.plan.total (.data x.sendPhase) := by
    rw [← h.phaseDone_iff hs,NiSlot.sendPhase,if_pos h.state]
    exact seek_open ⟨k,(h.phaseDone_iff hs k).mpr hk⟩
  have hlt := T.lt_total_data.mp hopen
  have hbit : ¬ x.state.getLsbD 6 = true := by rw [h.state]; decide
  have hsize : x.sendSize =
      min T.payload (T.size - (4*out (.data x.sendPhase) + x.sendPhase)*T.payload) := by
    have hpayload := T.payload_lt
    rw [NiSlot.sendSize,if_neg hbit,if_pos h.state,h.ptr,hs.src,hs.size,hs.payload]
    dsimp only
    split_ifs
    · omega
    · omega
  refine ⟨hopen,?_,rfl,h.n x.sendPhase,?_⟩
  · show x.state.toNat % 16 = 2
    rw [h.state]
    decide
  · show x.bytesAt T.mem x.sendSize (x.ptr x.sendPhase) = _
    rw [h.ptr,NiSlot.bytesAt,Transfer.block,Transfer.data]
    exact read_drop_take T.mem hsize

/-- The sub-frame the slot sends is a message of an open channel. -/
theorem subFrame_carries (hs : Sends T x) (h : AtStage T x out) (m : Mode) :
    ∃ c, Open T.plan out c ∧ Carries T (x.subFrame m T.mem) (c,out c) := by
  obtain h | h | h | h := h
  · exact ⟨.control,⟨h.channel,fun c hc => absurd hc (Nat.not_lt_zero _)⟩,h.carries hs m T.mem⟩
  · obtain ⟨hopen,hcarries⟩ := h.carries hs m
    refine ⟨.data x.sendPhase,⟨hopen,fun c hc => ?_⟩,hcarries⟩
    cases c with
    | control => exact h.control
    | data k => exact absurd hc (Nat.lt_irrefl 1)
    | last => exact absurd hc (by decide : ¬ 2 < 1)
    | «over» => exact absurd hc (by decide : ¬ 3 < 1)
  · have hphase : x.sendPhase = 0 := by
      rw [NiSlot.sendPhase,h.state,if_neg (by decide),h.phase]
    refine ⟨.last,⟨?_,fun c hc => ?_⟩,?_,hphase⟩
    · rw [h.last]
      exact Nat.zero_lt_one
    · cases c with
      | control => exact h.control
      | data k => exact h.data k
      | last => exact absurd hc (Nat.lt_irrefl 2)
      | «over» => exact absurd hc (by decide : ¬ 3 < 2)
    · show x.state.toNat % 16 = 3
      rw [h.state]
      decide
  · have hphase : x.sendPhase = 0 := by
      rw [NiSlot.sendPhase,h.state,if_neg (by decide),h.phase]
    refine ⟨.over,⟨?_,fun c hc => ?_⟩,?_,hphase⟩
    · rw [h.over]
      exact Nat.zero_lt_one
    · cases c with
      | control => exact h.control
      | data k => exact h.data k
      | last => exact h.last
      | «over» => exact absurd hc (Nat.lt_irrefl 3)
    · show x.state.toNat % 16 = 0
      rw [h.state]
      decide

/-- What the stage says about the slot. -/
def NiSlot.course (x : NiSlot) : BitVec 16 × Fin 4 × (Fin 4 → Fin 4) × (Fin 4 → Ptr) × ℤ :=
  (x.state,x.phase,x.n,x.ptr,x.remain)

theorem AtStage.congr (h : AtStage T x out) {x' : NiSlot} (hx : x'.course = x.course) :
    AtStage T x' out := by
  simp only [NiSlot.course,Prod.mk.injEq] at hx
  obtain ⟨hstate,hphase,hn,hptr,hremain⟩ := hx
  obtain h | h | h | h := h
  · exact .control ⟨hstate.trans h.state,h.channel,h.rest,hphase.trans h.phase,
      (congrFun hn 0).trans h.n,(congrFun hptr 0).trans h.ptr,hremain.trans h.remain⟩
  · exact .data ⟨hstate.trans h.state,h.control,h.within,h.last,h.over,
      fun k => (congrFun hn k).trans (h.n k),fun k => (congrFun hptr k).trans (h.ptr k),
      hremain.trans h.remain,by rw [hremain]; exact h.left⟩
  · exact .last ⟨hstate.trans h.state,h.control,h.data,h.last,h.over,hphase.trans h.phase,
      (congrFun hn 0).trans h.n,hremain.trans h.remain⟩
  · exact .over ⟨hstate.trans h.state,h.control,h.data,h.last,h.over,hphase.trans h.phase⟩

/-- Sending moves the phase on, in the data stage only. -/
theorem AtStage.advance (h : AtStage T x out) : AtStage T x.advance out := by
  unfold NiSlot.advance
  split_ifs with hstate
  · obtain h | h | h | h := h
    · exact absurd (h.state.symm.trans hstate) (by decide)
    · exact .data ⟨h.state,h.control,h.within,h.last,h.over,h.n,h.ptr,h.remain,h.left⟩
    · exact absurd (h.state.symm.trans hstate) (by decide)
    · exact absurd (h.state.symm.trans hstate) (by decide)
  · exact h

theorem Sends.nextChunk (h : Sends T x) (k : Fin 4) : Sends T (x.nextChunk k) := by
  unfold NiSlot.nextChunk NiSlot.nextStage
  dsimp only
  split_ifs
  all_goals exact ⟨h.src,h.type,h.payload,h.size⟩

theorem InControl.nextChunk (h : InControl T x out) (hs : Sends T x) :
    AtStage T (x.nextChunk 0) (Function.update out .control (out .control + 1)) := by
  have hmul : (out .control + 1)*T.payload = out .control*T.payload + T.payload := Nat.succ_mul _ _
  have hrest : ∀ c, c ≠ .control →
      Function.update out .control (out .control + 1) c = 0 := by
    intro c hc
    rw [Function.update_of_ne hc,h.rest c hc]
  unfold NiSlot.nextChunk
  dsimp only
  have hlt := T.lt_blocks.mp h.channel
  have hpayload := T.payload_lt
  have hsize := T.size_lt
  have hsigned : signed ((7 : ℤ) - (out .control*T.payload : ℕ) - T.payload) =
      7 - (out .control*T.payload : ℕ) - T.payload := signed_eq (by omega) (by omega)
  rw [if_pos (.inl h.state),if_pos h.state,h.remain,hs.payload,hsigned]
  by_cases hend : (7 : ℤ) - (out .control*T.payload : ℕ) - T.payload ≤ 0
  · rw [if_pos hend]
    have hblocks : out .control + 1 = T.blocks 7 := by
      have hlt := h.channel
      have hnot : ¬ out .control + 1 < T.blocks 7 := by
        rw [T.lt_blocks]
        omega
      omega
    unfold NiSlot.nextStage
    rw [if_pos h.state]
    refine .data ⟨rfl,by simp [hblocks],fun k => ?_,hrest _ (by simp),hrest _ (by simp),fun k => ?_,
      fun k => ?_,?_,?_⟩
    · rw [hrest _ (by simp)]
      exact Nat.zero_le _
    · rw [hrest _ (by simp)]
      rfl
    · dsimp only
      rw [hrest _ (by simp),hs.src]
      congr 2
      rw [Nat.mul_zero,Nat.zero_add,Nat.mul_comm]
    · dsimp only
      rw [hrest _ (by simp),hrest _ (by simp),hrest _ (by simp),hrest _ (by simp),hs.size,
        signed_eq (by omega) (by omega)]
      simp
    · dsimp only
      rw [hs.size,signed_eq (by omega) (by omega)]
      exact Int.natCast_pos.mpr T.size_pos
  · rw [if_neg hend]
    refine .control ⟨h.state,?_,hrest,h.phase,?_,?_,?_⟩
    · rw [Function.update_self,T.lt_blocks]
      omega
    · simp only [Function.update_self,h.n,ofNat_add_one]
    · simp only [Function.update_self,h.ptr,Ptr.add,hmul]
    · rw [Function.update_self,hmul]
      push_cast
      omega

/-- One chunk more is acknowledged, whatever its phase. -/
theorem chunks_succ (out : Channel → ℕ) (k : Fin 4) :
    Function.update out (.data k) (out (.data k) + 1) (.data 0) +
      Function.update out (.data k) (out (.data k) + 1) (.data 1) +
      Function.update out (.data k) (out (.data k) + 1) (.data 2) +
      Function.update out (.data k) (out (.data k) + 1) (.data 3) =
    out (.data 0) + out (.data 1) + out (.data 2) + out (.data 3) + 1 := by
  obtain ⟨k,hlt⟩ := k
  match k, hlt with
  | 0, _ | 1, _ | 2, _ | 3, _ => simp [Function.update]; omega

theorem InData.within_succ (h : InData T x out) {k : Fin 4}
    (hk : out (.data k) < T.plan.total (.data k)) (k' : Fin 4) :
    Function.update out (.data k) (out (.data k) + 1) (.data k') ≤ T.plan.total (.data k') := by
  by_cases hkk : k' = k
  · subst hkk
    rw [Function.update_self]
    exact hk
  · simpa [hkk] using h.within k'

theorem InData.remain_succ (h : InData T x out) (k : Fin 4) :
    x.remain - T.payload = T.size - ((Function.update out (.data k) (out (.data k) + 1) (.data 0) +
      Function.update out (.data k) (out (.data k) + 1) (.data 1) +
      Function.update out (.data k) (out (.data k) + 1) (.data 2) +
      Function.update out (.data k) (out (.data k) + 1) (.data 3))*T.payload : ℕ) := by
  rw [chunks_succ,Nat.succ_mul,h.remain]
  push_cast
  omega

theorem InData.signed_remain (h : InData T x out) :
    signed (x.remain - T.payload) = x.remain - T.payload := by
  have hleft := h.left
  have hpayload := T.payload_lt
  have hsize := T.size_lt
  have hle : x.remain ≤ T.size := by
    rw [h.remain]
    omega
  exact signed_eq (by omega) (by omega)

/-- When nothing remains, every chunk has been acknowledged. -/
theorem InData.all_out (h : InData T x out) {k : Fin 4}
    (hk : out (.data k) < T.plan.total (.data k)) (hend : x.remain - (T.payload : ℤ) ≤ 0)
    (k' : Fin 4) :
    Function.update out (.data k) (out (.data k) + 1) (.data k') = T.plan.total (.data k') := by
  have hcount := chunks_succ out k
  have hblocks : ¬ out (.data 0) + out (.data 1) + out (.data 2) + out (.data 3) + 1 <
      T.blocks T.size := by
    rw [h.remain] at hend
    rw [T.lt_blocks,Nat.succ_mul]
    omega
  -- the totals of the phases add up to the number of blocks
  have h₀ : _ ≤ (T.blocks T.size + 3 - 0)/4 := h.within_succ hk 0
  have h₁ : _ ≤ (T.blocks T.size + 3 - 1)/4 := h.within_succ hk 1
  have h₂ : _ ≤ (T.blocks T.size + 3 - 2)/4 := h.within_succ hk 2
  have h₃ : _ ≤ (T.blocks T.size + 3 - 3)/4 := h.within_succ hk 3
  obtain ⟨k',hlt⟩ := k'
  match k', hlt with
  | 0, _ =>
    show Function.update out (.data k) _ (.data 0) = (T.blocks T.size + 3 - 0)/4
    omega
  | 1, _ =>
    show Function.update out (.data k) _ (.data 1) = (T.blocks T.size + 3 - 1)/4
    omega
  | 2, _ =>
    show Function.update out (.data k) _ (.data 2) = (T.blocks T.size + 3 - 2)/4
    omega
  | 3, _ =>
    show Function.update out (.data k) _ (.data 3) = (T.blocks T.size + 3 - 3)/4
    omega

theorem InData.nextChunk (h : InData T x out) (hs : Sends T x) {k : Fin 4}
    (hk : out (.data k) < T.plan.total (.data k)) :
    AtStage T (x.nextChunk k) (Function.update out (.data k) (out (.data k) + 1)) := by
  have hne : x.state ≠ 0x8021 := by rw [h.state]; decide
  unfold NiSlot.nextChunk
  dsimp only
  rw [if_pos (.inr h.state),if_neg hne,hs.payload,h.signed_remain]
  by_cases hend : x.remain - (T.payload : ℤ) ≤ 0
  · rw [if_pos hend]
    unfold NiSlot.nextStage
    rw [if_neg hne]
    exact .last ⟨rfl,by simp [h.control],h.all_out hk hend,by simp [h.last],by simp [h.over],rfl,by simp,rfl⟩
  · rw [if_neg hend]
    refine .data ⟨h.state,by simp [h.control],h.within_succ hk,by simp [h.last],by simp [h.over],
      fun k' => ?_,fun k' => ?_,h.remain_succ k,?_⟩
    · by_cases hkk : k' = k
      · subst hkk
        simp only [Function.update_self,h.n,ofNat_add_one]
      · simp [hkk,h.n]
    · by_cases hkk : k' = k
      · subst hkk
        simp only [Function.update_self,h.ptr,Ptr.add]
        congr 1
        ring
      · simp [hkk,h.ptr]
    · dsimp only
      omega

theorem InLast.nextChunk (h : InLast T x out) :
    AtStage T (x.nextChunk 0) (Function.update out .last (out .last + 1)) := by
  have hne : ¬ (x.state = 0x8021 ∨ x.state = 0x8022) := by rw [h.state]; decide
  unfold NiSlot.nextChunk
  dsimp only
  rw [if_neg hne,if_pos h.state]
  exact .over ⟨rfl,by simp [h.control],fun k => by simp [h.data],by simp [h.last],by simp [h.over],
    h.phase⟩

theorem AtStage.phaseChannel_cases (h : AtStage T x out) {k : Fin 4} {c : Channel}
    (hc : phaseChannel x.state k = some c) :
    (InControl T x out ∧ k = 0 ∧ c = .control) ∨ (InData T x out ∧ c = .data k) ∨
      (InLast T x out ∧ k = 0 ∧ c = .last) := by
  unfold phaseChannel at hc
  obtain h | h | h | h := h
  · rw [if_pos h.state] at hc
    split_ifs at hc with hk
    exact .inl ⟨h,hk,(Option.some.inj hc).symm⟩
  · rw [if_neg (by rw [h.state]; decide),if_pos h.state] at hc
    exact .inr (.inl ⟨h,(Option.some.inj hc).symm⟩)
  · rw [if_neg (by rw [h.state]; decide),if_neg (by rw [h.state]; decide),if_pos h.state] at hc
    split_ifs at hc with hk
    exact .inr (.inr ⟨h,hk,(Option.some.inj hc).symm⟩)
  · rw [if_neg (by rw [h.state]; decide),if_neg (by rw [h.state]; decide),
      if_neg (by rw [h.state]; decide)] at hc
    cases hc

/-- All targets have acknowledged what is out in phase `k`. -/
theorem AtStage.nextChunk (h : AtStage T x out) (hs : Sends T x) {k : Fin 4} {c : Channel}
    (hc : phaseChannel x.state k = some c) (hlt : out c < T.plan.total c) :
    AtStage T (x.nextChunk k) (Function.update out c (out c + 1)) := by
  obtain ⟨h,rfl,rfl⟩ | ⟨h,rfl⟩ | ⟨h,rfl,rfl⟩ := h.phaseChannel_cases hc
  · exact h.nextChunk hs
  · exact h.nextChunk hs hlt
  · exact h.nextChunk

end Sender

section Running
variable {T : Transfer} {x : NiSlot} {log : List (Fin 4 × Ptr)} {p : Fin 4 → Pair Channel}
  {out : Channel → ℕ} {f : SubFrame} {c : Channel} {r : ℕ}

/-- A sending slot under way: its targets share what is out, its acknowledgement bits are theirs, and
every acknowledged chunk is in the log. -/
structure Running (T : Transfer) (x : NiSlot) (log : List (Fin 4 × Ptr)) (p : Fin 4 → Pair Channel)
    (out : Channel → ℕ) : Prop where
  sends : Sends T x
  stage : AtStage T x out
  targets : x.bmSlot ≠ 0
  shared : ∀ t : Fin 4, x.bmSlot.getLsbD t = true → (p t).out = out
  acks : ∀ (k : Fin 4) (b : ℕ), (x.acks k).getLsbD b = true → ∃ t : Fin 4, b = t ∧
    (x.bmSlot.getLsbD t = true → ∃ c, phaseChannel x.state k = some c ∧ (p t).acked c = true)
  log : ∀ t : Fin 4, x.bmSlot.getLsbD t = true → ∀ (k : Fin 4) (i : ℕ),
    i < out (.data k) ∨ i = out (.data k) ∧ (p t).acked (.data k) = true →
      (t,.data (T.src + (4*i + k)*T.payload)) ∈ log

/-- An answer in the stage of the slot is about the channel of its phase. -/
theorem phaseChannel_of_answers (hf : Reports f (c,r)) (h : x.answers f) :
    phaseChannel x.state f.phase = some c := by
  unfold phaseChannel
  cases c with
  | control =>
    obtain ⟨hstate,hphase,-⟩ := hf
    obtain ⟨h2,-⟩ | ⟨-,hx⟩ | ⟨h3,-⟩ := h
    · omega
    · rw [if_pos hx,if_pos hphase]
    · omega
  | data k =>
    obtain ⟨hstate,hphase,-⟩ := hf
    obtain ⟨-,hx⟩ | ⟨h1,-⟩ | ⟨h3,-⟩ := h
    · rw [hx,if_neg (by decide),if_pos rfl,hphase]
    · omega
    · omega
  | last =>
    obtain ⟨hstate,hphase,-⟩ := hf
    obtain ⟨h2,-⟩ | ⟨h1,-⟩ | ⟨-,hx⟩ := h
    · omega
    · omega
    · rw [hx,if_neg (by decide),if_neg (by decide),if_pos rfl,if_pos hphase]
  | «over» => exact absurd hf id

/-- The number in the answer says whether it is about the message that is out. -/
theorem AtStage.n_iff (h : AtStage T x out) (hf : Reports f (c,r))
    (hc : phaseChannel x.state f.phase = some c) (hr : r = out c ∨ r = out c + 1) :
    x.n f.phase = f.n ↔ r = out c + 1 := by
  obtain ⟨h,hk,rfl⟩ | ⟨h,rfl⟩ | ⟨h,hk,rfl⟩ := h.phaseChannel_cases hc
  · obtain ⟨-,-,hn⟩ := hf
    rw [hk,h.n,hn]
    obtain rfl | rfl := hr
    · simpa using ofNat_succ_ne _
    · simp
  · obtain ⟨-,-,hn⟩ := hf
    rw [h.n,hn]
    obtain hr | hr := hr
    · rw [hr]
      simpa using ofNat_succ_ne _
    · simp [hr]
  · obtain ⟨-,-,hn,hone⟩ := hf
    rw [hk,h.n,hn,h.last]
    simp [hone]

/-- An answer of another stage is not about the message that is out. -/
theorem AtStage.stale (h : AtStage T x out) (hf : Reports f (c,r)) (hans : ¬ x.answers f)
    {q : Pair Channel} (hq : InStep T.plan q) (hout : q.out = out) (hmem : (c,r) ∈ q.back) :
    r ≠ out c + 1 := by
  intro hr
  have hgot := (hq.back _ hmem).2
  have hwithin := hq.within c
  have hne : q.got c ≠ 0 := by
    dsimp only at hgot
    omega
  have hbefore := hq.before c (.inl hne)
  rw [hout] at hbefore
  have hlt : out c < T.plan.total c := by
    dsimp only at hgot
    omega
  apply hans
  obtain h | h | h | h := h
  · cases c with
    | control => exact .inr (.inl ⟨hf.1,h.state⟩)
    | data k => exact absurd (hbefore .control Nat.zero_lt_one) h.channel.ne
    | last => exact absurd (hbefore .control Nat.zero_lt_two) h.channel.ne
    | «over» => exact absurd hf id
  · cases c with
    | control => exact absurd h.control hlt.ne
    | data k => exact .inl ⟨hf.1,h.state⟩
    | last =>
      obtain ⟨k,hk⟩ := h.open_phase
      exact absurd (hbefore (.data k) Nat.one_lt_two) hk.ne
    | «over» => exact absurd hf id
  · cases c with
    | control => exact absurd h.control hlt.ne
    | data k => exact absurd (h.data k) hlt.ne
    | last => exact .inr (.inr ⟨hf.1,h.state⟩)
    | «over» => exact absurd hf id
  · cases c with
    | control => exact absurd h.control hlt.ne
    | data k => exact absurd (h.data k) hlt.ne
    | last => exact absurd h.last hlt.ne
    | «over» => exact absurd hf id

/-- The invariant reads the pairs' counters and acknowledgements, and the slot without its phase. -/
theorem Running.congr (h : Running T x log p out) {x' : NiSlot} {q : Fin 4 → Pair Channel}
    (hsends : Sends T x') (hstage : AtStage T x' out) (hstate : x'.state = x.state)
    (hmask : x'.bmSlot = x.bmSlot) (hacks : x'.acks = x.acks)
    (hq : ∀ t, (q t).out = (p t).out ∧ (q t).acked = (p t).acked) : Running T x' log q out where
  sends := hsends
  stage := hstage
  targets := by rw [hmask]; exact h.targets
  shared t ht := by
    rw [hmask] at ht
    rw [(hq t).1]
    exact h.shared t ht
  acks k b hb := by
    rw [hacks] at hb
    obtain ⟨t,hbt,hc⟩ := h.acks k b hb
    refine ⟨t,hbt,fun ht => ?_⟩
    rw [hmask] at ht
    rw [hstate,(hq t).2]
    exact hc ht
  log t ht k i hi := by
    rw [hmask] at ht
    rw [(hq t).2] at hi
    exact h.log t ht k i hi

theorem Running.send (h : Running T x log p out) {q : Fin 4 → Pair Channel}
    (hq : ∀ t, (q t).out = (p t).out ∧ (q t).acked = (p t).acked) : Running T x.advance log q out := by
  have hfields : Sends T x.advance ∧ x.advance.state = x.state ∧ x.advance.bmSlot = x.bmSlot ∧
      x.advance.acks = x.acks := by
    unfold NiSlot.advance
    split_ifs
    · exact ⟨⟨h.sends.src,h.sends.type,h.sends.payload,h.sends.size⟩,rfl,rfl,rfl⟩
    · exact ⟨h.sends,rfl,rfl,rfl⟩
  exact h.congr hfields.1 h.stage.advance hfields.2.1 hfields.2.2.1 hfields.2.2.2 hq

theorem setAck_course (x : NiSlot) (t : Fin 4) (f : SubFrame) : (x.setAck t f).course = x.course := by
  unfold NiSlot.setAck
  split_ifs <;> rfl

theorem Sends.setAck (h : Sends T x) (t : Fin 4) (f : SubFrame) : Sends T (x.setAck t f) := by
  unfold NiSlot.setAck
  split_ifs
  · exact ⟨h.src,h.type,h.payload,h.size⟩
  · exact h

/-- The slot sets the bit exactly when the pair takes the answer for an acknowledgement. -/
theorem Running.acknowledges_iff (h : Running T x log p out) {t : Fin 4} (hin : InStep T.plan (p t))
    (ht : x.bmSlot.getLsbD t = true) (hf : Reports f (c,r)) (hmem : (c,r) ∈ (p t).back) :
    x.answers f ∧ x.n f.phase = f.n ↔ r = out c + 1 := by
  have hout := h.shared t ht
  have hr : r = out c ∨ r = out c + 1 := by
    have hcases := hin.confirm_cases hmem
    rwa [hout] at hcases
  by_cases hans : x.answers f
  · have hc := phaseChannel_of_answers hf hans
    rw [h.stage.n_iff hf hc hr]
    exact and_iff_right hans
  · have hstale := h.stage.stale hf hans hin hout hmem
    exact iff_of_false (fun hboth => hans hboth.1) hstale

/-- The chunk that an answer of the data stage is about. -/
theorem AtStage.answered (h : AtStage T x out) {k : Fin 4} (hf : Reports f (.data k,r))
    (hans : x.answers f) : x.state = 0x8022 ∧ f.phase = k ∧
      x.ptr k = .data (T.src + (4*out (.data k) + k)*T.payload) := by
  obtain ⟨hstate,hphase,-⟩ := hf
  have hx : x.state = 0x8022 := by
    obtain ⟨-,hx⟩ | ⟨h1,-⟩ | ⟨h3,-⟩ := hans
    · exact hx
    · omega
    · omega
  refine ⟨hx,hphase,?_⟩
  obtain h' | h' | h' | h' := h
  · exact absurd (h'.state.symm.trans hx) (by decide)
  · exact h'.ptr k
  · exact absurd (h'.state.symm.trans hx) (by decide)
  · exact absurd (h'.state.symm.trans hx) (by decide)

/-- An answer of target `t` arrives. -/
theorem Running.confirm (h : Running T x log p out) (hin : ∀ t, InStep T.plan (p t)) {t : Fin 4}
    (ht : x.bmSlot.getLsbD t = true) (hf : Reports f (c,r)) {rest : List (Channel × ℕ)}
    (hback : (p t).back = (c,r)::rest) :
    Running T (x.setAck t f) (if x.acknowledges f then (t,x.ptr f.phase)::log else log)
      (Function.update p t ((p t).confirm (c,r) rest)) out := by
  have hmem : (c,r) ∈ (p t).back := by rw [hback]; exact List.mem_cons_self
  have hout := h.shared t ht
  have hset := h.acknowledges_iff (hin t) ht hf hmem
  have hacked (c' : Channel) : ((p t).confirm (c,r) rest).acked c' = true ↔
      (p t).acked c' = true ∨ r = out c + 1 ∧ c' = c := by
    rw [Pair.confirm_acked,hout]
  have holdLog : ∀ e ∈ log, e ∈ if x.acknowledges f then (t,x.ptr f.phase)::log else log := by
    intro e he
    split_ifs
    · exact List.mem_cons_of_mem _ he
    · exact he
  refine ⟨h.sends.setAck t f,h.stage.congr (setAck_course x t f),?_,?_,?_,?_⟩
  · rw [setAck_bmSlot]
    exact h.targets
  · rw [setAck_bmSlot,Function.forall_update_iff p fun t' q => x.bmSlot.getLsbD t' = true → q.out = out]
    exact ⟨fun _ => hout,fun t' _ => h.shared t'⟩
  · intro k b hb
    rw [setAck_bmSlot,setAck_state]
    obtain hold | ⟨hboth,rfl,rfl⟩ := setAck_bits hb
    · obtain ⟨t',hbt,hc'⟩ := h.acks k b hold
      refine ⟨t',hbt,fun ht' => ?_⟩
      obtain ⟨c',hphase,hack⟩ := hc' ht'
      refine ⟨c',hphase,?_⟩
      by_cases heq : t' = t
      · subst heq
        rw [Function.update_self,hacked]
        exact .inl hack
      · rw [Function.update_of_ne heq]
        exact hack
    · refine ⟨t,rfl,fun _ => ⟨c,phaseChannel_of_answers hf hboth.1,?_⟩⟩
      rw [Function.update_self,hacked]
      exact .inr ⟨hset.mp hboth,rfl⟩
  · intro t' ht' k i hi
    rw [setAck_bmSlot] at ht'
    by_cases heq : t' = t
    · subst heq
      rw [Function.update_self,hacked] at hi
      obtain hi | ⟨rfl,hack | ⟨hnew,rfl⟩⟩ := hi
      · exact holdLog _ (h.log t' ht' k i (.inl hi))
      · exact holdLog _ (h.log t' ht' k _ (.inr ⟨rfl,hack⟩))
      · -- the chunk that is out is acknowledged now
        obtain ⟨hans,hn⟩ := hset.mpr hnew
        obtain ⟨hstate,hphase,hptr⟩ := h.stage.answered hf hans
        rw [if_pos ⟨hstate,hans,hn⟩,hphase,hptr]
        exact List.mem_cons_self
    · rw [Function.update_of_ne heq] at hi
      exact holdLog _ (h.log t' ht' k i hi)

theorem nextChunk_bmSlot (x : NiSlot) (k : Fin 4) : (x.nextChunk k).bmSlot = x.bmSlot := by
  unfold NiSlot.nextChunk NiSlot.nextStage
  dsimp only
  split_ifs
  all_goals rfl

theorem nextChunk_acks (x : NiSlot) (k : Fin 4) :
    (x.nextChunk k).acks = Function.update x.acks k 0 := by
  unfold NiSlot.nextChunk NiSlot.nextStage
  dsimp only
  split_ifs
  all_goals rfl

/-- All targets have acknowledged what is out in phase `k`, so there is such a message. -/
theorem Running.full (h : Running T x log p out) {k : Fin 4}
    (hfull : x.acks k &&& x.bmSlot = x.bmSlot) :
    ∃ c, phaseChannel x.state k = some c ∧ (∃ t : Fin 4, x.bmSlot.getLsbD t = true) ∧
      ∀ t : Fin 4, x.bmSlot.getLsbD t = true → (p t).acked c = true := by
  have hbits : ∀ b, x.bmSlot.getLsbD b = true → (x.acks k).getLsbD b = true := by
    intro b hb
    have hand := congrArg (fun m : Byte => m.getLsbD b) hfull
    simp only [BitVec.getLsbD_and,hb,Bool.and_true] at hand
    exact hand
  obtain ⟨b,hb⟩ : ∃ b, x.bmSlot.getLsbD b = true := by
    by_contra hnone
    apply h.targets
    apply BitVec.eq_of_getLsbD_eq
    intro b _
    have hb : ¬ x.bmSlot.getLsbD b = true := fun hb => hnone ⟨b,hb⟩
    simpa using hb
  obtain ⟨t,rfl,hc⟩ := h.acks k b (hbits b hb)
  obtain ⟨c,hphase,-⟩ := hc hb
  refine ⟨c,hphase,⟨t,hb⟩,fun t' ht' => ?_⟩
  obtain ⟨t₀,ht₀,hc'⟩ := h.acks k t' (hbits t' ht')
  obtain rfl : t' = t₀ := Fin.ext ht₀
  obtain ⟨c',hphase',hack⟩ := hc' ht'
  rw [hphase] at hphase'
  obtain rfl := Option.some.inj hphase'
  exact hack

/-- An acknowledgement in another phase outlives the move to the next chunk. -/
theorem AtStage.other_phase (h : AtStage T x out) {x' : NiSlot} {k k' : Fin 4} {c c' : Channel}
    (hc : phaseChannel x.state k = some c) (hc' : phaseChannel x.state k' = some c') (hk : k' ≠ k)
    (h' : AtStage T x' (Function.update out c (out c + 1))) {q : Pair Channel} (hq : InStep T.plan q)
    (hout : q.out = out) (hack : q.acked c' = true) :
    phaseChannel x'.state k' = some c' ∧ c' ≠ c := by
  obtain ⟨hcontrol,hzero,-⟩ | ⟨hd,rfl⟩ | ⟨hlast,hzero,-⟩ := h.phaseChannel_cases hc
  · obtain ⟨-,hzero',-⟩ | ⟨hd,-⟩ | ⟨-,hzero',-⟩ := h.phaseChannel_cases hc'
    · exact absurd (hzero'.trans hzero.symm) hk
    · exact absurd (hcontrol.state.symm.trans hd.state) (by decide)
    · exact absurd (hzero'.trans hzero.symm) hk
  · rw [phaseChannel,hd.state,if_neg (by decide),if_pos rfl] at hc'
    obtain rfl := Option.some.inj hc'
    have hne : Channel.data k' ≠ .data k := fun e => hk (Channel.data.inj e)
    obtain h' | h' | h' | h' := h'
    · have hlt := h'.channel
      rw [Function.update_of_ne (by simp),hd.control] at hlt
      exact absurd hlt (Nat.lt_irrefl _)
    · rw [phaseChannel,h'.state,if_neg (by decide),if_pos rfl]
      exact ⟨rfl,hne⟩
    · have hdone := h'.data k'
      rw [Function.update_of_ne hne] at hdone
      rw [hq.not_acked (by rw [hout,hdone])] at hack
      cases hack
    · have hone := h'.last
      rw [Function.update_of_ne (by simp),hd.last] at hone
      exact absurd hone (by decide)
  · obtain ⟨-,hzero',-⟩ | ⟨hd,-⟩ | ⟨-,hzero',-⟩ := h.phaseChannel_cases hc'
    · exact absurd (hzero'.trans hzero.symm) hk
    · exact absurd (hlast.state.symm.trans hd.state) (by decide)
    · exact absurd (hzero'.trans hzero.symm) hk

/-- The pairs of the targets go on to the next message. -/
def advanceTargets (mask : Byte) (c : Channel) (p : Fin 4 → Pair Channel) : Fin 4 → Pair Channel :=
  fun t => if mask.getLsbD t = true then (p t).advance c else p t

theorem Running.nextChunk (h : Running T x log p out) (hin : ∀ t, InStep T.plan (p t)) {k : Fin 4}
    (hfull : x.acks k &&& x.bmSlot = x.bmSlot) :
    ∃ c, (∀ t, InStep T.plan (advanceTargets x.bmSlot c p t)) ∧
      Running T (x.nextChunk k) log (advanceTargets x.bmSlot c p) (Function.update out c (out c + 1)) := by
  obtain ⟨c,hphase,⟨t₀,ht₀⟩,hack⟩ := h.full hfull
  have hlt : out c < T.plan.total c := by
    have hgot := ((hin t₀).acked c (hack t₀ ht₀)).1
    have hwithin := (hin t₀).within c
    rw [h.shared t₀ ht₀] at hgot
    omega
  have hstage := h.stage.nextChunk h.sends hphase hlt
  have hpair : ∀ t : Fin 4, x.bmSlot.getLsbD t = true →
      advanceTargets x.bmSlot c p t = (p t).advance c := fun t ht => if_pos ht
  refine ⟨c,fun t => ?_,h.sends.nextChunk k,hstage,?_,fun t ht => ?_,fun k' b hb => ?_,
    fun t ht k' i hi => ?_⟩
  · unfold advanceTargets
    split_ifs with ht
    · exact (hin t).advance (hack t ht)
    · exact hin t
  · rw [nextChunk_bmSlot]
    exact h.targets
  · rw [nextChunk_bmSlot] at ht
    rw [hpair t ht,Pair.advance,h.shared t ht]
  · rw [nextChunk_acks] at hb
    by_cases hk : k' = k
    · subst hk
      simp at hb
    · rw [Function.update_of_ne hk] at hb
      obtain ⟨t,hbt,hc⟩ := h.acks k' b hb
      refine ⟨t,hbt,fun ht => ?_⟩
      rw [nextChunk_bmSlot] at ht
      obtain ⟨c',hphase',hack'⟩ := hc ht
      obtain ⟨hnew,hne⟩ := h.stage.other_phase hphase hphase' hk hstage (hin t) (h.shared t ht) hack'
      refine ⟨c',hnew,?_⟩
      rw [hpair t ht,Pair.advance]
      simp only [Function.update_of_ne hne]
      exact hack'
  · rw [nextChunk_bmSlot] at ht
    rw [hpair t ht,Pair.advance] at hi
    apply h.log t ht k' i
    by_cases hc : Channel.data k' = c
    · subst hc
      simp only [Function.update_self] at hi
      obtain hi | ⟨-,hfalse⟩ := hi
      · by_cases hlast : i = out (.data k')
        · exact .inr ⟨hlast,hack t ht⟩
        · exact .inl (by omega)
      · cases hfalse
    · simp only [Function.update_of_ne hc] at hi
      exact hi

end Running

end Rfu
end AgbTools
