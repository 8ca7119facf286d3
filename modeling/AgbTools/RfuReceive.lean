import AgbTools.RfuFrame

/-! What a console does with the sub-frames it receives: the four stages of an NI transfer on
both of its sides, UNI data, and the completions behind a received packet. -/
namespace AgbTools
namespace Rfu

open Framing

section Sender

/-- The sub-frame belongs to the stage the slot is in. -/
def NiSlot.answers (x : NiSlot) (f : SubFrame) : Prop :=
  f.state = 2 ∧ x.state = 0x8022 ∨ f.state = 1 ∧ x.state = 0x8021 ∨
    f.state = 3 ∧ x.state = 0x8023

instance (x : NiSlot) (f : SubFrame) : Decidable (x.answers f) :=
  inferInstanceAs (Decidable (_ ∨ _ ∨ _))

/-- Slot `t` acknowledges the sequence number that is out in the phase. -/
def NiSlot.setAck (x : NiSlot) (t : Fin 4) (f : SubFrame) : NiSlot :=
  if x.answers f ∧ x.n f.phase = f.n then
    { x with acks := Function.update x.acks f.phase (bit t ||| x.acks f.phase) }
  else x

theorem setAck_bmSlot (x : NiSlot) (t : Fin 4) (f : SubFrame) : (x.setAck t f).bmSlot = x.bmSlot := by
  unfold NiSlot.setAck
  split_ifs <;> rfl

theorem setAck_state (x : NiSlot) (t : Fin 4) (f : SubFrame) : (x.setAck t f).state = x.state := by
  unfold NiSlot.setAck
  split_ifs <;> rfl

/-- The bits that are set then: the older ones, and that of the slot when it acknowledges. -/
theorem setAck_bits {x : NiSlot} {t : Fin 4} {f : SubFrame} {k : Fin 4} {b : ℕ}
    (hb : ((x.setAck t f).acks k).getLsbD b = true) :
    (x.acks k).getLsbD b = true ∨ (x.answers f ∧ x.n f.phase = f.n) ∧ k = f.phase ∧ b = t := by
  unfold NiSlot.setAck at hb
  split_ifs at hb with hboth
  · by_cases hk : k = f.phase
    · subst hk
      simp only [Function.update_self,BitVec.getLsbD_or,getLsbD_bit,Bool.or_eq_true,
        decide_eq_true_eq] at hb
      obtain hb | hb := hb
      · exact .inr ⟨hboth,rfl,hb⟩
      · exact .inl hb
    · simp only [Function.update_of_ne hk] at hb
      exact .inl hb
  · exact .inl hb

/-- A word as the signed comparisons of the source take it. -/
def signed (v : ℤ) : ℤ := v.bmod (2^32)

theorem signed_eq {v : ℤ} (hlow : -2^31 ≤ v) (hhigh : v < 2^31) : signed v = v :=
  Int.bmod_eq_of_le hlow hhigh

/-- All bytes of a stage are acknowledged. -/
def NiSlot.nextStage (x : NiSlot) : NiSlot :=
  if x.state = 0x8021 then
    { x with
      phase := 0, n := fun _ => 1, ptr := fun k => .data (x.src + x.payloadSize*k)
      remain := signed x.dataSize, state := 0x8022 }
  else { x with phase := 0, n := Function.update x.n 0 0, remain := 0, state := 0x8023 }

/-- All targets have acknowledged what is out in phase `k`. -/
def NiSlot.nextChunk (x : NiSlot) (k : Fin 4) : NiSlot :=
  let x := { x with n := Function.update x.n k (x.n k + 1), acks := Function.update x.acks k 0 }
  if x.state = 0x8021 ∨ x.state = 0x8022 then
    let step := if x.state = 0x8021 then x.payloadSize else 4*x.payloadSize
    let x := { x with
      ptr := Function.update x.ptr k ((x.ptr k).add step)
      remain := signed (x.remain - x.payloadSize) }
    if x.remain ≤ 0 then x.nextStage else x
  else if x.state = 0x8023 then { x with state := 0x8020 }
  else x

def NiSlot.receiveAck (x : NiSlot) (t : Fin 4) (f : SubFrame) : NiSlot :=
  let x := x.setAck t f
  if x.acks f.phase &&& x.bmSlot = x.bmSlot then x.nextChunk f.phase else x

/-- `rfu_STC_NI_receive_Sender`: slot `t` answers the sending slot `j`. -/
def niReceiveSender (s : Station) (j t : Fin 4) (f : SubFrame) : Station :=
  let x := s.niSend j
  let x' := x.receiveAck t f
  let s := { s with niSend := Function.update s.niSend j x' }
  if x'.state ≠ x.state ∨ x'.n f.phase ≠ x.n f.phase ∨ (x'.acks f.phase).getLsbD t then
    { s with
      commAck := 0x10#8 <<< (t : ℕ) ||| s.commAck
      niSend := Function.update s.niSend t { s.niSend t with failCounter := 0 } }
  else s

end Sender

section Receiver

/-- `rfu_STC_NI_initSlot_asRecvControllData`. -/
def niInitSlotAsRecvControllData (s : Station) (i : Fin 4) : Station :=
  let x := s.niRecv i
  let header := if s.mode = .parent then 3 else 2
  if x.state ≠ 0 then s
  else if frameSize s i < header then
    { s with
      niRecv := Function.update s.niRecv i { x with state := 0x49, errorCode := 0x702 }
      recvErr := bit i ||| s.recvErr }
  else
    let x' := { x with
      errorCode := 0, ptr := Function.update x.ptr 0 (.control 0), remain := 7, ack := true
      payloadSize := 0, bmSlot := bit i, state := 0x8041 }
    setFrameSize
      { s with niRecv := Function.update s.niRecv i x', niRecvFlag := bit i ||| s.niRecvFlag }
      i (frameSize s i - header)

/-- The data stage of a receive, with the data going to address `a`. -/
def NiSlot.startData (x : NiSlot) (a : ℕ) : NiSlot :=
  { x with
    n := fun _ => 0, ptr := fun k => .data (a + x.payloadSize*k), remain := x.dataSize
    state := 0x8042 }

/-- The data do not fit the receive buffer. -/
def refuseData (s : Station) (i : Fin 4) : Station :=
  let x := { s.niRecv i with errorCode := 0x701, state := 0x47 }
  let s := { s with
    recvErr := bit i ||| s.recvErr, niRecvFlag := s.niRecvFlag &&& ~~~bit i
    niRecv := Function.update s.niRecv i x }
  releaseFrame s i true x

/-- `rfu_STC_NI_initSlot_asRecvDataEntity`. A game name goes to the link status. -/
def niInitSlotAsRecvDataEntity (s : Station) (i : Fin 4) : Station :=
  let x := s.niRecv i
  if x.dataType = 1 then
    { s with niRecv := Function.update s.niRecv i (x.startData (s.linkAddress + 0x14 + 0x20*i + 4)) }
  else if (s.niBuffer i).size < x.dataSize then refuseData s i
  else { s with niRecv := Function.update s.niRecv i (x.startData (s.niBuffer i).address) }

/-- Store into the control data of the slot. A peer sends seven bytes of it in all; what would
lie behind them is not part of the slot. -/
def NiSlot.setControl (x : NiSlot) (o : ℕ) (bs : List Byte) : NiSlot :=
  let c := x.control.take o ++ bs.take (7-o) ++ x.control.drop (o + bs.length)
  { x with
    dataType := c.getD 0 0, payloadSize := ofBytes ((c.drop 1).take 2)
    dataSize := ofBytes ((c.drop 3).take 4) }

/-- Copy a payload to the pointer of phase `k`, which moves behind it. -/
def storePayload (s : Station) (i k : Fin 4) (bs : List Byte) : Station :=
  let x := s.niRecv i
  let x' := { x with ptr := Function.update x.ptr k ((x.ptr k).add bs.length) }
  match x.ptr k with
  | .control o => { s with niRecv := Function.update s.niRecv i (x'.setControl o bs) }
  | .data a => { s with
      niRecv := Function.update s.niRecv i x', mem := CellMemory.write s.mem a bs }

/-- The slot behind a stored payload; in the data stage the pointer skips the chunks of the
other phases. -/
def NiSlot.afterPayload (x : NiSlot) (f : SubFrame) : NiSlot :=
  let p := if x.state = 0x8042 then (x.ptr f.phase).add (3*x.payloadSize) else x.ptr f.phase
  { x with
    ptr := Function.update x.ptr f.phase p, remain := x.remain - f.payload.length
    n := Function.update x.n f.phase f.n }

def receiveData (s : Station) (i : Fin 4) (f : SubFrame) : Station :=
  if f.n = (s.niRecv i).n f.phase + 1 then
    let s := storePayload s i f.phase f.payload
    { s with niRecv := Function.update s.niRecv i ((s.niRecv i).afterPayload f) }
  else s

/-- The last sub-frame: a receive in the data stage is complete. -/
def receiveLast (s : Station) (i : Fin 4) : Station :=
  let x := s.niRecv i
  let x' := { x with phase := 0, n := Function.update x.n 0 0, state := 0x8043 }
  let s := { s with recvEnd := bit i ||| s.recvEnd }
  if x.state = 0x8042 then { s with niRecv := Function.update s.niRecv i x' } else s

/-- The stage part of `rfu_STC_NI_receive_Receiver`: the station, and whether the payload is
looked at; `none` when the routine returns early. -/
def receiverStage (s : Station) (i : Fin 4) (f : SubFrame) : Station × Option Bool :=
  let x := s.niRecv i
  if f.state = 3 then (receiveLast s i,some false)
  else if f.state = 2 then
    let s := if x.state = 0x8041 ∧ x.remain = 0 then niInitSlotAsRecvDataEntity s i else s
    (s,some ((s.niRecv i).state = 0x8042))
  else if f.state = 1 then
    if x.state = 0x8041 then (s,some true)
    else
      let s := niInitSlotAsRecvControllData s i
      (s,if (s.niRecv i).state = 0x8041 then some true else none)
  else (s,some false)

/-- Its end: the answer is about the phase of this sub-frame, and a sub-frame that changed
something or was a repeat counts as a sign of life. -/
def receiverEnd (s : Station) (i : Fin 4) (f : SubFrame) (x₀ : NiSlot) : Station :=
  let x := s.niRecv i
  if x.errorCode ≠ 0 then s
  else
    let x' := { x with phase := f.phase }
    if x.state ≠ x₀.state ∨ x.n f.phase ≠ x₀.n f.phase ∨ x.n f.phase = f.n then
      { s with
        niRecv := Function.update s.niRecv i { x' with failCounter := 0 }
        commAck := bit i ||| s.commAck }
    else { s with niRecv := Function.update s.niRecv i x' }

/-- `rfu_STC_NI_receive_Receiver`. -/
def niReceiveReceiver (s : Station) (i : Fin 4) (f : SubFrame) : Station :=
  let x₀ := s.niRecv i
  match receiverStage s i f with
  | (s,none) => s
  | (s,some look) => receiverEnd (if look then receiveData s i f else s) i f x₀

end Receiver

section Uni

def uniStore (s : Station) (i : Fin 4) (f : SubFrame) (err : BitVec 16) : Station :=
  let x := { s.uniRecv i with
    errorCode := err, state := 0, dataSize := f.payload.length, newData := true }
  { s with
    uniRecv := Function.update s.uniRecv i x
    mem := CellMemory.write s.mem (s.uniBuffer i).address f.payload }

def uniFail (s : Station) (i : Fin 4) : Station :=
  { s with recvErr := 0x10#8 <<< (i : ℕ) ||| s.recvErr }

/-- `rfu_STC_UNI_receive`. -/
def uniReceive (s : Station) (i : Fin 4) (f : SubFrame) : Station :=
  let x := s.uniRecv i
  if (s.uniBuffer i).size < f.payload.length then
    uniFail { s with
      uniRecv := Function.update s.uniRecv i { x with state := 0x49, errorCode := 0x701 } } i
  else if x.newData then
    if x.protect then
      uniFail { s with uniRecv := Function.update s.uniRecv i { x with errorCode := 0x709 } } i
    else uniFail (uniStore s i f 0x708) i
  else uniStore s i f 0

end Uni

section Analyze

/-- What a parent does with a sub-frame of child slot `i`. An answer goes to the first NI send
slot that has the child among its targets. -/
def parentDispatch (s : Station) (i : Fin 4) (f : SubFrame) : Station :=
  if f.frame ≠ 0 ∨ s.connSlot.getLsbD i = false then s
  else if f.state = 4 then uniReceive s i f
  else if f.ack = false then niReceiveReceiver s i f
  else
    match (List.finRange 4).find? fun j =>
        (s.niSend j).bmSlot.getLsbD i && s.niSendFlag.getLsbD i with
    | some j => niReceiveSender s j i f
    | none => s

def childDispatchSlot (f : SubFrame) (bm : Byte) (s : Station) (i : Fin 4) : Station :=
  if bm.getLsbD i = false then s
  else if f.state = 4 then uniReceive s i f
  else if f.ack = false then niReceiveReceiver s i f
  else if s.niSendFlag.getLsbD i then niReceiveSender s i i f
  else s

/-- What a child does with a sub-frame of the parent. -/
def childDispatch (s : Station) (f : SubFrame) : Station :=
  if f.frame ≠ 0 then s
  else (List.finRange 4).foldl (childDispatchSlot f (s.connSlot &&& BitVec.ofNat 8 f.bmSlot)) s

/-- `rfu_STC_PARENT_analyzeRecvPacket`. The sub-frames do not depend on what is done with the
ones before them, so they are read first. -/
def parentAnalyzeRecvPacket (s : Station) (word : ℕ) (buf : ℕ → Byte) : Station :=
  let ended := (List.finRange 4).foldl
    (fun m i => if slotLength word i = 0 then bit i ||| m else m) s.recvEnd
  (parentReadPacket word buf).1.records.foldl (fun s r => parentDispatch s r.1 r.2)
    { s with recvEnd := ended }

/-- `rfu_STC_CHILD_analyzeRecvPacket`. -/
def childAnalyzeRecvPacket (s : Station) (word : ℕ) (buf : ℕ → Byte) : Station :=
  let ended := if word &&& 0x7F = 0 then 0xF else s.recvEnd
  (childReadPacket word buf).records.foldl childDispatch { s with recvEnd := ended }

/-- A complete NI receive whose sender has stopped sending it. -/
def finishRecv (s : Station) (i : Fin 4) : Station :=
  let x := s.niRecv i
  if x.state = 0x8043 ∧ s.recvEnd.getLsbD i = false then
    let s := { s with nameFlag := if x.dataType = 1 then bit i ||| s.nameFlag else s.nameFlag }
    let s := releaseFrame s i true x
    { s with
      niRecvFlag := s.niRecvFlag &&& ~~~x.bmSlot
      niRecv := Function.update s.niRecv i { x with state := 0x46 } }
  else s

/-- `rfu_CB_recvData` for a request that succeeded and brought a packet. -/
def cbRecvData (s : Station) (word : ℕ) (buf : ℕ → Byte) : Station :=
  let s := { s with recvEnd := 0 }
  let s := if s.mode = .parent then parentAnalyzeRecvPacket s word buf
    else childAnalyzeRecvPacket s word buf
  (List.finRange 4).foldl finishRecv s

/-- `rfu_NI_checkCommFailCounter`: slots without a sign of life count up. -/
def niCheckCommFailCounter (s : Station) : Station :=
  if s.niRecvFlag ||| s.niSendFlag = 0 then s
  else
    let count (flag alive : Byte) (x : NiSlot) (i : Fin 4) : NiSlot :=
      if flag.getLsbD i ∧ alive.getLsbD i = false then
        { x with failCounter := x.failCounter + 1 } else x
    { s with
      niSend := fun i => count s.niSendFlag s.commAck (s.niSend i) i
      niRecv := fun i => count s.niRecvFlag (s.commAck >>> 4) (s.niRecv i) i
      commAck := 0 }

end Analyze

end Rfu
end AgbTools
