import AgbTools.RfuSlots
import AgbTools.Runs

/-! The communication-failure counters. Progress of both directions is kept in one byte; the handlers
put send progress into its high half and receive progress into its low half, the check reads them the
other way round. -/
namespace AgbTools
namespace Rfu

open Runs

section Records
variable (s : Station) (i j t : Fin 4) (f : SubFrame)

/-- `rfu_STC_NI_receive_Sender` records progress for slot `t`. -/
def recordsSend : Prop :=
  let x := s.niSend j
  let x' := x.receiveAck t f
  x'.state ≠ x.state ∨ x'.n f.phase ≠ x.n f.phase ∨ (x'.acks f.phase).getLsbD t = true

instance : Decidable (recordsSend s j t f) := inferInstanceAs (Decidable (_ ∨ _ ∨ _))

/-- The slot of `rfu_STC_NI_receive_Receiver` before the end of the routine, if it comes there. -/
def receivedSlot : Option NiSlot :=
  match receiverStage s i f with
  | (_,none) => none
  | (s,some look) => some ((if look then receiveData s i f else s).niRecv i)

/-- `rfu_STC_NI_receive_Receiver` records progress for slot `i`. -/
def recordsRecv : Prop :=
  match receivedSlot s i f with
  | none => False
  | some x => x.errorCode = 0 ∧
      (x.state ≠ (s.niRecv i).state ∨ x.n f.phase ≠ (s.niRecv i).n f.phase ∨ x.n f.phase = f.n)

instance : Decidable (recordsRecv s i f) := by
  unfold recordsRecv
  cases receivedSlot s i f with
  | none => exact inferInstanceAs (Decidable False)
  | some x => exact inferInstanceAs (Decidable (_ ∧ (_ ∨ _ ∨ _)))

end Records

section Handlers
variable {s : Station} {i j t : Fin 4} {f : SubFrame}

theorem niReceiveSender_commAck (s : Station) (j t : Fin 4) (f : SubFrame) : (niReceiveSender s j t f).commAck =
    if recordsSend s j t f then 0x10#8 <<< (t : ℕ) ||| s.commAck else s.commAck := by
  by_cases hrecord : recordsSend s j t f
  · rw [if_pos hrecord]
    unfold recordsSend at hrecord
    unfold niReceiveSender
    dsimp only at hrecord ⊢
    rw [if_pos hrecord]
  · rw [if_neg hrecord]
    unfold recordsSend at hrecord
    unfold niReceiveSender
    dsimp only at hrecord ⊢
    rw [if_neg hrecord]

theorem receiveData_keeps (s : Station) (i : Fin 4) (f : SubFrame) :
    (receiveData s i f).commAck = s.commAck ∧ (receiveData s i f).niSendFlag = s.niSendFlag ∧
      (receiveData s i f).niRecvFlag = s.niRecvFlag ∧
      ((receiveData s i f).niRecv i).state = (s.niRecv i).state ∧
      ((receiveData s i f).niRecv i).errorCode = (s.niRecv i).errorCode := by
  unfold receiveData
  dsimp only
  split_ifs
  · unfold storePayload
    dsimp only
    split
    · simp [NiSlot.afterPayload,NiSlot.setControl]
    · simp [NiSlot.afterPayload]
  · exact ⟨rfl,rfl,rfl,rfl,rfl⟩

theorem niInitSlotAsRecvDataEntity_keeps (s : Station) (i : Fin 4) :
    (niInitSlotAsRecvDataEntity s i).commAck = s.commAck ∧
      (niInitSlotAsRecvDataEntity s i).niSendFlag = s.niSendFlag ∧
      ∀ b, (niInitSlotAsRecvDataEntity s i).niRecvFlag.getLsbD b = true → s.niRecvFlag.getLsbD b = true := by
  unfold niInitSlotAsRecvDataEntity
  dsimp only
  split_ifs
  · exact ⟨rfl,rfl,fun _ h => h⟩
  · unfold refuseData
    dsimp only
    obtain ⟨p,c,heq⟩ := releaseFrame_eq { s with
      recvErr := bit i ||| s.recvErr, niRecvFlag := s.niRecvFlag &&& ~~~bit i
      niRecv := Function.update s.niRecv i { s.niRecv i with errorCode := 0x701, state := 0x47 } } i true
      { s.niRecv i with errorCode := 0x701, state := 0x47 }
    rw [heq]
    refine ⟨rfl,rfl,fun b hb => ?_⟩
    simp only [BitVec.getLsbD_and,Bool.and_eq_true] at hb
    exact hb.1
  · exact ⟨rfl,rfl,fun _ h => h⟩

/-- A receive slot is only ever set up from state 0, and then without an error. -/
theorem niInitSlotAsRecvControllData_keeps (s : Station) (i : Fin 4) :
    (niInitSlotAsRecvControllData s i).commAck = s.commAck ∧
      (niInitSlotAsRecvControllData s i).niSendFlag = s.niSendFlag ∧
      ∀ b, (niInitSlotAsRecvControllData s i).niRecvFlag.getLsbD b = true → s.niRecvFlag.getLsbD b = true ∨
        b = i ∧ (s.niRecv i).state = 0 ∧ ((niInitSlotAsRecvControllData s i).niRecv i).state = 0x8041 ∧
          ((niInitSlotAsRecvControllData s i).niRecv i).errorCode = 0 := by
  unfold niInitSlotAsRecvControllData
  dsimp only
  generalize (if s.mode = .parent then 3 else 2) = header
  split_ifs with hstate hroom
  · exact ⟨rfl,rfl,fun _ h => .inl h⟩
  · exact ⟨rfl,rfl,fun _ h => .inl h⟩
  · obtain ⟨p,c,heq⟩ := setFrameSize_eq { s with
      niRecv := Function.update s.niRecv i { s.niRecv i with
        errorCode := 0, ptr := Function.update (s.niRecv i).ptr 0 (.control 0), remain := 7, ack := true
        payloadSize := 0, bmSlot := bit i, state := 0x8041 }
      niRecvFlag := bit i ||| s.niRecvFlag } i (frameSize s i - header)
    rw [heq]
    refine ⟨rfl,rfl,fun b hb => ?_⟩
    simp only [BitVec.getLsbD_or,getLsbD_bit,Bool.or_eq_true,decide_eq_true_eq] at hb
    obtain hb | hb := hb
    · exact .inr ⟨hb,not_not.mp hstate,by simp,by simp⟩
    · exact .inl hb

/-- What the stage part leaves alone; a flag it sets belongs to a slot it has just set up. -/
theorem receiverStage_keeps (s : Station) (i : Fin 4) (f : SubFrame) :
    (receiverStage s i f).1.commAck = s.commAck ∧ (receiverStage s i f).1.niSendFlag = s.niSendFlag ∧
      ∀ b, (receiverStage s i f).1.niRecvFlag.getLsbD b = true → s.niRecvFlag.getLsbD b = true ∨
        b = i ∧ (s.niRecv i).state = 0 ∧ ((receiverStage s i f).1.niRecv i).state = 0x8041 ∧
          ((receiverStage s i f).1.niRecv i).errorCode = 0 ∧ (receiverStage s i f).2 = some true := by
  unfold receiverStage
  dsimp only
  by_cases h3 : f.state = 3
  · rw [if_pos h3]
    unfold receiveLast
    dsimp only
    split_ifs
    · exact ⟨rfl,rfl,fun _ h => .inl h⟩
    · exact ⟨rfl,rfl,fun _ h => .inl h⟩
  rw [if_neg h3]
  by_cases h2 : f.state = 2
  · rw [if_pos h2]
    dsimp only
    split_ifs
    · obtain ⟨hack,hsend,hrecv⟩ := niInitSlotAsRecvDataEntity_keeps s i
      exact ⟨hack,hsend,fun b hb => .inl (hrecv b hb)⟩
    · exact ⟨rfl,rfl,fun _ h => .inl h⟩
  rw [if_neg h2]
  by_cases h1 : f.state = 1
  · rw [if_pos h1]
    by_cases hcontrol : (s.niRecv i).state = 0x8041
    · rw [if_pos hcontrol]
      exact ⟨rfl,rfl,fun _ h => .inl h⟩
    · rw [if_neg hcontrol]
      obtain ⟨hack,hsend,hrecv⟩ := niInitSlotAsRecvControllData_keeps s i
      refine ⟨hack,hsend,fun b hb => ?_⟩
      obtain hold | ⟨heq,hzero,hstate,herror⟩ := hrecv b hb
      · exact .inl hold
      · exact .inr ⟨heq,hzero,hstate,herror,if_pos hstate⟩
  · rw [if_neg h1]
    exact ⟨rfl,rfl,fun _ h => .inl h⟩

theorem receiverEnd_keeps (s : Station) (i : Fin 4) (f : SubFrame) (x₀ : NiSlot) :
    (receiverEnd s i f x₀).niSendFlag = s.niSendFlag ∧ (receiverEnd s i f x₀).niRecvFlag = s.niRecvFlag :=
  ⟨(Quiet.receiverEnd s i f x₀).flags.1,(Quiet.receiverEnd s i f x₀).flags.2.1⟩

/-- Everything `rfu_STC_NI_receive_Receiver` does to the flags and the progress byte. -/
theorem niReceiveReceiver_keeps (s : Station) (i : Fin 4) (f : SubFrame) :
    (niReceiveReceiver s i f).commAck = (if recordsRecv s i f then bit i ||| s.commAck else s.commAck) ∧
      (niReceiveReceiver s i f).niSendFlag = s.niSendFlag ∧
      ∀ b, (niReceiveReceiver s i f).niRecvFlag.getLsbD b = true →
        s.niRecvFlag.getLsbD b = true ∨ b = i ∧ recordsRecv s i f := by
  obtain ⟨hack,hsend,hrecv⟩ := receiverStage_keeps s i f
  unfold niReceiveReceiver
  generalize hstage : receiverStage s i f = r at hack hsend hrecv
  obtain ⟨s',_ | look⟩ := r
  · have hno : ¬ recordsRecv s i f := by
      unfold recordsRecv receivedSlot
      rw [hstage]
      exact id
    dsimp only
    rw [if_neg hno]
    refine ⟨hack,hsend,fun b hb => ?_⟩
    obtain hold | ⟨-,-,-,-,hlook⟩ := hrecv b hb
    · exact .inl hold
    · cases hlook
  · have hslot : receivedSlot s i f = some ((if look = true then receiveData s' i f else s').niRecv i) := by
      unfold receivedSlot
      rw [hstage]
    generalize hs'' : (if look = true then receiveData s' i f else s') = s'' at hslot
    have hdata : s''.commAck = s'.commAck ∧ s''.niSendFlag = s'.niSendFlag ∧ s''.niRecvFlag = s'.niRecvFlag ∧
        (s''.niRecv i).state = (s'.niRecv i).state ∧ (s''.niRecv i).errorCode = (s'.niRecv i).errorCode := by
      rw [← hs'']
      split_ifs
      · exact receiveData_keeps s' i f
      · exact ⟨rfl,rfl,rfl,rfl,rfl⟩
    obtain ⟨hack',hsend',hrecv',hstate',herror'⟩ := hdata
    have hrecords : recordsRecv s i f ↔ (s''.niRecv i).errorCode = 0 ∧
        ((s''.niRecv i).state ≠ (s.niRecv i).state ∨ (s''.niRecv i).n f.phase ≠ (s.niRecv i).n f.phase ∨
          (s''.niRecv i).n f.phase = f.n) := by
      unfold recordsRecv
      rw [hslot]
    dsimp only
    rw [hs'']
    obtain ⟨hsendEnd,hrecvEnd⟩ := receiverEnd_keeps s'' i f (s.niRecv i)
    refine ⟨?_,by rw [hsendEnd,hsend',hsend],fun b hb => ?_⟩
    · unfold receiverEnd
      dsimp only
      by_cases herror : (s''.niRecv i).errorCode ≠ 0
      · rw [if_pos herror,if_neg (fun h => herror (hrecords.mp h).1),hack',hack]
      · rw [if_neg herror]
        by_cases hchange : (s''.niRecv i).state ≠ (s.niRecv i).state ∨
            (s''.niRecv i).n f.phase ≠ (s.niRecv i).n f.phase ∨ (s''.niRecv i).n f.phase = f.n
        · rw [if_pos hchange,if_pos (hrecords.mpr ⟨not_not.mp herror,hchange⟩)]
          dsimp only
          rw [hack',hack]
        · rw [if_neg hchange,if_neg (fun h => hchange (hrecords.mp h).2)]
          dsimp only
          rw [hack',hack]
    · rw [hrecvEnd,hrecv'] at hb
      obtain hold | ⟨heq,hzero,hstate,herror,-⟩ := hrecv b hb
      · exact .inl hold
      · refine .inr ⟨heq,hrecords.mpr ⟨herror'.trans herror,.inl ?_⟩⟩
        rw [hstate']
        dsimp only at hstate
        rw [hstate,hzero]
        decide

end Handlers

section Watch

/-- A console, and the slots progress was recorded for in each direction since the last check. -/
structure Watched where
  station : Station
  sent : Fin 4 → Bool
  received : Fin 4 → Bool

inductive WatchEvent
  | acknowledge (j t : Fin 4) (f : SubFrame)
  | receive (i : Fin 4) (f : SubFrame)
  | check

def watchStep (w : Watched) : WatchEvent → Watched
  | .acknowledge j t f => ⟨niReceiveSender w.station j t f,
      if recordsSend w.station j t f then Function.update w.sent t true else w.sent,w.received⟩
  | .receive i f => ⟨niReceiveReceiver w.station i f,w.sent,
      if recordsRecv w.station i f then Function.update w.received i true else w.received⟩
  | .check => ⟨niCheckCommFailCounter w.station,fun _ => false,fun _ => false⟩

def watched (s : Station) : Watched := ⟨s,fun _ => false,fun _ => false⟩

/-- A check now counts the slots that made no progress, each in its direction, and no others. -/
def CountsRight (w : Watched) : Prop :=
  ∀ i : Fin 4,
    ((niCheckCommFailCounter w.station).niSend i).failCounter = (w.station.niSend i).failCounter +
      (if w.station.niSendFlag.getLsbD i = true ∧ w.sent i = false then 1 else 0) ∧
    ((niCheckCommFailCounter w.station).niRecv i).failCounter = (w.station.niRecv i).failCounter +
      (if w.station.niRecvFlag.getLsbD i = true ∧ w.received i = false then 1 else 0)

/-- The two halves of the progress byte agree on every slot that sends or receives. -/
def HalvesAgree (s : Station) : Prop :=
  ∀ i : Fin 4, s.niSendFlag.getLsbD i = true ∨ s.niRecvFlag.getLsbD i = true →
    s.commAck.getLsbD i = s.commAck.getLsbD (i+4)

/-- For the slots in use the byte holds what was recorded since the last check. A check that finds no
slot in use leaves the byte, so that old bits stay for slots not in use. -/
structure Recorded (w : Watched) : Prop where
  sent : ∀ i : Fin 4, w.station.niSendFlag.getLsbD i = true → w.station.commAck.getLsbD (i+4) = w.sent i
  received : ∀ i : Fin 4, w.station.niSendFlag.getLsbD i = true ∨ w.station.niRecvFlag.getLsbD i = true →
    w.station.commAck.getLsbD i = w.received i

variable {w : Watched}

theorem getLsbD_high (t : Fin 4) (b : ℕ) : (0x10#8 <<< (t : ℕ)).getLsbD b = decide (b = t+4) := by
  have hlow : ∀ t : Fin 4, ∀ b : Fin 8, (0x10#8 <<< (t : ℕ)).getLsbD b = decide ((b : ℕ) = t+4) := by decide
  by_cases hb : b < 8
  · exact hlow t ⟨b,hb⟩
  · have ht := t.isLt
    rw [BitVec.getLsbD_of_ge _ _ (by omega),decide_eq_false (by omega)]

theorem Recorded.acknowledge (h : Recorded w) (j t : Fin 4) (f : SubFrame) :
    Recorded (watchStep w (.acknowledge j t f)) := by
  obtain ⟨hsend,hrecv,-⟩ := (Quiet.niReceiveSender w.station j t f).flags
  have hack := niReceiveSender_commAck w.station j t f
  refine ⟨fun i hi => ?_,fun i hi => ?_⟩
  · simp only [watchStep] at hi ⊢
    rw [hsend] at hi
    rw [hack]
    split_ifs
    · rw [BitVec.getLsbD_or,getLsbD_high,h.sent i hi]
      by_cases hit : i = t
      · subst hit
        simp
      · rw [Function.update_of_ne hit,decide_eq_false (by omega),Bool.false_or]
    · exact h.sent i hi
  · simp only [watchStep] at hi ⊢
    rw [hsend,hrecv] at hi
    rw [hack]
    split_ifs
    · rw [BitVec.getLsbD_or,getLsbD_high,h.received i hi,decide_eq_false (by omega),Bool.false_or]
    · exact h.received i hi

theorem Recorded.receive (h : Recorded w) (i : Fin 4) (f : SubFrame) :
    Recorded (watchStep w (.receive i f)) := by
  obtain ⟨hack,hsend,hrecv⟩ := niReceiveReceiver_keeps w.station i f
  refine ⟨fun k hk => ?_,fun k hk => ?_⟩
  · simp only [watchStep] at hk ⊢
    rw [hsend] at hk
    rw [hack]
    split_ifs
    · rw [BitVec.getLsbD_or,getLsbD_bit,h.sent k hk,decide_eq_false (by omega),Bool.false_or]
    · exact h.sent k hk
  · simp only [watchStep] at hk ⊢
    rw [hsend] at hk
    rw [hack]
    by_cases hki : k = i
    · subst hki
      by_cases hrecord : recordsRecv w.station k f
      · rw [if_pos hrecord,if_pos hrecord,BitVec.getLsbD_or,getLsbD_bit]
        simp
      · rw [if_neg hrecord,if_neg hrecord]
        refine h.received k (hk.imp id fun hflag => ?_)
        exact (hrecv k hflag).resolve_right fun hnew => hrecord hnew.2
    · have hold := h.received k (hk.imp id fun hflag =>
        (hrecv k hflag).resolve_right fun hnew => hki (Fin.ext hnew.1))
      split_ifs
      · rw [BitVec.getLsbD_or,getLsbD_bit,decide_eq_false (by omega),Bool.false_or,Function.update_of_ne hki]
        exact hold
      · exact hold

theorem Recorded.check (w : Watched) : Recorded (watchStep w .check) := by
  obtain ⟨hsend,hrecv,-⟩ := (Quiet.niCheckCommFailCounter w.station).flags
  have hidle : (niCheckCommFailCounter w.station).commAck = 0 ∨
      w.station.niSendFlag = 0 ∧ w.station.niRecvFlag = 0 := by
    unfold niCheckCommFailCounter
    split_ifs with hnone
    · obtain ⟨hnone,hnone'⟩ := BitVec.or_eq_zero_iff.mp hnone
      exact .inr ⟨hnone',hnone⟩
    · exact .inl rfl
  refine ⟨fun i hi => ?_,fun i hi => ?_⟩
  · simp only [watchStep] at hi ⊢
    rw [hsend] at hi
    obtain hzero | ⟨hnone,-⟩ := hidle
    · rw [hzero]
      simp
    · rw [hnone] at hi
      simp at hi
  · simp only [watchStep] at hi ⊢
    rw [hsend,hrecv] at hi
    obtain hzero | ⟨hnone,hnone'⟩ := hidle
    · rw [hzero]
      simp
    · rw [hnone,hnone'] at hi
      simp at hi

theorem Recorded.step (h : Recorded w) (e : WatchEvent) : Recorded (watchStep w e) := by
  cases e with
  | acknowledge j t f => exact h.acknowledge j t f
  | receive i f => exact h.receive i f
  | check => exact .check w

theorem Recorded.run (h : Recorded w) (es : List WatchEvent) : Recorded (Runs.run watchStep w es) :=
  run_invariant (fun w e (h : Recorded w) => h.step e) h es

/-- Which counters a check moves: the send counter goes by the low half, the receive counter by the
high half. -/
theorem niCheckCommFailCounter_counts (s : Station) (i : Fin 4) :
    ((niCheckCommFailCounter s).niSend i).failCounter = (s.niSend i).failCounter +
      (if s.niSendFlag.getLsbD i = true ∧ s.commAck.getLsbD i = false then 1 else 0) ∧
    ((niCheckCommFailCounter s).niRecv i).failCounter = (s.niRecv i).failCounter +
      (if s.niRecvFlag.getLsbD i = true ∧ s.commAck.getLsbD (i+4) = false then 1 else 0) := by
  unfold niCheckCommFailCounter
  by_cases hnone : s.niRecvFlag ||| s.niSendFlag = 0
  · rw [if_pos hnone]
    obtain ⟨hnone,hnone'⟩ := BitVec.or_eq_zero_iff.mp hnone
    simp [hnone,hnone']
  · rw [if_neg hnone]
    dsimp only
    rw [BitVec.getLsbD_ushiftRight,Nat.add_comm 4]
    constructor
    · split_ifs
      · rfl
      · simp
    · split_ifs
      · rfl
      · simp

theorem add_ite_inj {c : BitVec 16} {p q : Prop} [Decidable p] [Decidable q] :
    c + (if p then 1 else 0) = c + (if q then 1 else 0) ↔ (p ↔ q) := by
  rw [BitVec.add_right_inj]
  by_cases hp : p
  · by_cases hq : q
    · simp [hp,hq]
    · simp [hp,hq]
  · by_cases hq : q
    · simp [hp,hq]
    · simp [hp,hq]

end Watch

/-- In every run, a check counts right exactly when the two halves of the progress byte agree on the
slots in use before it. -/
theorem fail_counters_direction {s : Station} (hs : s.commAck = 0) (es : List WatchEvent) :
    CountsRight (run watchStep (watched s) es) ↔ HalvesAgree (run watchStep (watched s) es).station := by
  have hinitial : Recorded (watched s) := by
    refine ⟨fun i _ => ?_,fun i _ => ?_⟩
    · simp [watched,hs]
    · simp [watched,hs]
  have hrecorded := hinitial.run es
  generalize run watchStep (watched s) es = w at hrecorded ⊢
  -- flags of a slot, the bits of the byte for it, and what was recorded
  have hbits : ∀ sends receives low high sent received : Bool, (sends = true → high = sent) →
      (sends = true ∨ receives = true → low = received) →
      ((sends = true ∧ low = false ↔ sends = true ∧ sent = false) ∧
        (receives = true ∧ high = false ↔ receives = true ∧ received = false) ↔
        (sends = true ∨ receives = true → low = high)) := by decide
  refine forall_congr' fun i => ?_
  obtain ⟨hsend,hrecv⟩ := niCheckCommFailCounter_counts w.station i
  rw [hsend,hrecv,add_ite_inj,add_ite_inj]
  exact hbits _ _ _ _ _ _ (hrecorded.sent i) (hrecorded.received i)

def receivingStation : Station :=
  { initializeAPI 0x3000000 (fun _ => 0) with
    mode := .child, child := true, connSlot := 1, niBuffer := fun _ => ⟨0x2000000,0x40⟩ }

/-- A receive that is set up and then waits. -/
theorem fail_counters_direction_idle :
    receivingStation.commAck = 0 ∧
      CountsRight (run watchStep (watched receivingStation) [.receive 0 ⟨0,0,1,false,0,1,[0]⟩,.check]) := by
  refine ⟨rfl,(fail_counters_direction rfl _).mpr ?_⟩
  unfold HalvesAgree
  decide +kernel

/-- A receive that has just made progress is counted as one that has not. -/
theorem progress_counted_as_failure :
    receivingStation.commAck = 0 ∧
      ¬ CountsRight (run watchStep (watched receivingStation) [.receive 0 ⟨0,0,1,false,0,1,[0]⟩]) := by
  refine ⟨rfl,fun hright => ?_⟩
  have hrecv := (hright 0).2
  revert hrecv
  decide +kernel

end Rfu
end AgbTools
