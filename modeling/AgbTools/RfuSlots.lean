import Mathlib.Logic.Relation
import AgbTools.RfuReceive
import AgbTools.Runs

/-! Runs of the slot calls: the events of a console, and what one event can do to the slots, the
flags that summarise them and the frame budget. -/
namespace AgbTools
namespace Rfu

/-- What a console is connected as. -/
inductive Role
  | parent | child
  deriving DecidableEq, Repr

/-- The calls of the library that concern the slots, the answers of the adapter to its send
and receive requests, and changes of the links. -/
inductive Event
  | niSetSendData (bm size : Byte) (src dataSize : ℕ)
  | uniSetSendData (bm : Byte) (src : ℕ) (size : Byte)
  | niChildSetSendGameName (slot size : Byte)
  | uniChangeAndReadySendData (slot : Byte) (src : ℕ) (size : Byte)
  | uniReadySendData (slot : Byte)
  | uniClearRecvNewDataFlag (slot : Byte)
  | changeSendTarget (kind slot bm : Byte)
  | niStopReceivingData (slot : Byte)
  | clearSlot (kinds slot : Byte)
  | clearAllSlot
  | setRecvBuffer (kind slot : Byte) (address size : ℕ)
  | constructSendLLFrame
  | cbSendData (result : BitVec 16)
  | cbRecvData (word : ℕ) (buf : ℕ → Byte)
  | niCheckCommFailCounter
  | connect (r : Role) (slot : Fin 4)
  | removeLinkData (slot : Fin 4) (forget : Bool)

def connect (s : Station) : Role → Fin 4 → Station
  | .parent, i => readChild s i
  | .child, i => connectParent s i

def step (s : Station) : Event → Station
  | .niSetSendData bm size src dataSize => (niSetSendData s bm size src dataSize).2
  | .uniSetSendData bm src size => (uniSetSendData s bm src size).2
  | .niChildSetSendGameName slot size => (niChildSetSendGameName s slot size).2
  | .uniChangeAndReadySendData slot src size => (uniChangeAndReadySendData s slot src size).2
  | .uniReadySendData slot => uniReadySendData s slot
  | .uniClearRecvNewDataFlag slot => uniClearRecvNewDataFlag s slot
  | .changeSendTarget kind slot bm => (changeSendTarget s kind slot bm).2
  | .niStopReceivingData slot => (niStopReceivingData s slot).2
  | .clearSlot kinds slot => (clearSlot s kinds slot).2
  | .clearAllSlot => clearAllSlot s
  | .setRecvBuffer kind slot address size => (setRecvBuffer s kind slot address size).2
  | .constructSendLLFrame => (constructSendLLFrame s).1
  | .cbSendData result => cbSendData s result
  | .cbRecvData word buf => cbRecvData s word buf
  | .niCheckCommFailCounter => niCheckCommFailCounter s
  | .connect r i => connect s r i
  | .removeLinkData i forget => removeLinkData s i forget

section Quiet

/-- What flags and budget have to do with a slot. -/
def sendAccount (x : NiSlot) : Bool × ℕ × Byte × Byte :=
  (x.active,x.payloadSize,x.bmSlot,x.origSlot)
def recvAccount (x : NiSlot) : Bool × Bool × Byte := (x.active,x.state.getLsbD 6,x.bmSlot)
def uniAccount (x : UniSlot) : Bool × ℕ × Byte := (x.active,x.payloadSize,x.bmSlot)

/-- A step that changes neither an account nor the flags, the budget and the role. -/
structure Quiet (s s' : Station) : Prop where
  send : ∀ i, sendAccount (s'.niSend i) = sendAccount (s.niSend i)
  recv : ∀ i, recvAccount (s'.niRecv i) = recvAccount (s.niRecv i)
  uni : ∀ i, uniAccount (s'.uniSend i) = uniAccount (s.uniSend i)
  flags : s'.niSendFlag = s.niSendFlag ∧ s'.niRecvFlag = s.niRecvFlag ∧
    s'.uniSendFlag = s.uniSendFlag
  frames : s'.parentFrame = s.parentFrame ∧ s'.childFrame = s.childFrame
  role : s'.mode = s.mode ∧ s'.child = s.child

variable {s s' s'' : Station} {i : Fin 4}

theorem Quiet.refl (s : Station) : Quiet s s :=
  ⟨fun _ => rfl,fun _ => rfl,fun _ => rfl,⟨rfl,rfl,rfl⟩,⟨rfl,rfl⟩,⟨rfl,rfl⟩⟩

theorem Quiet.trans (h : Quiet s s') (h' : Quiet s' s'') : Quiet s s'' where
  send i := (h'.send i).trans (h.send i)
  recv i := (h'.recv i).trans (h.recv i)
  uni i := (h'.uni i).trans (h.uni i)
  flags := ⟨h'.flags.1.trans h.flags.1,h'.flags.2.1.trans h.flags.2.1,
    h'.flags.2.2.trans h.flags.2.2⟩
  frames := ⟨h'.frames.1.trans h.frames.1,h'.frames.2.trans h.frames.2⟩
  role := ⟨h'.role.1.trans h.role.1,h'.role.2.trans h.role.2⟩

/-- Updating one slot by another with the same account. -/
theorem account_update {α β : Type*} (acc : α → β) {g : Fin 4 → α} {x : α}
    (hx : acc x = acc (g i)) (j : Fin 4) : acc (Function.update g i x j) = acc (g j) := by
  by_cases hj : j = i
  · subst hj
    simpa using hx
  · simp [hj]

theorem Quiet.ofSend (hsend : ∀ j, sendAccount (s'.niSend j) = sendAccount (s.niSend j))
    (hs : s' = { s with niSend := s'.niSend, commAck := s'.commAck }) : Quiet s s' := by
  rw [hs]
  exact ⟨hsend,fun _ => rfl,fun _ => rfl,⟨rfl,rfl,rfl⟩,⟨rfl,rfl⟩,⟨rfl,rfl⟩⟩

/-- The acknowledgement of a stage keeps the slot active and its data as they are. -/
theorem sendAccount_receiveAck (x : NiSlot) (t : Fin 4) (f : SubFrame) :
    sendAccount (x.receiveAck t f) = sendAccount x := by
  have hset : sendAccount (x.setAck t f) = sendAccount x := by
    unfold NiSlot.setAck
    split_ifs <;> rfl
  have hnext : ∀ (y : NiSlot) k, sendAccount (y.nextChunk k) = sendAccount y := by
    intro y k
    unfold NiSlot.nextChunk NiSlot.nextStage
    dsimp only
    split_ifs with hstage _ hcontrol _ hlast
    · simp [sendAccount,NiSlot.active,hcontrol]
    · have hdata : y.state = 0x8022 := by
        obtain h | h := hstage
        · exact absurd h hcontrol
        · exact h
      simp [sendAccount,NiSlot.active,hdata]
    · rfl
    · rfl
    · simp [sendAccount,NiSlot.active,hlast]
    · rfl
  unfold NiSlot.receiveAck
  dsimp only
  split_ifs
  · rw [hnext,hset]
  · exact hset

theorem Quiet.niReceiveSender (s : Station) (j t : Fin 4) (f : SubFrame) :
    Quiet s (niReceiveSender s j t f) := by
  have hack : ∀ k, sendAccount (Function.update s.niSend j ((s.niSend j).receiveAck t f) k) =
      sendAccount (s.niSend k) := account_update sendAccount (sendAccount_receiveAck _ t f)
  have hlife : ∀ (g : Fin 4 → NiSlot) k,
      sendAccount (Function.update g t { g t with failCounter := 0 } k) = sendAccount (g k) :=
    fun g => account_update sendAccount rfl
  unfold Rfu.niReceiveSender
  dsimp only
  split_ifs
  · exact .ofSend (fun k => (hlife _ k).trans (hack k)) rfl
  · exact .ofSend hack rfl

/-- Changes of the receive slots and of what is neither flag, budget nor role. -/
theorem Quiet.ofRecv (hrecv : ∀ j, recvAccount (s'.niRecv j) = recvAccount (s.niRecv j))
    (hs : s' = { s with
      niRecv := s'.niRecv, commAck := s'.commAck, recvEnd := s'.recvEnd, mem := s'.mem }) :
    Quiet s s' := by
  rw [hs]
  exact ⟨fun _ => rfl,hrecv,fun _ => rfl,⟨rfl,rfl,rfl⟩,⟨rfl,rfl⟩,⟨rfl,rfl⟩⟩

theorem Quiet.receiveData (s : Station) (i : Fin 4) (f : SubFrame) :
    Quiet s (receiveData s i f) := by
  have hstore : Quiet s (storePayload s i f.phase f.payload) := by
    unfold storePayload
    dsimp only
    split
    · exact .ofRecv (account_update recvAccount rfl) rfl
    · exact .ofRecv (account_update recvAccount rfl) rfl
  unfold Rfu.receiveData
  dsimp only
  split_ifs
  · refine hstore.trans ?_
    exact .ofRecv (account_update recvAccount rfl) rfl
  · exact .refl s

theorem Quiet.receiveLast (s : Station) (i : Fin 4) : Quiet s (receiveLast s i) := by
  unfold Rfu.receiveLast
  dsimp only
  split_ifs with hdata
  · refine .ofRecv (account_update recvAccount ?_) rfl
    simp [recvAccount,NiSlot.active,hdata]
  · exact .ofRecv (fun _ => rfl) rfl

theorem Quiet.receiverEnd (s : Station) (i : Fin 4) (f : SubFrame) (x₀ : NiSlot) :
    Quiet s (receiverEnd s i f x₀) := by
  unfold Rfu.receiverEnd
  dsimp only
  split_ifs
  · exact .refl s
  · exact .ofRecv (account_update recvAccount rfl) rfl
  · exact .ofRecv (account_update recvAccount rfl) rfl

/-- The data stage starts where the control stage ended. -/
theorem Quiet.startData (a : ℕ) (hx : (s.niRecv i).state = 0x8041) :
    Quiet s { s with niRecv := Function.update s.niRecv i ((s.niRecv i).startData a) } := by
  refine .ofRecv (account_update recvAccount ?_) rfl
  simp [recvAccount,NiSlot.active,NiSlot.startData,hx]

theorem Quiet.uniReceive (s : Station) (i : Fin 4) (f : SubFrame) : Quiet s (uniReceive s i f) := by
  unfold Rfu.uniReceive
  dsimp only
  split_ifs
  all_goals
    exact ⟨fun _ => rfl,fun _ => rfl,fun _ => rfl,⟨rfl,rfl,rfl⟩,⟨rfl,rfl⟩,⟨rfl,rfl⟩⟩

theorem sendAccount_advance (x : NiSlot) : sendAccount x.advance = sendAccount x := by
  unfold NiSlot.advance
  split_ifs <;> rfl

theorem recvAccount_advance (x : NiSlot) : recvAccount x.advance = recvAccount x := by
  unfold NiSlot.advance
  split_ifs <;> rfl

theorem Quiet.constructSendLLFrame (s : Station) : Quiet s (constructSendLLFrame s).1 := by
  unfold Rfu.constructSendLLFrame
  split
  · exact .refl s
  · refine ⟨fun j => ?_,fun j => ?_,fun _ => rfl,⟨rfl,rfl,rfl⟩,⟨rfl,rfl⟩,⟨rfl,rfl⟩⟩
    · dsimp only
      split_ifs
      · exact sendAccount_advance _
      · rfl
    · dsimp only
      split_ifs
      · exact recvAccount_advance _
      · rfl

theorem Quiet.niCheckCommFailCounter (s : Station) : Quiet s (niCheckCommFailCounter s) := by
  unfold Rfu.niCheckCommFailCounter
  split_ifs
  · exact .refl s
  · refine ⟨fun j => ?_,fun j => ?_,fun _ => rfl,⟨rfl,rfl,rfl⟩,⟨rfl,rfl⟩,⟨rfl,rfl⟩⟩
    · dsimp only
      split_ifs <;> rfl
    · dsimp only
      split_ifs <;> rfl

theorem Quiet.uniReadySendData (s : Station) (slot : Byte) : Quiet s (uniReadySendData s slot) := by
  unfold Rfu.uniReadySendData
  dsimp only
  split_ifs
  · exact ⟨fun _ => rfl,fun _ => rfl,account_update uniAccount rfl,⟨rfl,rfl,rfl⟩,⟨rfl,rfl⟩,
      ⟨rfl,rfl⟩⟩
  · exact .refl s
  · exact .refl s

theorem Quiet.setRecvBuffer (s : Station) (kind slot : Byte) (address size : ℕ) :
    Quiet s (setRecvBuffer s kind slot address size).2 := by
  unfold Rfu.setRecvBuffer
  dsimp only
  split_ifs
  all_goals
    exact ⟨fun _ => rfl,fun _ => rfl,fun _ => rfl,⟨rfl,rfl,rfl⟩,⟨rfl,rfl⟩,⟨rfl,rfl⟩⟩

theorem Quiet.uniClearRecvNewDataFlag (s : Station) (slot : Byte) :
    Quiet s (uniClearRecvNewDataFlag s slot) := by
  unfold Rfu.uniClearRecvNewDataFlag
  dsimp only
  split_ifs
  all_goals
    exact ⟨fun _ => rfl,fun _ => rfl,fun _ => rfl,⟨rfl,rfl,rfl⟩,⟨rfl,rfl⟩,⟨rfl,rfl⟩⟩

end Quiet

section SlotSpecs
variable (s : Station) (i : Fin 4)

theorem sendAccount_clearFailCounters (g : Fin 4 → NiSlot) (bm : Byte) (j : Fin 4) :
    sendAccount (clearFailCounters g bm j) = sendAccount (g j) := by
  unfold clearFailCounters
  split_ifs <;> rfl

/-- `rfu_changeSendTarget` on an NI send, slot by slot. -/
theorem shrinkNi_send (bm : Byte) (j : Fin 4) :
    sendAccount ((shrinkNi s i bm).niSend j) =
      if j = i then (if bm = 0 then false else (s.niSend i).active,(s.niSend i).payloadSize,bm,
        (s.niSend i).origSlot) else sendAccount (s.niSend j) := by
  have hfail : ∀ diff k, sendAccount (clearFailCounters s.niSend diff k) =
      sendAccount (s.niSend k) := sendAccount_clearFailCounters s.niSend
  unfold shrinkNi
  dsimp only
  by_cases hj : j = i
  · subst hj
    have hfail' := hfail (bm ^^^ (s.niSend j).bmSlot) j
    generalize clearFailCounters s.niSend (bm ^^^ (s.niSend j).bmSlot) = g at hfail' ⊢
    simp only [sendAccount,Prod.mk.injEq] at hfail'
    by_cases hbm : bm = 0
    · simp [hbm,sendAccount,NiSlot.active,hfail'.2.1,hfail'.2.2.2]
    · simp only [if_neg hbm,Function.update_self,sendAccount,if_true,Prod.mk.injEq,true_and]
      exact ⟨hfail'.1,hfail'.2.1,hfail'.2.2.2⟩
  · rw [if_neg hj]
    by_cases hbm : bm = 0
    · simp only [if_pos hbm]
      simp only [releaseFrame_niSend,Function.update_of_ne hj,hfail]
    · simp only [if_neg hbm,Function.update_of_ne hj,hfail]

theorem shrinkNi_rest (bm : Byte) :
    (shrinkNi s i bm).uniSend = s.uniSend ∧ (shrinkNi s i bm).niRecv = s.niRecv ∧
      (shrinkNi s i bm).niSendFlag = ~~~(bm ^^^ (s.niSend i).bmSlot) &&& s.niSendFlag ∧
      (shrinkNi s i bm).niRecvFlag = s.niRecvFlag ∧
      (shrinkNi s i bm).uniSendFlag = s.uniSendFlag ∧
      (shrinkNi s i bm).mode = s.mode ∧ (shrinkNi s i bm).child = s.child := by
  unfold shrinkNi
  dsimp only
  split_ifs
  · simp
  · exact ⟨rfl,rfl,rfl,rfl,rfl,rfl,rfl⟩

end SlotSpecs

section Plain
open Relation

/-- The moves every event other than a send request, `rfu_clearSlot` and a change of the links
is made of. -/
inductive Plain : Station → Station → Prop
  | quiet {s s' : Station} (h : Quiet s s') : Plain s s'
  | changeNi (s : Station) (i : Fin 4) (bm : Byte) : Plain s (changeNi s i bm).2
  | changeUni (s : Station) (i : Fin 4) (bm : Byte) : Plain s (changeUni s i bm).2
  | resize (s : Station) (slot : Byte) (src : ℕ) (size : Byte) :
      Plain s (uniChangeAndReadySendData s slot src size).2
  | stop (s : Station) (slot : Byte) : Plain s (niStopReceivingData s slot).2
  | clearNiRecv (s : Station) (i : Fin 4) : Plain s (clearNiRecv s i)
  | clearUniSend (s : Station) (i : Fin 4) : Plain s (clearUniSend s i)
  | clearAll (s : Station) : Plain s (clearAllSlot s)
  | finishSend (s : Station) (i : Fin 4) : Plain s (finishSend s i)
  | finishRecv (s : Station) (i : Fin 4) : Plain s (finishRecv s i)
  | control (s : Station) (i : Fin 4) : Plain s (niInitSlotAsRecvControllData s i)
  | refuse (s : Station) (i : Fin 4) (h : (s.niRecv i).state = 0x8041) : Plain s (refuseData s i)

variable {s s' : Station} {i : Fin 4}

theorem plain_foldl {α : Type*} {f : Station → α → Station}
    (hf : ∀ s x, ReflTransGen Plain s (f s x)) (s : Station) (xs : List α) :
    ReflTransGen Plain s (xs.foldl f s) := by
  induction xs generalizing s with
  | nil => exact .refl
  | cons x xs ih => exact (hf s x).trans (ih _)

theorem Quiet.plain (h : Quiet s s') : ReflTransGen Plain s s' := .single (.quiet h)

theorem plain_cbSendData (s : Station) (result : BitVec 16) :
    ReflTransGen Plain s (cbSendData s result) := by
  have hslot : ∀ (s : Station) i, ReflTransGen Plain s (cbSendDataSlot s i) := by
    intro s i
    have hready : Quiet s { s with
        uniSend := Function.update s.uniSend i { s.uniSend i with ready := false } } :=
      ⟨fun _ => rfl,fun _ => rfl,account_update uniAccount rfl,⟨rfl,rfl,rfl⟩,⟨rfl,rfl⟩,
        ⟨rfl,rfl⟩⟩
    exact .tail hready.plain (.finishSend _ i)
  have hdone : ∀ s : Station, Quiet s { s with frameReady := 0 } := fun s =>
    ⟨fun _ => rfl,fun _ => rfl,fun _ => rfl,⟨rfl,rfl,rfl⟩,⟨rfl,rfl⟩,⟨rfl,rfl⟩⟩
  unfold cbSendData
  dsimp only
  split_ifs
  · exact (plain_foldl hslot s _).trans (hdone _).plain
  · exact (hdone s).plain

theorem plain_receiverStage (s : Station) (i : Fin 4) (f : SubFrame) :
    ReflTransGen Plain s (receiverStage s i f).1 := by
  unfold receiverStage
  dsimp only
  split_ifs with _ _ hready
  · exact (Quiet.receiveLast s i).plain
  · unfold niInitSlotAsRecvDataEntity
    dsimp only
    split_ifs
    · exact (Quiet.startData _ hready.1).plain
    · exact .single (.refuse s i hready.1)
    · exact (Quiet.startData _ hready.1).plain
  · exact .refl
  · exact .refl
  · exact .single (.control s i)
  · exact .single (.control s i)
  · exact .refl

theorem plain_niReceiveReceiver (s : Station) (i : Fin 4) (f : SubFrame) :
    ReflTransGen Plain s (niReceiveReceiver s i f) := by
  have hstage := plain_receiverStage s i f
  unfold niReceiveReceiver
  dsimp only
  split
  next s' heq =>
    rw [heq] at hstage
    exact hstage
  next s' look heq =>
    rw [heq] at hstage
    refine hstage.trans (Quiet.plain ?_)
    split_ifs
    · exact (Quiet.receiveData s' i f).trans (.receiverEnd _ i f _)
    · exact .receiverEnd s' i f _

theorem plain_parentDispatch (s : Station) (i : Fin 4) (f : SubFrame) :
    ReflTransGen Plain s (parentDispatch s i f) := by
  unfold parentDispatch
  split_ifs
  · exact .refl
  · exact (Quiet.uniReceive s i f).plain
  · exact plain_niReceiveReceiver s i f
  · split
    · exact (Quiet.niReceiveSender s _ i f).plain
    · exact .refl

theorem plain_childDispatch (s : Station) (f : SubFrame) :
    ReflTransGen Plain s (childDispatch s f) := by
  have hslot : ∀ (bm : Byte) (s : Station) i,
      ReflTransGen Plain s (childDispatchSlot f bm s i) := by
    intro bm s i
    unfold childDispatchSlot
    split_ifs
    · exact .refl
    · exact (Quiet.uniReceive s i f).plain
    · exact plain_niReceiveReceiver s i f
    · exact (Quiet.niReceiveSender s i i f).plain
    · exact .refl
  unfold childDispatch
  split_ifs
  · exact .refl
  · exact plain_foldl (hslot _) s _

theorem plain_cbRecvData (s : Station) (word : ℕ) (buf : ℕ → Byte) :
    ReflTransGen Plain s (cbRecvData s word buf) := by
  have hend : ∀ (s : Station) m, Quiet s { s with recvEnd := m } := fun s m =>
    ⟨fun _ => rfl,fun _ => rfl,fun _ => rfl,⟨rfl,rfl,rfl⟩,⟨rfl,rfl⟩,⟨rfl,rfl⟩⟩
  have hparent : ∀ s : Station, ReflTransGen Plain s (parentAnalyzeRecvPacket s word buf) :=
    fun s => (hend s _).plain.trans
      (plain_foldl (fun s (r : Fin 4 × SubFrame) => plain_parentDispatch s r.1 r.2) _ _)
  have hchild : ∀ s : Station, ReflTransGen Plain s (childAnalyzeRecvPacket s word buf) :=
    fun s => (hend s _).plain.trans (plain_foldl plain_childDispatch _ _)
  have hfinish : ∀ s : Station, ReflTransGen Plain s ((List.finRange 4).foldl finishRecv s) :=
    fun s => plain_foldl (fun s i => .single (.finishRecv s i)) s _
  unfold cbRecvData
  dsimp only
  split_ifs
  · exact (hend s 0).plain.trans ((hparent _).trans (hfinish _))
  · exact (hend s 0).plain.trans ((hchild _).trans (hfinish _))

theorem plain_changeSendTarget (s : Station) (kind slot bm : Byte) :
    ReflTransGen Plain s (changeSendTarget s kind slot bm).2 := by
  unfold changeSendTarget
  split_ifs
  · exact .single (.changeNi s _ bm)
  · exact .single (.changeUni s _ bm)
  · exact .refl
  · exact .refl

/-- `rfu_clearSlot` after its NI send half. -/
theorem plain_clearSlot (s : Station) (kinds slot : Byte) :
    ReflTransGen Plain s (clearSlot s kinds slot).2 ∨
      ∃ i : Fin 4, kinds.getLsbD 2 = true ∧ slot.toNat = i ∧
        ReflTransGen Plain (clearNiSend s i) (clearSlot s kinds slot).2 := by
  have hrest : ∀ (s : Station) i, ReflTransGen Plain s
      (let s := if kinds.getLsbD 3 then clearNiRecv s i else s
       let s := if kinds.getLsbD 0 then clearUniSend s i else s
       if kinds.getLsbD 1 then clearUniRecv s i else s) := by
    intro s i
    have hrecv : ReflTransGen Plain s (if kinds.getLsbD 3 then clearNiRecv s i else s) := by
      split_ifs
      · exact .single (.clearNiRecv s i)
      · exact .refl
    have huni : ∀ s : Station,
        ReflTransGen Plain s (if kinds.getLsbD 0 then clearUniSend s i else s) := by
      intro s
      split_ifs
      · exact .single (.clearUniSend s i)
      · exact .refl
    have hlast : ∀ s : Station,
        ReflTransGen Plain s (if kinds.getLsbD 1 then clearUniRecv s i else s) := by
      intro s
      split_ifs
      · exact Quiet.plain
          ⟨fun _ => rfl,fun _ => rfl,fun _ => rfl,⟨rfl,rfl,rfl⟩,⟨rfl,rfl⟩,⟨rfl,rfl⟩⟩
      · exact .refl
    exact hrecv.trans ((huni _).trans (hlast _))
  by_cases hslot : slot.toNat < 4
  · by_cases hkinds : kinds &&& 0xF = 0
    · exact .inl (by simp only [clearSlot,dif_pos hslot,if_pos hkinds]; exact .refl)
    · by_cases hsend : kinds.getLsbD 2 = true
      · refine .inr ⟨⟨slot.toNat,hslot⟩,hsend,rfl,?_⟩
        simp only [clearSlot,dif_pos hslot,if_neg hkinds,if_pos hsend]
        exact hrest _ _
      · refine .inl ?_
        simp only [clearSlot,dif_pos hslot,if_neg hkinds,if_neg hsend]
        exact hrest _ _
  · exact .inl (by simp only [clearSlot,dif_neg hslot]; exact .refl)

end Plain

end Rfu
end AgbTools
