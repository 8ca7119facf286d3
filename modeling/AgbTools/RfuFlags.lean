import AgbTools.MaskSets
import AgbTools.RfuBudget

/-! The flag bytes of the link status against the slot tables: each is the disjoint union of the
masks of the active slots, in every run in which no send loses the target its slot is named
after to another send. -/
namespace AgbTools
namespace Rfu

open MaskSets

section Masks

/-- The targets of an NI send in progress. -/
def sendMask (s : Station) (i : Fin 4) : Byte :=
  if (s.niSend i).active then (s.niSend i).bmSlot else 0

/-- The bit of an NI receive in progress. -/
def recvMask (s : Station) (i : Fin 4) : Byte := if (s.niRecv i).active then bit i else 0

/-- The targets of a UNI send in progress. -/
def uniMask (s : Station) (i : Fin 4) : Byte :=
  if (s.uniSend i).active then (s.uniSend i).bmSlot else 0

/-- The flag bytes summarise the slots. -/
structure Coherent (s : Station) : Prop where
  niSend : Owned s.niSendFlag (sendMask s)
  niRecv : Owned s.niRecvFlag (recvMask s)
  uniSend : Owned s.uniSendFlag (uniMask s)

/-- The invariant: the targets of a send are among those it started with, and a receive has the
mask of its slot. -/
structure FlagInv (s : Station) : Prop extends Coherent s where
  orig : ∀ i b, (sendMask s i).getLsbD b = true → (s.niSend i).origSlot.getLsbD b = true
  slot : ∀ i, (s.niRecv i).active = true → (s.niRecv i).bmSlot = bit i

variable {s s' : Station} {i : Fin 4}

/-- What the invariant says of the NI sends. -/
structure SendInv (s : Station) : Prop where
  owned : Owned s.niSendFlag (sendMask s)
  orig : ∀ i b, (sendMask s i).getLsbD b = true → (s.niSend i).origSlot.getLsbD b = true

structure RecvInv (s : Station) : Prop where
  owned : Owned s.niRecvFlag (recvMask s)
  slot : ∀ i, (s.niRecv i).active = true → (s.niRecv i).bmSlot = bit i

def UniInv (s : Station) : Prop := Owned s.uniSendFlag (uniMask s)

theorem flagInv_iff : FlagInv s ↔ SendInv s ∧ RecvInv s ∧ UniInv s :=
  ⟨fun h => ⟨⟨h.niSend,h.orig⟩,⟨h.niRecv,h.slot⟩,h.uniSend⟩,
    fun ⟨hsend,hrecv,huni⟩ => ⟨⟨hsend.owned,hrecv.owned,huni⟩,hsend.orig,hrecv.slot⟩⟩

theorem sendMask_congr (h : sendAccount (s'.niSend i) = sendAccount (s.niSend i)) :
    sendMask s' i = sendMask s i := by
  simp only [sendAccount,Prod.mk.injEq] at h
  rw [sendMask,sendMask,h.1,h.2.2.1]

theorem recvMask_congr (h : (s'.niRecv i).active = (s.niRecv i).active) :
    recvMask s' i = recvMask s i := by
  rw [recvMask,recvMask,h]

theorem SendInv.congr (h : SendInv s)
    (hslots : ∀ i, sendAccount (s'.niSend i) = sendAccount (s.niSend i))
    (hflag : s'.niSendFlag = s.niSendFlag) : SendInv s' := by
  have hmask : sendMask s' = sendMask s := funext fun i => sendMask_congr (hslots i)
  refine ⟨by rw [hmask,hflag]; exact h.owned,fun i b hb => ?_⟩
  have horig := hslots i
  simp only [sendAccount,Prod.mk.injEq] at horig
  rw [hmask] at hb
  rw [horig.2.2.2]
  exact h.orig i b hb

theorem RecvInv.congr (h : RecvInv s)
    (hslots : ∀ i, (s'.niRecv i).active = (s.niRecv i).active ∧
      (s'.niRecv i).bmSlot = (s.niRecv i).bmSlot)
    (hflag : s'.niRecvFlag = s.niRecvFlag) : RecvInv s' := by
  have hmask : recvMask s' = recvMask s := funext fun i => recvMask_congr (hslots i).1
  refine ⟨by rw [hmask,hflag]; exact h.owned,fun i hi => ?_⟩
  rw [(hslots i).2]
  exact h.slot i (by rw [← (hslots i).1]; exact hi)

theorem UniInv.congr (h : UniInv s)
    (hslots : ∀ i, (s'.uniSend i).active = (s.uniSend i).active ∧
      (s'.uniSend i).bmSlot = (s.uniSend i).bmSlot)
    (hflag : s'.uniSendFlag = s.uniSendFlag) : UniInv s' := by
  have hmask : uniMask s' = uniMask s := by
    funext i
    rw [uniMask,uniMask,(hslots i).1,(hslots i).2]
  unfold UniInv
  rw [hmask,hflag]
  exact h

theorem recvMask_bit {b : ℕ} (h : (recvMask s i).getLsbD b = true) : b = i := by
  unfold recvMask at h
  split_ifs at h
  · simpa using h
  · simp at h

/-- Slot `i` of the NI sends changes, to targets among those it started with. -/
theorem SendInv.change (h : SendInv s) (i : Fin 4) (bm : Byte) (hi : sendMask s' i = bm)
    (hother : ∀ j, j ≠ i → sendAccount (s'.niSend j) = sendAccount (s.niSend j))
    (hfree : ∀ j, j ≠ i → ∀ b, bm.getLsbD b = true → (sendMask s j).getLsbD b = false)
    (horig : ∀ b, bm.getLsbD b = true → (s'.niSend i).origSlot.getLsbD b = true)
    (hflag : ∀ b, s'.niSendFlag.getLsbD b = true ↔
      bm.getLsbD b = true ∨ s.niSendFlag.getLsbD b = true ∧ (sendMask s i).getLsbD b = false) :
    SendInv s' := by
  refine ⟨h.owned.change hi (fun j hj => sendMask_congr (hother j hj)) hfree hflag,fun j b hb => ?_⟩
  by_cases hj : j = i
  · subst hj
    rw [hi] at hb
    exact horig b hb
  · have hacc := hother j hj
    rw [sendMask_congr hacc] at hb
    simp only [sendAccount,Prod.mk.injEq] at hacc
    rw [hacc.2.2.2]
    exact h.orig j b hb

/-- A send ends and its flags go. -/
theorem SendInv.leave (h : SendInv s) (i : Fin 4) (hoff : (s'.niSend i).active = false)
    (hother : ∀ j, j ≠ i → sendAccount (s'.niSend j) = sendAccount (s.niSend j))
    (hflag : ∀ b, s'.niSendFlag.getLsbD b = true ↔
      s.niSendFlag.getLsbD b = true ∧ (sendMask s i).getLsbD b = false) : SendInv s' := by
  have hmask : sendMask s' i = 0 := if_neg (by rw [hoff]; exact Bool.false_ne_true)
  refine h.change i 0 hmask hother (fun j _ b hb => ?_) (fun b hb => ?_) (fun b => ?_)
  · simp at hb
  · simp at hb
  · simpa using hflag b

theorem RecvInv.leave (h : RecvInv s) (i : Fin 4) (hoff : (s'.niRecv i).active = false)
    (hother : ∀ j, j ≠ i → s'.niRecv j = s.niRecv j)
    (hflag : s'.niRecvFlag = s.niRecvFlag &&& ~~~bit i) : RecvInv s' := by
  have hmask : recvMask s' i = 0 := if_neg (by rw [hoff]; exact Bool.false_ne_true)
  refine ⟨h.owned.change hmask (fun j hj => recvMask_congr (by rw [hother j hj]))
    (fun j _ b hb => by simp at hb) fun b => ?_,fun j hj => ?_⟩
  · have hclear := h.owned.and_not (i := i) (m := bit i)
      (fun b hb => by simpa using recvMask_bit hb) (fun j hj b hb => ?_) b
    · rw [hflag,hclear]
      simp
    · rw [recvMask_bit hb,getLsbD_bit,decide_eq_false_iff_not]
      exact fun heq => hj (Fin.ext heq)
  · by_cases hji : j = i
    · subst hji
      rw [hoff] at hj
      cases hj
    · rw [hother j hji] at hj ⊢
      exact h.slot j hj

/-- A send in one half leaves the flags of the other halves alone. -/
theorem FlagInv.ofSend (h : FlagInv s) (hsend : SendInv s') (hrecv : s'.niRecv = s.niRecv)
    (huni : s'.uniSend = s.uniSend) (hrflag : s'.niRecvFlag = s.niRecvFlag)
    (huflag : s'.uniSendFlag = s.uniSendFlag) : FlagInv s' := by
  obtain ⟨-,hr,hu⟩ := flagInv_iff.mp h
  exact flagInv_iff.mpr ⟨hsend,hr.congr (fun i => by rw [hrecv]; exact ⟨rfl,rfl⟩) hrflag,
    hu.congr (fun i => by rw [huni]; exact ⟨rfl,rfl⟩) huflag⟩

theorem FlagInv.ofRecv (h : FlagInv s) (hr : RecvInv s') (hsend : s'.niSend = s.niSend)
    (huni : s'.uniSend = s.uniSend) (hsflag : s'.niSendFlag = s.niSendFlag)
    (huflag : s'.uniSendFlag = s.uniSendFlag) : FlagInv s' := by
  obtain ⟨hs,-,hu⟩ := flagInv_iff.mp h
  exact flagInv_iff.mpr ⟨hs.congr (fun i => by rw [hsend]) hsflag,hr,
    hu.congr (fun i => by rw [huni]; exact ⟨rfl,rfl⟩) huflag⟩

theorem FlagInv.ofUni (h : FlagInv s) (hu : UniInv s') (hsend : s'.niSend = s.niSend)
    (hrecv : s'.niRecv = s.niRecv) (hsflag : s'.niSendFlag = s.niSendFlag)
    (hrflag : s'.niRecvFlag = s.niRecvFlag) : FlagInv s' := by
  obtain ⟨hs,hr,-⟩ := flagInv_iff.mp h
  exact flagInv_iff.mpr ⟨hs.congr (fun i => by rw [hsend]) hsflag,
    hr.congr (fun i => by rw [hrecv]; exact ⟨rfl,rfl⟩) hrflag,hu⟩

theorem FlagInv.quiet (h : FlagInv s) (hq : Quiet s s') : FlagInv s' := by
  obtain ⟨hs,hr,hu⟩ := flagInv_iff.mp h
  refine flagInv_iff.mpr ⟨hs.congr hq.send hq.flags.1,hr.congr (fun i => ?_) hq.flags.2.1,
    hu.congr (fun i => ?_) hq.flags.2.2⟩
  · have hacc := hq.recv i
    simp only [recvAccount,Prod.mk.injEq] at hacc
    exact ⟨hacc.1,hacc.2.2⟩
  · have hacc := hq.uni i
    simp only [uniAccount,Prod.mk.injEq] at hacc
    exact ⟨hacc.1,hacc.2.2⟩

end Masks

section Moves
variable {s s' : Station} {i : Fin 4}

theorem sendMask_active (h : (s.niSend i).active = true) : sendMask s i = (s.niSend i).bmSlot :=
  if_pos h

theorem uniMask_active (h : (s.uniSend i).active = true) : uniMask s i = (s.uniSend i).bmSlot :=
  if_pos h

/-- `rfu_changeSendTarget` on an NI send only takes targets away. -/
theorem FlagInv.changeNi (h : FlagInv s) (i : Fin 4) (bm : Byte) : FlagInv (changeNi s i bm).2 := by
  unfold Rfu.changeNi
  dsimp only
  split_ifs with hstate hnew
  · exact h
  · exact h
  · exact h
  · have hactive : (s.niSend i).active = true := by
      have hbit := congrArg (fun x => x.getLsbD 15) (not_not.mp hstate)
      simpa [NiSlot.active] using hbit
    have hmask := sendMask_active hactive
    have hsub : ∀ b, bm.getLsbD b = true → (s.niSend i).bmSlot.getLsbD b = true := by
      intro b hb
      by_contra hold
      have hdiff := and_eq_zero_iff.mp (not_not.mp hnew) b (by simp [hb,hold])
      rw [hb] at hdiff
      cases hdiff
    obtain ⟨huni,hrecv,hflag,hrflag,huflag,-⟩ := shrinkNi_rest s i bm
    have hsend := shrinkNi_send s i bm
    have hi := hsend i
    rw [if_pos rfl] at hi
    simp only [sendAccount,Prod.mk.injEq] at hi
    have hmask' : sendMask (shrinkNi s i bm) i = bm := by
      rw [sendMask,hi.1,hi.2.2.1]
      by_cases hbm : bm = 0
      · simp [hbm]
      · rw [if_neg hbm,hactive,if_pos rfl]
    refine h.ofSend ?_ hrecv huni hrflag huflag
    have hinv := (flagInv_iff.mp h).1
    refine hinv.change i bm hmask' (fun j hj => by rw [hsend j,if_neg hj]) (fun j hj b hb => ?_)
      (fun b hb => ?_) (fun b => ?_)
    · by_contra hother
      have hown : (sendMask s i).getLsbD b = true := by rw [hmask]; exact hsub b hb
      exact hj (hinv.owned.disjoint j i b (by simpa using hother) hown)
    · rw [hi.2.2.2]
      exact hinv.orig i b (by rw [hmask]; exact hsub b hb)
    · rw [hflag,BitVec.and_comm,getLsbD_and_not,BitVec.getLsbD_xor,hmask]
      constructor
      · rintro ⟨hfl,hx⟩
        cases hb : bm.getLsbD b with
        | true => exact .inl rfl
        | false =>
          rw [hb,Bool.false_xor] at hx
          exact .inr ⟨hfl,hx⟩
      · rintro (hb | ⟨hfl,hold⟩)
        · have hown := hsub b hb
          refine ⟨(hinv.owned.cover b).mpr ⟨i,by rw [hmask]; exact hown⟩,?_⟩
          rw [hb,hown]
          rfl
        · refine ⟨hfl,?_⟩
          cases hb : bm.getLsbD b with
          | true =>
            rw [hsub b hb] at hold
            cases hold
          | false =>
            rw [hold]
            rfl

theorem otherUniSlots_bit {b : ℕ} {j : Fin 4} (hj : j ≠ i)
    (h : (otherUniSlots s i).getLsbD b = false) : (s.uniSend j).bmSlot.getLsbD b = false := by
  have hfold : ∀ (is : List (Fin 4)) (m : Byte),
      (is.foldl (fun m k => if k = i then m else m ||| (s.uniSend k).bmSlot) m).getLsbD b = false →
        m.getLsbD b = false ∧ ∀ k ∈ is, k ≠ i → (s.uniSend k).bmSlot.getLsbD b = false := by
    intro is
    induction is with
    | nil => exact fun m hm => ⟨hm,fun k hk => by cases hk⟩
    | cons k is ih =>
      intro m hm
      obtain ⟨hfirst,hrest⟩ := ih _ hm
      dsimp only at hfirst
      by_cases hk : k = i
      · rw [if_pos hk] at hfirst
        refine ⟨hfirst,fun l hl hne => ?_⟩
        obtain rfl | hl := List.mem_cons.mp hl
        · exact absurd hk hne
        · exact hrest l hl hne
      · rw [if_neg hk,BitVec.getLsbD_or,Bool.or_eq_false_iff] at hfirst
        refine ⟨hfirst.1,fun l hl hne => ?_⟩
        obtain rfl | hl := List.mem_cons.mp hl
        · exact hfirst.2
        · exact hrest l hl hne
  exact (hfold _ 0 h).2 j (List.mem_finRange j) hj

/-- One slot of the UNI sends changes. -/
theorem UniInv.change (h : UniInv s) (i : Fin 4) (bm : Byte) (hi : uniMask s' i = bm)
    (hother : ∀ j, j ≠ i → s'.uniSend j = s.uniSend j)
    (hfree : ∀ j, j ≠ i → ∀ b, bm.getLsbD b = true → (uniMask s j).getLsbD b = false)
    (hflag : ∀ b, s'.uniSendFlag.getLsbD b = true ↔
      bm.getLsbD b = true ∨ s.uniSendFlag.getLsbD b = true ∧ (uniMask s i).getLsbD b = false) :
    UniInv s' :=
  Owned.change h hi (fun j hj => by rw [uniMask,uniMask,hother j hj]) hfree hflag

theorem FlagInv.changeUni (h : FlagInv s) (i : Fin 4) (bm : Byte) :
    FlagInv (changeUni s i bm).2 := by
  unfold Rfu.changeUni
  dsimp only
  split_ifs with hstate hother
  · exact h
  · exact h
  · have hactive : (s.uniSend i).active = true := by
      rw [UniSlot.active,not_not.mp hstate]
      rfl
    refine h.ofUni ?_ rfl rfl rfl rfl
    refine (flagInv_iff.mp h).2.2.change i bm ?_ (fun j hj => ?_) (fun j hj b hb => ?_)
      (fun b => ?_)
    · have hactive' : UniSlot.active { s.uniSend i with bmSlot := bm } = true := hactive
      simp [uniMask,hactive']
    · simp [hj]
    · have hclear := and_eq_zero_iff.mp (not_not.mp hother) b hb
      unfold uniMask
      split_ifs
      · exact otherUniSlots_bit hj hclear
      · simp
    · rw [BitVec.getLsbD_or,Bool.or_eq_true,getLsbD_and_not,uniMask_active hactive]

theorem FlagInv.resize (h : FlagInv s) (slot : Byte) (src : ℕ) (size : Byte) :
    FlagInv (uniChangeAndReadySendData s slot src size).2 := by
  unfold uniChangeAndReadySendData
  dsimp only
  split_ifs with hslot
  · exact h
  · exact h
  · refine h.ofUni ?_ (by simp) (by simp) (by simp) (by simp)
    refine (flagInv_iff.mp h).2.2.congr (fun j => ?_) (by simp)
    by_cases hj : j = ⟨slot.toNat,hslot⟩
    · subst hj
      simp [UniSlot.active]
    · simp [hj]
  · exact h

theorem FlagInv.clearNiRecv (h : FlagInv s) (i : Fin 4) : FlagInv (clearNiRecv s i) := by
  unfold Rfu.clearNiRecv
  dsimp only
  have hr := (flagInv_iff.mp h).2.1
  split_ifs
  · exact h.ofRecv (hr.leave i (by simp) (fun j hj => by simp [hj]) (by simp)) (by simp) (by simp)
      (by simp) (by simp)
  · exact h.ofRecv (hr.leave i (by simp) (fun j hj => by simp [hj]) rfl) rfl rfl rfl rfl

theorem FlagInv.stop (h : FlagInv s) (slot : Byte) : FlagInv (niStopReceivingData s slot).2 := by
  have hr := (flagInv_iff.mp h).2.1
  unfold niStopReceivingData
  dsimp only
  split
  next hslot =>
    split
    next =>
      refine h.ofRecv (hr.leave ⟨slot.toNat,hslot⟩ ?_ (fun j hj => by simp [hj]) (by simp))
        (by simp) (by simp) (by simp) (by simp)
      simp only [releaseFrame_niRecv,Function.update_self,NiSlot.active]
      split_ifs <;> rfl
    next => exact h
  next => exact h

theorem FlagInv.refuseData (h : FlagInv s) (i : Fin 4) : FlagInv (refuseData s i) := by
  have hr := (flagInv_iff.mp h).2.1
  unfold Rfu.refuseData
  dsimp only
  exact h.ofRecv (hr.leave i (by simp [NiSlot.active]) (fun j hj => by simp [hj]) (by simp))
    (by simp) (by simp) (by simp) (by simp)

theorem FlagInv.finishRecv (h : FlagInv s) (i : Fin 4) : FlagInv (finishRecv s i) := by
  have hr := (flagInv_iff.mp h).2.1
  unfold Rfu.finishRecv
  dsimp only
  split
  next hstate =>
    have hactive : (s.niRecv i).active = true := by simp [NiSlot.active,hstate.1]
    exact h.ofRecv (hr.leave i (by simp [NiSlot.active]) (fun j hj => by simp [hj])
      (by simp [hr.slot i hactive])) (by simp) (by simp) (by simp) (by simp)
  next => exact h

/-- `rfu_STC_NI_initSlot_asRecvControllData` sets the bit of the slot it opens. -/
theorem FlagInv.control (h : FlagInv s) (i : Fin 4) :
    FlagInv (niInitSlotAsRecvControllData s i) := by
  have hr := (flagInv_iff.mp h).2.1
  unfold niInitSlotAsRecvControllData
  dsimp only
  generalize (if s.mode = .parent then 3 else 2) = header
  split_ifs with hstate
  · exact h
  · have hidle : (s.niRecv i).active = false := by
      rw [NiSlot.active,not_not.mp hstate]
      rfl
    refine h.ofRecv (hr.congr (fun j => ?_) rfl) rfl rfl rfl rfl
    by_cases hj : j = i
    · subst hj
      simp only [Function.update_self,and_true]
      rw [hidle]
      simp [NiSlot.active]
    · simp [hj]
  · have hidle : (s.niRecv i).active = false := by
      rw [NiSlot.active,not_not.mp hstate]
      rfl
    have hold : recvMask s i = 0 := if_neg (by rw [hidle]; exact Bool.false_ne_true)
    refine h.ofRecv ⟨?_,fun j hj => ?_⟩ (by simp) (by simp) (by simp) (by simp)
    · refine hr.owned.change (i := i) (?_ : _ = bit i) (fun j hj => ?_) (fun j hj b hb => ?_)
        (fun b => ?_)
      · simp [recvMask,NiSlot.active]
      · simp [recvMask,hj]
      · by_contra hother
        have hj' := recvMask_bit (s := s) (i := j) (b := b) (by simpa using hother)
        have hi' : b = i := by simpa using hb
        exact hj (Fin.ext (hj'.symm.trans hi'))
      · simp [hold]
    · by_cases hji : j = i
      · subst hji
        simp
      · simp only [setFrameSize_niRecv,Function.update_of_ne hji] at hj ⊢
        exact hr.slot j hj

theorem releaseUni_flags (s : Station) (i : Fin 4) (x : UniSlot) :
    (releaseUni s i x).uniSendFlag = s.uniSendFlag &&& ~~~x.bmSlot ∧
      (releaseUni s i x).niSendFlag = s.niSendFlag ∧
      (releaseUni s i x).niRecvFlag = s.niRecvFlag := by
  unfold releaseUni
  dsimp only
  split_ifs
  · exact ⟨rfl,rfl,rfl⟩
  · exact ⟨rfl,rfl,rfl⟩

theorem FlagInv.clearUniSend (h : FlagInv s) (i : Fin 4) : FlagInv (clearUniSend s i) := by
  have hu := (flagInv_iff.mp h).2.2
  unfold Rfu.clearUniSend
  dsimp only
  split_ifs with hactive
  · obtain ⟨hsend,hrecv,huni,-,-⟩ := releaseUni_rest s i (s.uniSend i)
    obtain ⟨huflag,hsflag,hrflag⟩ := releaseUni_flags s i (s.uniSend i)
    refine h.ofUni ?_ hsend hrecv hsflag hrflag
    refine hu.change i 0 (by simp [uniMask]) (fun j hj => by simp [hj,huni])
      (fun j hj b hb => by simp at hb) (fun b => ?_)
    rw [huflag,← uniMask_active hactive,getLsbD_and_not]
    simp
  · refine h.ofUni ?_ rfl rfl rfl rfl
    refine hu.change i 0 (by simp [uniMask]) (fun j hj => by simp [hj])
      (fun j hj b hb => by simp at hb) (fun b => ?_)
    simp [uniMask,hactive]

theorem FlagInv.clearAll (s : Station) : FlagInv (clearAllSlot s) := by
  have hsend : sendMask (clearAllSlot s) = fun _ => 0 := by
    funext j
    simp [sendMask,clearAllSlot]
  have hrecv : recvMask (clearAllSlot s) = fun _ => 0 := by
    funext j
    simp [recvMask,clearAllSlot]
  have huni : uniMask (clearAllSlot s) = fun _ => 0 := by
    funext j
    simp [uniMask,clearAllSlot]
  refine ⟨⟨?_,?_,?_⟩,fun j b hb => ?_,fun j hj => ?_⟩
  · rw [hsend]
    exact .zero
  · rw [hrecv]
    exact .zero
  · rw [huni]
    exact .zero
  · rw [hsend] at hb
    simp at hb
  · simp [clearAllSlot] at hj

theorem FlagInv.finishSend (h : FlagInv s) (i : Fin 4) : FlagInv (finishSend s i) := by
  have hs := (flagInv_iff.mp h).1
  unfold Rfu.finishSend
  dsimp only
  split
  next hstate =>
    have hactive : (s.niSend i).active = true := by simp [NiSlot.active,hstate]
    refine h.ofSend ?_ (by simp) (by simp) (by simp) (by simp)
    refine hs.leave i (by simp [NiSlot.active]) (fun j hj => by simp [hj]) (fun b => ?_)
    simp only [releaseFrame_flags]
    rw [getLsbD_and_not,sendMask_active hactive]
  next => exact h

theorem FlagInv.plain (h : FlagInv s) (hp : Plain s s') : FlagInv s' := by
  cases hp with
  | quiet hq => exact h.quiet hq
  | changeNi i bm => exact h.changeNi i bm
  | changeUni i bm => exact h.changeUni i bm
  | resize slot src size => exact h.resize slot src size
  | stop slot => exact h.stop slot
  | clearNiRecv i => exact h.clearNiRecv i
  | clearUniSend i => exact h.clearUniSend i
  | clearAll => exact .clearAll s
  | finishSend i => exact h.finishSend i
  | finishRecv i => exact h.finishRecv i
  | control i => exact h.control i
  | refuse i hx => exact h.refuseData i

theorem FlagInv.plains (h : FlagInv s) (hp : Relation.ReflTransGen Plain s s') : FlagInv s' := by
  induction hp with
  | refl => exact h
  | tail _ hstep ih => exact ih.plain hstep

end Moves

section Requests
variable {s : Station} {i : Fin 4}

/-- The targets of the send in progress that a request of kind `k` would find in slot `i`. -/
def ownMask (s : Station) (k : SendKind) (i : Fin 4) : Byte :=
  match k with
  | .uni => (s.uniSend i).bmSlot
  | .ni | .gameName => (s.niSend i).bmSlot

theorem lowestSlot_bit {bm : Byte} (h : bm &&& 0xF ≠ 0) : bm.getLsbD (lowestSlot bm) = true := by
  revert bm
  decide +kernel

theorem sendError_targets {k : SendKind} {bm size : Byte} (h : sendError s k bm size = 0) :
    bm.getLsbD (lowestSlot bm) = true ∧ sendFlag s k &&& bm = 0 := by
  refine ⟨lowestSlot_bit ?_,(sendError_size h).2.2.2⟩
  intro hnone
  unfold sendError at h
  rw [if_pos hnone] at h
  split_ifs at h
  · cases h
  · cases h

/-- An accepted request finds its slot idle when the send in that slot, if there is one, still
has the target the slot is named after. -/
theorem FlagInv.idle (h : FlagInv s) {k : SendKind} {bm size : Byte}
    (herr : sendError s k bm size = 0)
    (hown : slotBusy s k (lowestSlot bm) = true →
      (ownMask s k (lowestSlot bm)).getLsbD (lowestSlot bm) = true) :
    slotBusy s k (lowestSlot bm) = false := by
  obtain ⟨hbit,hfree⟩ := sendError_targets herr
  have hclear : (sendFlag s k).getLsbD (lowestSlot bm) = false := by
    by_contra hset
    rw [and_eq_zero_iff.mp hfree _ (by simpa using hset)] at hbit
    cases hbit
  by_contra hbusy
  rw [Bool.not_eq_false] at hbusy
  have hmask := hown hbusy
  have hset : (sendFlag s k).getLsbD (lowestSlot bm) = true := by
    cases k with
    | ni => exact (h.niSend.cover _).mpr ⟨_,by rw [sendMask_active hbusy]; exact hmask⟩
    | gameName => exact (h.niSend.cover _).mpr ⟨_,by rw [sendMask_active hbusy]; exact hmask⟩
    | uni => exact (h.uniSend.cover _).mpr ⟨_,by rw [uniMask_active hbusy]; exact hmask⟩
  rw [hclear] at hset
  cases hset

theorem FlagInv.startNi (h : FlagInv s) {bm size : Byte} (hfree : s.niSendFlag &&& bm = 0)
    (hidle : (s.niSend (lowestSlot bm)).active = false) (type : Byte) (src dataSize : ℕ) :
    FlagInv (startNi s bm size type src dataSize) := by
  have hs := (flagInv_iff.mp h).1
  have hold : sendMask s (lowestSlot bm) = 0 :=
    if_neg (by rw [hidle]; exact Bool.false_ne_true)
  unfold Rfu.startNi
  dsimp only
  refine h.ofSend ?_ (by simp) (by simp) (by simp) (by simp)
  generalize hx : (s.niSend (lowestSlot bm)).startSend bm type _ src dataSize = x
  have hactive : x.active = true := by
    rw [← hx]
    simp [NiSlot.active,NiSlot.startSend]
  have hbm : x.bmSlot = bm ∧ x.origSlot = bm := by
    rw [← hx]
    exact ⟨rfl,rfl⟩
  have hfail := sendAccount_clearFailCounters (Function.update s.niSend (lowestSlot bm) x) bm
  have hi := hfail (lowestSlot bm)
  rw [Function.update_self] at hi
  simp only [sendAccount,Prod.mk.injEq,hactive,hbm] at hi
  refine hs.change (lowestSlot bm) bm ?_ (fun j hj => ?_) (fun j hj b hb => ?_)
    (fun b hb => ?_) (fun b => ?_)
  · simp only [sendMask,setFrameSize_niSend,hi,if_true]
  · rw [setFrameSize_niSend]
    dsimp only
    rw [hfail j,Function.update_of_ne hj]
  · by_contra hother
    have hset := (hs.owned.cover b).mpr ⟨j,by simpa using hother⟩
    rw [and_eq_zero_iff.mp hfree b hset] at hb
    cases hb
  · simp only [setFrameSize_niSend,hi]
    exact hb
  · simp [hold]

theorem FlagInv.startUni (h : FlagInv s) {bm size : Byte} (hfree : s.uniSendFlag &&& bm = 0)
    (hidle : (s.uniSend (lowestSlot bm)).active = false) (src : ℕ) :
    FlagInv (startUni s bm size src) := by
  have hu := (flagInv_iff.mp h).2.2
  have hold : uniMask s (lowestSlot bm) = 0 :=
    if_neg (by rw [hidle]; exact Bool.false_ne_true)
  unfold Rfu.startUni
  dsimp only
  refine h.ofUni ?_ (by simp) (by simp) (by simp) (by simp)
  refine hu.change (lowestSlot bm) bm ?_ (fun j hj => ?_) (fun j hj b hb => ?_)
    (fun b => ?_)
  · simp [uniMask,UniSlot.active]
  · simp [hj]
  · by_contra hother
    have hset := (Owned.cover hu b).mpr ⟨j,by simpa using hother⟩
    rw [and_eq_zero_iff.mp hfree b hset] at hb
    cases hb
  · simp [hold]

theorem FlagInv.setSendDataOrg (h : FlagInv s) {k : SendKind} {bm size : Byte}
    (hidle : sendError s k bm size = 0 → slotBusy s k (lowestSlot bm) = false) (src dataSize : ℕ) :
    FlagInv (setSendDataOrg s k bm size src dataSize).2 := by
  unfold Rfu.setSendDataOrg
  dsimp only
  split_ifs with herr
  · exact h
  · have hpass := not_not.mp herr
    have hfree := (sendError_targets hpass).2
    cases k with
    | ni => exact h.startNi hfree (hidle hpass) 0 src dataSize
    | gameName => exact h.startNi hfree (hidle hpass) 1 src dataSize
    | uni => exact h.startUni hfree (hidle hpass) src

/-- The original targets of a send that is cleared are not targets of another send. -/
theorem FlagInv.clearNiSend (h : FlagInv s) (i : Fin 4)
    (hown : ∀ j, j ≠ i → (s.niSend j).active = true →
      (s.niSend i).origSlot &&& (s.niSend j).bmSlot = 0) : FlagInv (clearNiSend s i) := by
  have hs := (flagInv_iff.mp h).1
  have hother : ∀ j, j ≠ i → ∀ b, (sendMask s j).getLsbD b = true →
      (s.niSend i).origSlot.getLsbD b = false := by
    intro j hj b hb
    unfold sendMask at hb
    split_ifs at hb with hactive
    · by_contra horig
      rw [and_eq_zero_iff.mp (hown j hj hactive) b (by simpa using horig)] at hb
      cases hb
    · simp at hb
  have hflag := hs.owned.and_not (hs.orig i) hother
  unfold Rfu.clearNiSend
  dsimp only
  split_ifs
  · exact h.ofSend (hs.leave i (by simp) (fun j hj => by simp [hj]) (by simpa using hflag))
      (by simp) (by simp) (by simp) (by simp)
  · exact h.ofSend (hs.leave i (by simp) (fun j hj => by simp [hj]) hflag) rfl rfl rfl rfl

end Requests

section Run
variable {s : Station}

/-- A request that passes the checks does not have as its lowest target one that the send in
progress in that slot has given up. -/
def RequestsOwnTarget (s : Station) (e : Event) : Prop :=
  ∀ q ∈ e.request s, sendError s q.1 q.2.1 q.2.2 = 0 → slotBusy s q.1 (lowestSlot q.2.1) = true →
    (ownMask s q.1 (lowestSlot q.2.1)).getLsbD (lowestSlot q.2.1) = true

instance (s : Station) (e : Event) : Decidable (RequestsOwnTarget s e) :=
  inferInstanceAs (Decidable (∀ q ∈ e.request s, _ → _ → _ = _))

/-- The NI send half of a slot is not cleared while an original target of it belongs to another
send in progress. -/
def ClearsOwnTargets (s : Station) : Event → Prop
  | .clearSlot kinds slot => kinds.getLsbD 2 = true → ∀ i j : Fin 4, slot.toNat = i → j ≠ i →
      (s.niSend j).active = true → (s.niSend i).origSlot &&& (s.niSend j).bmSlot = 0
  | _ => True

instance (s : Station) (e : Event) : Decidable (ClearsOwnTargets s e) :=
  match e with
  | .clearSlot _ _ => inferInstanceAs (Decidable (_ = true → ∀ _ _ : Fin 4, _ → _ → _ → _ = _))
  | .niSetSendData .. | .uniSetSendData .. | .niChildSetSendGameName .. | .uniChangeAndReadySendData ..
  | .uniReadySendData .. | .uniClearRecvNewDataFlag .. | .changeSendTarget .. | .niStopReceivingData ..
  | .clearAllSlot | .setRecvBuffer .. | .constructSendLLFrame | .cbSendData .. | .cbRecvData ..
  | .niCheckCommFailCounter | .connect .. | .removeLinkData .. => isTrue trivial

/-- The condition on one event. -/
def KeepsTargets (s : Station) (e : Event) : Prop := RequestsOwnTarget s e ∧ ClearsOwnTargets s e

instance (s : Station) (e : Event) : Decidable (KeepsTargets s e) :=
  inferInstanceAs (Decidable (_ ∧ _))

theorem FlagInv.sendsToIdleSlot (h : FlagInv s) {e : Event} (hown : RequestsOwnTarget s e) :
    SendsToIdleSlot s e :=
  fun q hq herr => h.idle herr (hown q hq herr)

theorem FlagInv.connect (h : FlagInv s) (r : Role) (i : Fin 4) : FlagInv (connect s r i) := by
  cases r with
  | parent =>
    show FlagInv (readChild s i)
    unfold readChild
    split_ifs
    · exact h
    · exact ⟨⟨h.niSend,h.niRecv,h.uniSend⟩,h.orig,h.slot⟩
  | child =>
    show FlagInv (connectParent s i)
    unfold connectParent
    split_ifs
    · exact h
    · exact ⟨⟨h.niSend,h.niRecv,h.uniSend⟩,h.orig,h.slot⟩

theorem FlagInv.removeLinkData (h : FlagInv s) (i : Fin 4) (forget : Bool) :
    FlagInv (Rfu.removeLinkData s i forget) := by
  cases forget with
  | true => exact ⟨⟨h.niSend,h.niRecv,h.uniSend⟩,h.orig,h.slot⟩
  | false => exact ⟨⟨h.niSend,h.niRecv,h.uniSend⟩,h.orig,h.slot⟩

theorem FlagInv.step (s : Station) (e : Event) (h : FlagInv s) (hok : KeepsTargets s e) :
    FlagInv (step s e) := by
  have hidle := h.sendsToIdleSlot hok.1
  cases e with
  | niSetSendData bm size src dataSize =>
    exact h.setSendDataOrg (hidle (.ni,bm,size) rfl) src dataSize
  | uniSetSendData bm src size =>
    exact h.setSendDataOrg (hidle (.uni,bm,uniSize s size) rfl) src 0
  | niChildSetSendGameName slot size =>
    exact h.setSendDataOrg (hidle (.gameName,1#8 <<< slot.toNat,size) rfl) _ _
  | uniChangeAndReadySendData slot src size => exact h.resize slot src size
  | uniReadySendData slot => exact h.quiet (.uniReadySendData s slot)
  | uniClearRecvNewDataFlag slot => exact h.quiet (.uniClearRecvNewDataFlag s slot)
  | changeSendTarget kind slot bm => exact h.plains (plain_changeSendTarget s kind slot bm)
  | niStopReceivingData slot => exact h.stop slot
  | clearSlot kinds slot =>
    obtain hplain | ⟨i,hkind,hslot,hplain⟩ := plain_clearSlot s kinds slot
    · exact h.plains hplain
    · exact (h.clearNiSend i fun j => hok.2 hkind i j hslot).plains hplain
  | clearAllSlot => exact .clearAll s
  | setRecvBuffer kind slot address size => exact h.quiet (.setRecvBuffer s kind slot address size)
  | constructSendLLFrame => exact h.quiet (.constructSendLLFrame s)
  | cbSendData result => exact h.plains (plain_cbSendData s result)
  | cbRecvData word buf => exact h.plains (plain_cbRecvData s word buf)
  | niCheckCommFailCounter => exact h.quiet (.niCheckCommFailCounter s)
  | connect r i => exact h.connect r i
  | removeLinkData i forget => exact h.removeLinkData i forget

end Run

end Rfu
end AgbTools
