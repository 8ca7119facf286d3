import Mathlib.Algebra.BigOperators.Fin
import Mathlib.Algebra.Order.BigOperators.Group.Finset
import AgbTools.RfuSlots

/-! The frame budget: every byte of it is free or reserved by an active slot, in every run that
does not send on top of an active slot. -/
namespace AgbTools
namespace Rfu

section Budget

def Role.header : Role → ℕ
  | .parent => 3
  | .child => 2

/-- What the active halves of slot `i` reserve. -/
def slotCost (r : Role) (s : Station) (i : Fin 4) : ℕ :=
  (if (s.niSend i).active then (s.niSend i).payloadSize + r.header else 0) +
  (if (s.uniSend i).active then (s.uniSend i).payloadSize + r.header else 0) +
  (if (s.niRecv i).active then r.header else 0)

/-- The budget byte slot `i` draws on. -/
def free (r : Role) (s : Station) (i : Fin 4) : ℕ :=
  match r with
  | .parent => s.parentFrame
  | .child => s.childFrame i

/-- The budget bytes are what the active slots leave of 0x57 bytes of a parent and of 0x10
bytes for each slot of a child. -/
def BudgetExact (r : Role) (s : Station) : Prop :=
  match r with
  | .parent => s.parentFrame + ∑ i, slotCost .parent s i = 0x57
  | .child => ∀ i, s.childFrame i + slotCost .child s i = 0x10

variable {r : Role} {s s' : Station} {i : Fin 4}

theorem BudgetExact.le (h : BudgetExact r s) (i : Fin 4) : free r s i + slotCost r s i ≤ 0x57 := by
  cases r with
  | parent =>
    have hsum : slotCost .parent s i ≤ ∑ j, slotCost .parent s j :=
      Finset.single_le_sum (fun _ _ => Nat.zero_le _) (Finset.mem_univ i)
    have htotal : s.parentFrame + ∑ j, slotCost .parent s j = 0x57 := h
    show s.parentFrame + slotCost .parent s i ≤ 0x57
    omega
  | child =>
    have hslot : s.childFrame i + slotCost .child s i = 0x10 := h i
    show s.childFrame i + slotCost .child s i ≤ 0x57
    omega

/-- A change of one slot that is balanced by the budget byte it draws on. -/
theorem BudgetExact.move (h : BudgetExact r s) (i : Fin 4)
    (hcost : ∀ j, j ≠ i → slotCost r s' j = slotCost r s j)
    (hframe : ∀ j, j ≠ i → s'.childFrame j = s.childFrame j)
    (hi : free r s' i + slotCost r s' i = free r s i + slotCost r s i) : BudgetExact r s' := by
  cases r with
  | parent =>
    have hsum := Finset.add_sum_erase Finset.univ (slotCost .parent s) (Finset.mem_univ i)
    have hsum' := Finset.add_sum_erase Finset.univ (slotCost .parent s') (Finset.mem_univ i)
    have hrest : ∑ j ∈ Finset.univ.erase i, slotCost .parent s' j =
        ∑ j ∈ Finset.univ.erase i, slotCost .parent s j :=
      Finset.sum_congr rfl fun j hj => hcost j (Finset.ne_of_mem_erase hj)
    have htotal : s.parentFrame + ∑ j, slotCost .parent s j = 0x57 := h
    have hbyte : s'.parentFrame + slotCost .parent s' i =
        s.parentFrame + slotCost .parent s i := hi
    show s'.parentFrame + ∑ j, slotCost .parent s' j = 0x57
    omega
  | child =>
    intro j
    by_cases hj : j = i
    · subst hj
      have hold : s.childFrame j + slotCost .child s j = 0x10 := h j
      have hbyte : s'.childFrame j + slotCost .child s' j =
          s.childFrame j + slotCost .child s j := hi
      omega
    · rw [hframe j hj,hcost j hj]
      exact h j

/-- The console is connected as `r`; a child may have lost its links. -/
structure InRole (r : Role) (s : Station) : Prop where
  child : s.child = decide (r = .child)
  mode : s.mode = .parent ↔ r = .parent

/-- The invariant of the budget. Receives send headers only, because their states have
bit 0x40. -/
structure BudgetInv (r : Role) (s : Station) : Prop where
  exact : BudgetExact r s
  role : InRole r s
  recv : ∀ i, (s.niRecv i).active = true → (s.niRecv i).state.getLsbD 6 = true

theorem frameSize_eq_free (h : InRole r s) (i : Fin 4) : frameSize s i = free r s i := by
  cases r with
  | parent => exact if_pos (h.mode.mpr rfl)
  | child => exact if_neg fun hm => by cases h.mode.mp hm

theorem free_setFrameSize (h : InRole r s) (i : Fin 4) (v : ℕ) :
    free r (setFrameSize s i v) i = v := by
  cases r with
  | parent =>
    have hm : s.mode = .parent := h.mode.mpr rfl
    simp [setFrameSize,hm,free]
  | child =>
    have hm : s.mode ≠ .parent := fun hm => by cases h.mode.mp hm
    simp [setFrameSize,hm,free]

theorem setFrameSize_childFrame (s : Station) (i : Fin 4) (v : ℕ) (j : Fin 4) (hj : j ≠ i) :
    (setFrameSize s i v).childFrame j = s.childFrame j := by
  unfold setFrameSize
  split_ifs
  · rfl
  · simp [hj]

theorem free_releaseFrame (h : InRole r s) (i : Fin 4) (recv : Bool) (x : NiSlot) :
    free r (releaseFrame s i recv x) i =
      (free r s i + (if recv then 0 else x.payloadSize) + r.header) % 256 := by
  cases r with
  | parent =>
    have hc : s.child = false := h.child
    simp [releaseFrame,hc,free,Role.header]
  | child =>
    have hc : s.child = true := h.child
    simp [releaseFrame,hc,free,Role.header]

theorem releaseFrame_childFrame (s : Station) (i : Fin 4) (recv : Bool) (x : NiSlot) (j : Fin 4)
    (hj : j ≠ i) : (releaseFrame s i recv x).childFrame j = s.childFrame j := by
  cases hc : s.child <;> simp [releaseFrame,hc,hj]

theorem slotCost_congr {j : Fin 4} (hsend : sendAccount (s'.niSend j) = sendAccount (s.niSend j))
    (huni : uniAccount (s'.uniSend j) = uniAccount (s.uniSend j))
    (hrecv : recvAccount (s'.niRecv j) = recvAccount (s.niRecv j)) :
    slotCost r s' j = slotCost r s j := by
  simp only [sendAccount,uniAccount,recvAccount,Prod.mk.injEq] at hsend huni hrecv
  simp only [slotCost,hsend.1,hsend.2.1,huni.1,huni.2.1,hrecv.1]

theorem InRole.congr (h : InRole r s) (hrole : s'.mode = s.mode ∧ s'.child = s.child) :
    InRole r s' :=
  ⟨hrole.2.trans h.child,by rw [hrole.1]; exact h.mode⟩

theorem BudgetInv.quiet (h : BudgetInv r s) (hq : Quiet s s') : BudgetInv r s' where
  exact := by
    have hcost : ∀ j, slotCost r s' j = slotCost r s j :=
      fun j => slotCost_congr (hq.send j) (hq.uni j) (hq.recv j)
    have hfree : free r s' 0 = free r s 0 := by
      cases r with
      | parent => exact hq.frames.1
      | child => exact congrFun hq.frames.2 0
    refine h.exact.move 0 (fun j _ => hcost j) (fun j _ => congrFun hq.frames.2 j) ?_
    rw [hcost,hfree]
  role := h.role.congr hq.role
  recv j hj := by
    have hacc := hq.recv j
    simp only [recvAccount,Prod.mk.injEq] at hacc
    rw [hacc.2.1]
    exact h.recv j (by rw [← hacc.1]; exact hj)

/-- The other slots keep their accounts. -/
def OtherSlots (i : Fin 4) (s s' : Station) : Prop :=
  ∀ j, j ≠ i → sendAccount (s'.niSend j) = sendAccount (s.niSend j) ∧
    uniAccount (s'.uniSend j) = uniAccount (s.uniSend j) ∧ s'.niRecv j = s.niRecv j

/-- `BudgetExact.move` for the invariant. -/
theorem BudgetInv.move (h : BudgetInv r s) (i : Fin 4) (hother : OtherSlots i s s')
    (hframe : ∀ j, j ≠ i → s'.childFrame j = s.childFrame j)
    (hrole : s'.mode = s.mode ∧ s'.child = s.child)
    (hrecv : (s'.niRecv i).active = true → (s'.niRecv i).state.getLsbD 6 = true)
    (hi : free r s' i + slotCost r s' i = free r s i + slotCost r s i) : BudgetInv r s' where
  exact := by
    refine h.exact.move i (fun j hj => ?_) hframe hi
    obtain ⟨hsend,huni,hsame⟩ := hother j hj
    exact slotCost_congr hsend huni (by rw [hsame])
  role := h.role.congr hrole
  recv j hj := by
    by_cases hji : j = i
    · subst hji
      exact hrecv hj
    · rw [(hother j hji).2.2] at hj ⊢
      exact h.recv j hj

end Budget

section Moves
variable {r : Role} {s s' : Station} {i : Fin 4}

theorem otherSlots_updateSend {x : NiSlot} (hs : s'.niSend = Function.update s.niSend i x)
    (huni : s'.uniSend = s.uniSend) (hrecv : s'.niRecv = s.niRecv) : OtherSlots i s s' := by
  intro j hj
  simp [hs,huni,hrecv,hj]

theorem otherSlots_updateUni {x : UniSlot} (hsend : s'.niSend = s.niSend)
    (hs : s'.uniSend = Function.update s.uniSend i x) (hrecv : s'.niRecv = s.niRecv) :
    OtherSlots i s s' := by
  intro j hj
  simp [hs,hsend,hrecv,hj]

theorem otherSlots_updateRecv {x : NiSlot} (hsend : s'.niSend = s.niSend)
    (huni : s'.uniSend = s.uniSend) (hs : s'.niRecv = Function.update s.niRecv i x) :
    OtherSlots i s s' := by
  intro j hj
  simp [hs,hsend,huni,hj]

theorem free_congr (hparent : s'.parentFrame = s.parentFrame)
    (hchild : s'.childFrame i = s.childFrame i) : free r s' i = free r s i := by
  cases r with
  | parent => exact hparent
  | child => exact hchild

/-- The budget bytes of `s'` are those of `s` after `rfu_STC_releaseFrame`. -/
structure Released (i : Fin 4) (recv : Bool) (x : NiSlot) (s s' : Station) : Prop where
  parent : s'.parentFrame = (releaseFrame s i recv x).parentFrame
  child : s'.childFrame = (releaseFrame s i recv x).childFrame

theorem released_releaseFrame {s₀ : Station} (hchild : s₀.child = s.child)
    (hparent : s₀.parentFrame = s.parentFrame) (hframe : s₀.childFrame = s.childFrame)
    (recv : Bool) (x : NiSlot) : Released i recv x s (releaseFrame s₀ i recv x) := by
  cases hc : s.child <;> constructor <;> simp [releaseFrame,hchild,hc,hparent,hframe]

theorem Released.free {recv : Bool} {x : NiSlot} (h : Released i recv x s s') (hr : InRole r s) :
    free r s' i = (free r s i + (if recv then 0 else x.payloadSize) + r.header) % 256 := by
  rw [← free_releaseFrame hr i recv x]
  exact free_congr h.parent (congrFun h.child i)

theorem Released.other {recv : Bool} {x : NiSlot} (h : Released i recv x s s') (j : Fin 4)
    (hj : j ≠ i) : s'.childFrame j = s.childFrame j := by
  rw [h.child,releaseFrame_childFrame _ _ _ _ _ hj]

/-- A receive that ends gives its header back. -/
theorem BudgetInv.endRecv (h : BudgetInv r s) {x y : NiSlot} (hactive : (s.niRecv i).active = true)
    (hx : x.active = false) (hsend : s'.niSend = s.niSend) (huni : s'.uniSend = s.uniSend)
    (hrecv : s'.niRecv = Function.update s.niRecv i x)
    (hrole : s'.mode = s.mode ∧ s'.child = s.child) (hrel : Released i true y s s') :
    BudgetInv r s' := by
  have hle := h.exact.le i
  refine h.move i (otherSlots_updateRecv hsend huni hrecv) hrel.other hrole ?_ ?_
  · intro hact
    rw [hrecv,Function.update_self,hx] at hact
    cases hact
  · rw [hrel.free h.role]
    simp only [slotCost,hsend,huni,hrecv,Function.update_self,hx,hactive,if_true,
      Bool.false_eq_true,if_false] at hle ⊢
    omega

/-- A send that ends gives back its payload and its header. -/
theorem BudgetInv.endSend (h : BudgetInv r s) {x y : NiSlot} (hactive : (s.niSend i).active = true)
    (hx : x.active = false) (hy : y.payloadSize = (s.niSend i).payloadSize)
    (hi : sendAccount (s'.niSend i) = sendAccount x)
    (hother : ∀ j, j ≠ i → sendAccount (s'.niSend j) = sendAccount (s.niSend j))
    (huni : s'.uniSend = s.uniSend) (hrecv : s'.niRecv = s.niRecv)
    (hrole : s'.mode = s.mode ∧ s'.child = s.child) (hrel : Released i false y s s') :
    BudgetInv r s' := by
  have hle := h.exact.le i
  have hoff : (s'.niSend i).active = false := by
    simp only [sendAccount,Prod.mk.injEq] at hi
    rw [hi.1,hx]
  refine h.move i (fun j hj => ⟨hother j hj,by rw [huni],by rw [hrecv]⟩) hrel.other hrole ?_ ?_
  · rw [hrecv]
    exact h.recv i
  · rw [hrel.free h.role,hy]
    simp only [slotCost,huni,hrecv,hoff,hactive,if_true,Bool.false_eq_true,if_false] at hle ⊢
    omega

theorem BudgetInv.clearNiRecv (h : BudgetInv r s) (i : Fin 4) : BudgetInv r (clearNiRecv s i) := by
  unfold Rfu.clearNiRecv
  dsimp only
  split_ifs with hactive
  · have hrel : Released i true (s.niRecv i) s (releaseFrame
        { s with niRecvFlag := s.niRecvFlag &&& ~~~bit i } i true (s.niRecv i)) :=
      released_releaseFrame (by rfl) (by rfl) (by rfl) _ _
    exact h.endRecv hactive NiSlot.active_zero (by simp) (by simp) (by simp) (by simp)
      ⟨hrel.parent,hrel.child⟩
  · refine h.move i (otherSlots_updateRecv rfl rfl rfl) (fun _ _ => rfl) ⟨rfl,rfl⟩ (by simp) ?_
    refine congrArg₂ (· + ·) (free_congr rfl rfl) ?_
    simp [slotCost,hactive]

theorem BudgetInv.clearNiSend (h : BudgetInv r s) (i : Fin 4) : BudgetInv r (clearNiSend s i) := by
  unfold Rfu.clearNiSend
  dsimp only
  split_ifs with hactive
  · have hrel : Released i false (s.niSend i) s (releaseFrame
        { s with niSendFlag := s.niSendFlag &&& ~~~(s.niSend i).origSlot } i false
        (s.niSend i)) :=
      released_releaseFrame (by rfl) (by rfl) (by rfl) _ _
    refine h.endSend hactive NiSlot.active_zero rfl (by simp) (fun j hj => ?_) (by simp) (by simp)
      (by simp) ⟨hrel.parent,hrel.child⟩
    simp [hj]
  · refine h.move i (otherSlots_updateSend rfl rfl rfl) (fun _ _ => rfl) ⟨rfl,rfl⟩ (h.recv i) ?_
    refine congrArg₂ (· + ·) (free_congr rfl rfl) ?_
    simp [slotCost,hactive]

theorem BudgetInv.finishSend (h : BudgetInv r s) (i : Fin 4) : BudgetInv r (finishSend s i) := by
  unfold Rfu.finishSend
  dsimp only
  split
  next hstate =>
    have hrel : Released i false (s.niSend i) s (releaseFrame s i false (s.niSend i)) :=
      released_releaseFrame (by rfl) (by rfl) (by rfl) _ _
    have hactive : (s.niSend i).active = true := by simp [NiSlot.active,hstate]
    have hdone : NiSlot.active { s.niSend i with state := 0x26 } = false := by simp [NiSlot.active]
    refine h.endSend hactive hdone rfl (by simp) (fun j hj => ?_) (by simp) (by simp) (by simp)
      ⟨hrel.parent,hrel.child⟩
    simp [hj]
  next => exact h

theorem BudgetInv.finishRecv (h : BudgetInv r s) (i : Fin 4) : BudgetInv r (finishRecv s i) := by
  unfold Rfu.finishRecv
  dsimp only
  split
  next hstate =>
    have hactive : (s.niRecv i).active = true := by simp [NiSlot.active,hstate.1]
    have hdone : NiSlot.active { s.niRecv i with state := 0x46 } = false := by simp [NiSlot.active]
    have hrel : ∀ name, Released i true (s.niRecv i) s
        (releaseFrame { s with nameFlag := name } i true (s.niRecv i)) :=
      fun name => released_releaseFrame (by rfl) (by rfl) (by rfl) _ _
    exact h.endRecv hactive hdone (by simp) (by simp) (by simp) (by simp)
      ⟨(hrel _).parent,(hrel _).child⟩
  next => exact h

theorem BudgetInv.refuseData (h : BudgetInv r s) (i : Fin 4) (hx : (s.niRecv i).state = 0x8041) :
    BudgetInv r (refuseData s i) := by
  have hactive : (s.niRecv i).active = true := by simp [NiSlot.active,hx]
  have hdone : NiSlot.active { s.niRecv i with errorCode := 0x701, state := 0x47 } = false := by
    simp [NiSlot.active]
  unfold Rfu.refuseData
  dsimp only
  exact h.endRecv hactive hdone (by simp) (by simp) (by simp) (by simp)
    (released_releaseFrame (by rfl) (by rfl) (by rfl) _ _)

theorem BudgetInv.stop (h : BudgetInv r s) (slot : Byte) :
    BudgetInv r (niStopReceivingData s slot).2 := by
  unfold niStopReceivingData
  dsimp only
  split
  next hslot =>
    split
    next hactive =>
      have hdone : NiSlot.active { s.niRecv ⟨slot.toNat,hslot⟩ with
          state := if (s.niRecv ⟨slot.toNat,hslot⟩).state = 0x8043 then 0x48 else 0x47 } =
          false := by
        unfold NiSlot.active
        dsimp only
        split_ifs <;> rfl
      exact h.endRecv hactive hdone (by simp) (by simp) (by simp) (by simp)
        (released_releaseFrame (by rfl) (by rfl) (by rfl) _ _)
    next => exact h
  next => exact h

/-- A slot changes its reservation and the budget byte is set to what is left. -/
theorem BudgetInv.reserve (h : BudgetInv r s) {s₀ : Station} (v : ℕ)
    (hother : OtherSlots i s s₀) (hchild : s₀.childFrame = s.childFrame)
    (hrole : s₀.mode = s.mode ∧ s₀.child = s.child)
    (hrecv : (s₀.niRecv i).active = true → (s₀.niRecv i).state.getLsbD 6 = true)
    (hv : v + slotCost r s₀ i = free r s i + slotCost r s i) :
    BudgetInv r (setFrameSize s₀ i v) := by
  refine h.move i (fun j hj => ?_) (fun j hj => ?_) (by simpa using hrole) (by simpa using hrecv) ?_
  · simpa using hother j hj
  · rw [setFrameSize_childFrame _ _ _ _ hj,hchild]
  · rw [free_setFrameSize (h.role.congr hrole),← hv]
    simp [slotCost]

theorem BudgetInv.control (h : BudgetInv r s) (i : Fin 4) :
    BudgetInv r (niInitSlotAsRecvControllData s i) := by
  have hheader : (if s.mode = .parent then 3 else 2) = r.header := by
    cases r with
    | parent => exact if_pos (h.role.mode.mpr rfl)
    | child => exact if_neg fun hm => by cases h.role.mode.mp hm
  unfold niInitSlotAsRecvControllData
  dsimp only
  rw [hheader,frameSize_eq_free h.role]
  split_ifs with hstate hsmall
  · exact h
  · have hidle : (s.niRecv i).active = false := by
      simp only [NiSlot.active,not_not.mp hstate]
      rfl
    have hfail : NiSlot.active { s.niRecv i with state := 0x49, errorCode := 0x702 } = false := by
      simp [NiSlot.active]
    refine h.move i (otherSlots_updateRecv rfl rfl rfl) (fun _ _ => rfl) ⟨rfl,rfl⟩ ?_ ?_
    · simp
    · refine congrArg₂ (· + ·) (free_congr rfl rfl) ?_
      simp only [slotCost,Function.update_self,hidle,hfail]
  · have hidle : (s.niRecv i).active = false := by
      simp only [NiSlot.active,not_not.mp hstate]
      rfl
    refine h.reserve _ (otherSlots_updateRecv rfl rfl rfl) rfl ⟨rfl,rfl⟩ ?_ ?_
    · simp
    · simp only [slotCost,Function.update_self,hidle]
      simp [NiSlot.active]
      omega

/-- Without targets an NI send is over. -/
theorem released_shrinkNi (s : Station) (i : Fin 4) {bm : Byte} (hbm : bm = 0) :
    ∃ y : NiSlot, y.payloadSize = (s.niSend i).payloadSize ∧
      Released i false y s (shrinkNi s i bm) := by
  have hfail := sendAccount_clearFailCounters s.niSend (bm ^^^ (s.niSend i).bmSlot) i
  simp only [sendAccount,Prod.mk.injEq] at hfail
  unfold shrinkNi
  dsimp only
  rw [if_pos hbm]
  have hrel : ∀ (g : Fin 4 → NiSlot) (flag : Byte) (x : NiSlot), Released i false x s
      (releaseFrame { s with niSend := g, niSendFlag := flag } i false x) :=
    fun g flag x => released_releaseFrame (by rfl) (by rfl) (by rfl) _ _
  refine ⟨_,?_,⟨(hrel _ _ _).parent,(hrel _ _ _).child⟩⟩
  rw [Function.update_self]
  exact hfail.2.1

theorem BudgetInv.changeNi (h : BudgetInv r s) (i : Fin 4) (bm : Byte) :
    BudgetInv r (changeNi s i bm).2 := by
  unfold Rfu.changeNi
  dsimp only
  split_ifs with hstate
  · exact h
  · exact h
  · exact h
  · have hactive : (s.niSend i).active = true := by
      have hbit := congrArg (fun x => x.getLsbD 15) (not_not.mp hstate)
      simpa [NiSlot.active] using hbit
    obtain ⟨huni,hrecv,-,-,-,hrole⟩ := shrinkNi_rest s i bm
    have hsend := shrinkNi_send s i bm
    have hother : ∀ j, j ≠ i →
        sendAccount ((shrinkNi s i bm).niSend j) = sendAccount (s.niSend j) := by
      intro j hj
      rw [hsend j,if_neg hj]
    have hi := hsend i
    rw [if_pos rfl] at hi
    simp only [sendAccount,Prod.mk.injEq] at hi
    by_cases hbm : bm = 0
    · obtain ⟨y,hy,hrel⟩ := released_shrinkNi s i hbm
      rw [if_pos hbm] at hi
      exact h.endSend hactive hi.1 hy rfl hother huni hrecv hrole hrel
    · have hframes : (shrinkNi s i bm).parentFrame = s.parentFrame ∧
          (shrinkNi s i bm).childFrame = s.childFrame := by
        unfold shrinkNi
        dsimp only
        rw [if_neg hbm]
        exact ⟨rfl,rfl⟩
      rw [if_neg hbm] at hi
      refine h.move i (fun j hj => ⟨hother j hj,by rw [huni],by rw [hrecv]⟩)
        (fun j _ => by rw [hframes.2]) hrole (by rw [hrecv]; exact h.recv i) ?_
      rw [free_congr hframes.1 (by rw [hframes.2])]
      simp only [slotCost,hi.1,hi.2.1,huni,hrecv]

theorem BudgetInv.changeUni (h : BudgetInv r s) (i : Fin 4) (bm : Byte) :
    BudgetInv r (changeUni s i bm).2 := by
  unfold Rfu.changeUni
  dsimp only
  split_ifs
  · exact h
  · exact h
  · refine h.move i (otherSlots_updateUni rfl rfl rfl) (fun _ _ => rfl) ⟨rfl,rfl⟩ (h.recv i) ?_
    refine congrArg₂ (· + ·) (free_congr rfl rfl) ?_
    simp [slotCost,UniSlot.active]

theorem BudgetInv.resize (h : BudgetInv r s) (slot : Byte) (src : ℕ) (size : Byte) :
    BudgetInv r (uniChangeAndReadySendData s slot src size).2 := by
  unfold uniChangeAndReadySendData
  dsimp only
  split_ifs with hslot hstate hsmall
  · exact h
  · exact h
  · have hactive : (s.uniSend ⟨slot.toNat,hslot⟩).active = true := by
      simp [UniSlot.active,not_not.mp hstate]
    have hle := h.exact.le ⟨slot.toNat,hslot⟩
    rw [frameSize_eq_free h.role] at hsmall ⊢
    refine h.reserve _ (otherSlots_updateUni rfl rfl rfl) rfl ⟨rfl,rfl⟩ (h.recv _) ?_
    have hactive' : UniSlot.active { s.uniSend ⟨slot.toNat,hslot⟩ with
        src := src, payloadSize := size.toNat, ready := true } = true := hactive
    simp only [slotCost,Function.update_self,hactive,hactive',if_true] at hle ⊢
    omega
  · exact h

theorem releaseUni_frames (h : InRole r s) (i : Fin 4) (x : UniSlot) :
    free r (releaseUni s i x) i = (free r s i + r.header + x.payloadSize) % 256 ∧
      ∀ j, j ≠ i → (releaseUni s i x).childFrame j = s.childFrame j := by
  cases r with
  | parent =>
    have hc : s.child = false := h.child
    simp [releaseUni,hc,free,Role.header]
  | child =>
    have hc : s.child = true := h.child
    simp only [releaseUni,hc,if_true,free,Role.header,Function.update_self,true_and]
    intro j hj
    simp [hj]

theorem releaseUni_rest (s : Station) (i : Fin 4) (x : UniSlot) :
    (releaseUni s i x).niSend = s.niSend ∧ (releaseUni s i x).niRecv = s.niRecv ∧
      (releaseUni s i x).uniSend = s.uniSend ∧ (releaseUni s i x).mode = s.mode ∧
      (releaseUni s i x).child = s.child := by
  unfold releaseUni
  dsimp only
  split_ifs
  all_goals exact ⟨rfl,rfl,rfl,rfl,rfl⟩

theorem BudgetInv.clearUniSend (h : BudgetInv r s) (i : Fin 4) :
    BudgetInv r (clearUniSend s i) := by
  have hle := h.exact.le i
  unfold Rfu.clearUniSend
  dsimp only
  split_ifs with hactive
  · obtain ⟨hsend,hrecv,huni,hmode,hchild⟩ := releaseUni_rest s i (s.uniSend i)
    obtain ⟨hfree,hframe⟩ := releaseUni_frames h.role i (s.uniSend i)
    refine h.move i (otherSlots_updateUni (x := .zero) hsend (by rw [huni]) hrecv) hframe
      ⟨hmode,hchild⟩ ?_ ?_
    · rw [hrecv]
      exact h.recv i
    · have hfree' : ∀ g, free r { releaseUni s i (s.uniSend i) with uniSend := g } i =
          (free r s i + r.header + (s.uniSend i).payloadSize) % 256 :=
        fun g => (free_congr (by rfl) (by rfl)).trans hfree
      rw [hfree']
      simp only [slotCost,hsend,hrecv,Function.update_self,UniSlot.active_zero,hactive,if_true,
        Bool.false_eq_true,if_false] at hle ⊢
      omega
  · refine h.move i (otherSlots_updateUni rfl rfl rfl) (fun _ _ => rfl) ⟨rfl,rfl⟩ (h.recv i) ?_
    refine congrArg₂ (· + ·) (free_congr rfl rfl) ?_
    simp [slotCost,hactive]

theorem BudgetInv.clearAll (h : BudgetInv r s) : BudgetInv r (clearAllSlot s) where
  exact := by
    cases r with
    | parent => simp [BudgetExact,clearAllSlot,slotCost]
    | child => simp [BudgetExact,clearAllSlot,slotCost]
  role := h.role.congr ⟨rfl,rfl⟩
  recv j hj := by simp [clearAllSlot] at hj

theorem BudgetInv.plain (h : BudgetInv r s) (hp : Plain s s') : BudgetInv r s' := by
  cases hp with
  | quiet hq => exact h.quiet hq
  | changeNi i bm => exact h.changeNi i bm
  | changeUni i bm => exact h.changeUni i bm
  | resize slot src size => exact h.resize slot src size
  | stop slot => exact h.stop slot
  | clearNiRecv i => exact h.clearNiRecv i
  | clearUniSend i => exact h.clearUniSend i
  | clearAll => exact h.clearAll
  | finishSend i => exact h.finishSend i
  | finishRecv i => exact h.finishRecv i
  | control i => exact h.control i
  | refuse i hx => exact h.refuseData i hx

theorem BudgetInv.plains (h : BudgetInv r s) (hp : Relation.ReflTransGen Plain s s') :
    BudgetInv r s' := by
  induction hp with
  | refl => exact h
  | tail _ hstep ih => exact ih.plain hstep

end Moves

section Requests
variable {r : Role} {s : Station}

/-- The send request an event makes: its kind, targets and size byte. -/
def Event.request (s : Station) : Event → Option (SendKind × Byte × Byte)
  | .niSetSendData bm size _ _ => some (.ni,bm,size)
  | .uniSetSendData bm _ size => some (.uni,bm,uniSize s size)
  | .niChildSetSendGameName slot size => some (.gameName,1#8 <<< slot.toNat,size)
  | _ => none

/-- The half of slot `i` that a request of kind `k` would fill is active. -/
def slotBusy (s : Station) (k : SendKind) (i : Fin 4) : Bool :=
  match k with
  | .uni => (s.uniSend i).active
  | .ni | .gameName => (s.niSend i).active

/-- A send request that passes the checks finds its slot idle. -/
def SendsToIdleSlot (s : Station) (e : Event) : Prop :=
  ∀ q ∈ e.request s, sendError s q.1 q.2.1 q.2.2 = 0 → slotBusy s q.1 (lowestSlot q.2.1) = false

instance (s : Station) (e : Event) : Decidable (SendsToIdleSlot s e) :=
  inferInstanceAs (Decidable (∀ q ∈ e.request s, _ → _ = _))

/-- The size an accepted request asks for is there, and it is more than the header. -/
theorem sendError_size {k : SendKind} {bm size : Byte} (h : sendError s k bm size = 0) :
    size.toNat ≤ frameSize s (lowestSlot bm) ∧ s.mode.header.size < size.toNat ∧
      s.mode ≠ .off ∧ sendFlag s k &&& bm = 0 := by
  unfold sendError at h
  split_ifs at h with hmode hbm hconn hflag hsize
  · cases h
  · cases h
  · cases h
  · cases h
  · cases h
  · obtain ⟨hle,hlt⟩ := not_or.mp hsize
    exact ⟨Nat.le_of_not_lt hle,Nat.lt_of_not_le hlt,hmode,not_not.mp hflag⟩

theorem header_eq (h : InRole r s) : s.mode.header.size = r.header := by
  cases r with
  | parent =>
    have hm : s.mode = .parent := h.mode.mpr rfl
    rw [hm]
    rfl
  | child =>
    cases hm : s.mode with
    | parent => cases h.mode.mp hm
    | child => rfl
    | off => rfl

theorem BudgetInv.startNi (h : BudgetInv r s) {k : SendKind} {bm size : Byte}
    (herr : sendError s k bm size = 0) (hidle : (s.niSend (lowestSlot bm)).active = false)
    (type : Byte) (src dataSize : ℕ) : BudgetInv r (startNi s bm size type src dataSize) := by
  obtain ⟨hle,hlt,-,-⟩ := sendError_size herr
  rw [header_eq h.role] at hlt
  have hbudget := h.exact.le (lowestSlot bm)
  rw [frameSize_eq_free h.role] at hle
  unfold Rfu.startNi
  dsimp only
  rw [frameSize_eq_free h.role,header_eq h.role]
  generalize hx : (s.niSend (lowestSlot bm)).startSend bm type (size.toNat - r.header) src dataSize = x
  have hactive : x.active = true := by
    rw [← hx]
    simp [NiSlot.active,NiSlot.startSend]
  have hpayload : x.payloadSize = size.toNat - r.header := by rw [← hx]; rfl
  have hfail := sendAccount_clearFailCounters (Function.update s.niSend (lowestSlot bm) x) bm
  refine h.reserve _ (fun j hj => ⟨?_,rfl,rfl⟩) rfl ⟨rfl,rfl⟩ (h.recv _) ?_
  · rw [hfail j,Function.update_of_ne hj]
  · have hslot := hfail (lowestSlot bm)
    rw [Function.update_self] at hslot
    simp only [sendAccount,Prod.mk.injEq,hactive,hpayload] at hslot
    simp only [slotCost,hslot.1,hslot.2.1,hidle,if_true,Bool.false_eq_true,if_false] at hbudget ⊢
    omega

theorem BudgetInv.startUni (h : BudgetInv r s) {bm size : Byte}
    (herr : sendError s .uni bm size = 0) (hidle : (s.uniSend (lowestSlot bm)).active = false)
    (src : ℕ) : BudgetInv r (startUni s bm size src) := by
  obtain ⟨hle,hlt,-,-⟩ := sendError_size herr
  rw [header_eq h.role] at hlt
  have hbudget := h.exact.le (lowestSlot bm)
  rw [frameSize_eq_free h.role] at hle
  unfold Rfu.startUni
  dsimp only
  rw [frameSize_eq_free h.role,header_eq h.role]
  refine h.reserve _ (otherSlots_updateUni rfl rfl rfl) rfl ⟨rfl,rfl⟩ (h.recv _) ?_
  simp only [slotCost,Function.update_self,hidle,Bool.false_eq_true,if_false] at hbudget ⊢
  simp [UniSlot.active]
  omega

theorem BudgetInv.setSendDataOrg (h : BudgetInv r s) {k : SendKind} {bm size : Byte}
    (hidle : sendError s k bm size = 0 → slotBusy s k (lowestSlot bm) = false) (src dataSize : ℕ) :
    BudgetInv r (setSendDataOrg s k bm size src dataSize).2 := by
  unfold Rfu.setSendDataOrg
  dsimp only
  split_ifs with herr
  · exact h
  · have hpass := not_not.mp herr
    cases k with
    | ni => exact h.startNi hpass (hidle hpass) 0 src dataSize
    | gameName => exact h.startNi hpass (hidle hpass) 1 src dataSize
    | uni => exact h.startUni hpass (hidle hpass) src

end Requests

section Frame
variable {r : Role} {s : Station}

/-- A sub-frame of an NI slot is no larger than the payload size of the slot. -/
theorem sendSize_le (x : NiSlot) : x.sendSize ≤ x.payloadSize := by
  unfold NiSlot.sendSize
  split_ifs with hrecv hdata hremain
  · exact Nat.zero_le _
  · split
    · exact le_rfl
    · split_ifs with hend
      · refine (Nat.mod_le _ _).trans ?_
        omega
      · exact le_rfl
  · exact le_rfl
  · obtain ⟨hpos,hlt⟩ := not_or.mp hremain
    refine (Nat.mod_le _ _).trans ?_
    omega

theorem length_niLLSF (h : InRole r s) (x : NiSlot) :
    (niLLSF s x).length = r.header + x.sendSize := by
  simp [niLLSF,header_eq h]

/-- The bytes of a slot fit what it has reserved. -/
theorem length_slotLLSF_cost (h : BudgetInv r s) (i : Fin 4) :
    (slotLLSF s i).length ≤ slotCost r s i := by
  have hsend : (if (s.niSend i).active then niLLSF s (s.niSend i) else []).length ≤
      if (s.niSend i).active then (s.niSend i).payloadSize + r.header else 0 := by
    split_ifs
    · have hsize := sendSize_le (s.niSend i)
      rw [length_niLLSF h.role]
      omega
    · exact le_rfl
  have hrecv : (if (s.niRecv i).active then niLLSF s (s.niRecv i) else []).length ≤
      if (s.niRecv i).active then r.header else 0 := by
    split_ifs with hactive
    · have hsize : (s.niRecv i).sendSize = 0 := if_pos (h.recv i hactive)
      rw [length_niLLSF h.role,hsize]
      omega
    · exact le_rfl
  have huni : (if (s.uniSend i).state = 0x8024 then uniLLSF s (s.uniSend i) else []).length ≤
      if (s.uniSend i).active then (s.uniSend i).payloadSize + r.header else 0 := by
    by_cases hstate : (s.uniSend i).state = 0x8024
    · have hactive : (s.uniSend i).active = true := by simp [UniSlot.active,hstate]
      rw [if_pos hstate,if_pos hactive]
      unfold uniLLSF
      split_ifs
      · exact Nat.zero_le _
      · simp only [List.length_append,Framing.length_toBytes,CellMemory.length_read,
          header_eq h.role]
        omega
    · rw [if_neg hstate]
      exact Nat.zero_le _
  simp only [slotLLSF,List.length_append,slotCost]
  omega

/-- Room for the sub-frames in the packet buffer: from +0x6C up to +0xDC. -/
def packetArea : ℕ := 0x70

theorem length_frame_le (h : BudgetInv r s) {p : Packet} (hp : (constructSendLLFrame s).2 = some p) :
    p.data.length ≤ packetArea := by
  have hbytes : (frameBytes s).length ≤ 0x57 := by
    have hlen : (frameBytes s).length = ∑ i, (slotLLSF s i).length := by
      rw [frameBytes,List.length_flatMap,Fin.sum_univ_def]
    rw [hlen]
    cases r with
    | parent =>
      have htotal : s.parentFrame + ∑ i, slotCost .parent s i = 0x57 := h.exact
      have hsum := Finset.sum_le_sum fun i (_ : i ∈ Finset.univ) => length_slotLLSF_cost h i
      omega
    | child =>
      have hslot : ∀ i, (slotLLSF s i).length ≤ 0x10 := by
        intro i
        have hcost := length_slotLLSF_cost h i
        have hexact : s.childFrame i + slotCost .child s i = 0x10 := h.exact i
        omega
      have hsum := Finset.sum_le_sum fun i (_ : i ∈ Finset.univ) => hslot i
      simp only [Finset.sum_const,Finset.card_univ,Fintype.card_fin,smul_eq_mul] at hsum
      omega
  have hdata : p.data = pad (frameBytes s) := by
    unfold constructSendLLFrame at hp
    split at hp
    · cases hp
    · dsimp only at hp
      split at hp
      · cases hp
      · cases hp
        rfl
  rw [hdata]
  simp only [pad,List.length_append,List.length_replicate,packetArea]
  omega

end Frame

section Run
variable {r : Role} {s : Station}

/-- The links of the run are those of a console in role `r`. -/
def Event.inRole (r : Role) : Event → Prop
  | .connect r' _ => r' = r
  | _ => True

instance (r : Role) (e : Event) : Decidable (e.inRole r) := by
  cases e <;> unfold Event.inRole <;> infer_instance

theorem BudgetInv.connect (h : BudgetInv r s) (i : Fin 4) : BudgetInv r (connect s r i) := by
  have hsame : ∀ s' : Station, s'.niSend = s.niSend → s'.niRecv = s.niRecv →
      s'.uniSend = s.uniSend → s'.parentFrame = s.parentFrame → s'.childFrame = s.childFrame →
      InRole r s' → BudgetInv r s' := by
    intro s' hsend hrecv huni hparent hchild hrole
    refine ⟨?_,hrole,by rw [hrecv]; exact h.recv⟩
    refine h.exact.move 0 (fun j _ => ?_) (fun j _ => by rw [hchild]) ?_
    · simp only [slotCost,hsend,hrecv,huni]
    · rw [free_congr hparent (by rw [hchild])]
      simp only [slotCost,hsend,hrecv,huni]
  cases r with
  | parent =>
    show BudgetInv .parent (readChild s i)
    unfold readChild
    split_ifs
    · exact h
    · exact hsame _ rfl rfl rfl rfl rfl ⟨rfl,by simp⟩
  | child =>
    show BudgetInv .child (connectParent s i)
    unfold connectParent
    split_ifs
    · exact h
    · exact hsame _ rfl rfl rfl rfl rfl ⟨rfl,by simp⟩

theorem BudgetInv.removeLinkData (h : BudgetInv r s) (i : Fin 4) (forget : Bool) :
    BudgetInv r (Rfu.removeLinkData s i forget) := by
  have hmode : (Rfu.removeLinkData s i forget).mode = .parent ↔ s.mode = .parent := by
    cases hm : s.mode <;> cases forget <;> simp [Rfu.removeLinkData,hm]
    · split_ifs <;> simp
    · split_ifs <;> simp
  have hfields : (Rfu.removeLinkData s i forget).niSend = s.niSend ∧
      (Rfu.removeLinkData s i forget).niRecv = s.niRecv ∧
      (Rfu.removeLinkData s i forget).uniSend = s.uniSend ∧
      (Rfu.removeLinkData s i forget).parentFrame = s.parentFrame ∧
      (Rfu.removeLinkData s i forget).childFrame = s.childFrame ∧
      (Rfu.removeLinkData s i forget).child = s.child := by
    cases forget <;> exact ⟨rfl,rfl,rfl,rfl,rfl,rfl⟩
  obtain ⟨hsend,hrecv,huni,hparent,hframe,hchild⟩ := hfields
  refine ⟨?_,⟨hchild.trans h.role.child,hmode.trans h.role.mode⟩,by rw [hrecv]; exact h.recv⟩
  refine h.exact.move 0 (fun j _ => ?_) (fun j _ => by rw [hframe]) ?_
  · simp only [slotCost,hsend,hrecv,huni]
  · rw [free_congr hparent (by rw [hframe])]
    simp only [slotCost,hsend,hrecv,huni]

theorem BudgetInv.step (h : BudgetInv r s) (e : Event) (hrole : e.inRole r)
    (hok : SendsToIdleSlot s e) : BudgetInv r (step s e) := by
  cases e with
  | niSetSendData bm size src dataSize =>
    exact h.setSendDataOrg (hok (.ni,bm,size) rfl) src dataSize
  | uniSetSendData bm src size =>
    exact h.setSendDataOrg (hok (.uni,bm,uniSize s size) rfl) src 0
  | niChildSetSendGameName slot size =>
    exact h.setSendDataOrg (hok (.gameName,1#8 <<< slot.toNat,size) rfl) _ _
  | uniChangeAndReadySendData slot src size => exact h.resize slot src size
  | uniReadySendData slot => exact h.quiet (.uniReadySendData s slot)
  | uniClearRecvNewDataFlag slot => exact h.quiet (.uniClearRecvNewDataFlag s slot)
  | changeSendTarget kind slot bm => exact h.plains (plain_changeSendTarget s kind slot bm)
  | niStopReceivingData slot => exact h.stop slot
  | clearSlot kinds slot =>
    obtain hplain | ⟨i,-,-,hplain⟩ := plain_clearSlot s kinds slot
    · exact h.plains hplain
    · exact (h.clearNiSend i).plains hplain
  | clearAllSlot => exact h.clearAll
  | setRecvBuffer kind slot address size => exact h.quiet (.setRecvBuffer s kind slot address size)
  | constructSendLLFrame => exact h.quiet (.constructSendLLFrame s)
  | cbSendData result => exact h.plains (plain_cbSendData s result)
  | cbRecvData word buf => exact h.plains (plain_cbRecvData s word buf)
  | niCheckCommFailCounter => exact h.quiet (.niCheckCommFailCounter s)
  | connect r' i =>
    have hr : r' = r := hrole
    subst hr
    exact h.connect i
  | removeLinkData i forget => exact h.removeLinkData i forget

/-- The console after its first connection. -/
def connected (r : Role) (i : Fin 4) (address : ℕ) (mem : ℕ → Byte) : Station :=
  connect (initializeAPI address mem) r i

theorem budgetInv_connected (r : Role) (i : Fin 4) (address : ℕ) (mem : ℕ → Byte) :
    BudgetInv r (connected r i address mem) := by
  cases r with
  | parent =>
    refine ⟨?_,⟨?_,?_⟩,?_⟩
    · simp [BudgetExact,connected,Rfu.connect,readChild,initializeAPI,slotCost]
    · simp [connected,Rfu.connect,readChild,initializeAPI]
    · simp [connected,Rfu.connect,readChild,initializeAPI]
    · simp [connected,Rfu.connect,readChild,initializeAPI]
  | child =>
    refine ⟨?_,⟨?_,?_⟩,?_⟩
    · simp [BudgetExact,connected,Rfu.connect,connectParent,initializeAPI,slotCost]
    · simp [connected,Rfu.connect,connectParent,initializeAPI]
    · simp [connected,Rfu.connect,connectParent,initializeAPI]
    · simp [connected,Rfu.connect,connectParent,initializeAPI]

/-- In every run of a console in which no send request that passes the checks falls on a slot
that is still active, the budget bytes account for the active slots exactly, and a frame built
from the active slots stays inside the packet buffer. -/
theorem frame_budget (r : Role) (i : Fin 4) (address : ℕ) (mem : ℕ → Byte) (es : List Event)
    (hrole : ∀ e ∈ es, e.inRole r)
    (h : Runs.Along step SendsToIdleSlot (connected r i address mem) es) :
    let s := Runs.run step (connected r i address mem) es
    BudgetExact r s ∧ ∀ p, (constructSendLLFrame s).2 = some p → p.data.length ≤ packetArea := by
  have hinv : ∀ (es : List Event) (s : Station), BudgetInv r s → (∀ e ∈ es, e.inRole r) →
      Runs.Along step SendsToIdleSlot s es → BudgetInv r (Runs.run step s es) := by
    intro es
    induction es with
    | nil => exact fun s hs _ _ => hs
    | cons e es ih =>
      intro s hs hes halong
      exact ih _ (hs.step e (hes e List.mem_cons_self) halong.1)
        (fun e' he' => hes e' (List.mem_cons_of_mem e he')) halong.2
  have hrun := hinv es _ (budgetInv_connected r i address mem) hrole h
  exact ⟨hrun.exact,fun p hp => length_frame_le hrun hp⟩

/-- A send that loses its first target keeps its slot, and the next send to that target takes
the slot over without giving back what the first one had reserved. -/
def overwritingSends : List Event :=
  [.connect .parent 1,.niSetSendData 3 10 0x2001000 100,.changeSendTarget 0x20 0 2,
    .niSetSendData 1 10 0x2002000 100]

theorem frame_budget_leak :
    ¬ ∀ (r : Role) (i : Fin 4) (address : ℕ) (mem : ℕ → Byte) (es : List Event),
      (∀ e ∈ es, e.inRole r) →
        BudgetExact r (Runs.run step (connected r i address mem) es) := by
  intro hall
  have hleak := hall .parent 0 0x2000000 (fun _ => 0) overwritingSends
    (by decide +kernel)
  have hbyte : (Runs.run step (connected .parent 0 0x2000000 fun _ => 0) overwritingSends).parentFrame +
      ∑ i, slotCost .parent
        (Runs.run step (connected .parent 0 0x2000000 fun _ => 0) overwritingSends) i ≠ 0x57 := by
    decide +kernel
  exact hbyte hleak

theorem frame_budget_twoSends :
    let s := Runs.run step (connected .parent 0 0x2000000 fun _ => 0)
      [.connect .parent 1,.niSetSendData 1 10 0x2001000 100,.uniSetSendData 2 0x2002000 8]
    s.parentFrame = 0x57-10-11 ∧ BudgetExact .parent s :=
  ⟨by decide +kernel,(frame_budget .parent 0 0x2000000 (fun _ => 0)
    [.connect .parent 1,.niSetSendData 1 10 0x2001000 100,.uniSetSendData 2 0x2002000 8]
    (by decide +kernel) (by decide +kernel)).1⟩

end Run

end Rfu
end AgbTools
