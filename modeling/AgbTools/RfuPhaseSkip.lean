import AgbTools.RfuReliable
import AgbTools.Runs

/-! The phase-skip loop of frame construction: as long as a slot is in the data stage one of its four
phases has something left, whatever acknowledgements arrive. -/
namespace AgbTools
namespace Rfu

open Runs

section Loop
variable {x : NiSlot} {k k' : Fin 4}

end Loop

section Slots

/-- Frames are built and answers arrive, for this slot and for others. -/
inductive FrameEvent
  | construct
  | acknowledge (j t : Fin 4) (f : SubFrame)

def frameStep (s : Station) : FrameEvent → Station
  | .construct => (constructSendLLFrame s).1
  | .acknowledge j t f => niReceiveSender s j t f

/-- The phases in the data stage: `got k` chunks of phase `k` are acknowledged by all targets, and
fewer than there are in all. -/
def Chunks (x : NiSlot) (got : Fin 4 → ℕ) : Prop :=
  (∀ k : Fin 4, x.ptr k = .data (x.src + (4*got k + k)*x.payloadSize)) ∧
    x.remain = signed (x.dataSize - ((got 0 + got 1 + got 2 + got 3)*x.payloadSize : ℕ)) ∧
    (got 0 + got 1 + got 2 + got 3)*x.payloadSize < x.dataSize

/-- A slot on its way: the request is fixed, and the data stage has its phases. -/
structure OnItsWay (payload src dataSize : ℕ) (x : NiSlot) : Prop where
  src : x.src = src
  payload : x.payloadSize = payload
  size : x.dataSize = dataSize
  data : x.state = 0x8022 → ∃ got, Chunks x got

variable {payload src dataSize : ℕ} {x : NiSlot}

theorem OnItsWay.failCounter (h : OnItsWay payload src dataSize x) (fails : BitVec 16) :
    OnItsWay payload src dataSize { x with failCounter := fails } :=
  ⟨h.src,h.payload,h.size,h.data⟩

theorem OnItsWay.advance (h : OnItsWay payload src dataSize x) : OnItsWay payload src dataSize x.advance := by
  unfold NiSlot.advance
  split_ifs
  · exact ⟨h.src,h.payload,h.size,h.data⟩
  · exact h

theorem OnItsWay.setAck (h : OnItsWay payload src dataSize x) (t : Fin 4) (f : SubFrame) :
    OnItsWay payload src dataSize (x.setAck t f) := by
  unfold NiSlot.setAck
  split_ifs
  · exact ⟨h.src,h.payload,h.size,h.data⟩
  · exact h

/-- The data stage begins. -/
theorem chunks_start (hpos : 0 < x.dataSize) (hstate : x.state = 0x8021) : Chunks x.nextStage fun _ => 0 := by
  unfold NiSlot.nextStage
  rw [if_pos hstate]
  refine ⟨fun k => ?_,?_,?_⟩
  · dsimp only
    rw [Nat.mul_zero,Nat.zero_add,Nat.mul_comm]
  · simp
  · simpa using hpos

/-- One more chunk of phase `k`, when it was not the last of all. -/
theorem Chunks.next {got : Fin 4 → ℕ} (h : Chunks x got) (hstate : x.state = 0x8022)
    (hpayload : x.payloadSize < 2^16) (k : Fin 4) (hnext : (x.nextChunk k).state = 0x8022) :
    Chunks (x.nextChunk k) (Function.update got k (got k + 1)) := by
  obtain ⟨hptr,hremain,hlt⟩ := h
  have hlast : (0x8023 : BitVec 16) ≠ 0x8022 := by decide
  have hne : x.state ≠ 0x8021 := by rw [hstate]; decide
  have hsum : Function.update got k (got k + 1) 0 + Function.update got k (got k + 1) 1 +
      Function.update got k (got k + 1) 2 + Function.update got k (got k + 1) 3 =
      got 0 + got 1 + got 2 + got 3 + 1 := by
    obtain ⟨k,hk⟩ := k
    match k, hk with
    | 0, _ | 1, _ | 2, _ | 3, _ => simp [Function.update]; omega
  have hmul : (got 0 + got 1 + got 2 + got 3 + 1)*x.payloadSize =
      (got 0 + got 1 + got 2 + got 3)*x.payloadSize + x.payloadSize := Nat.succ_mul _ _
  have hsigned : signed (x.remain - x.payloadSize) =
      signed (x.dataSize - ((got 0 + got 1 + got 2 + got 3 + 1)*x.payloadSize : ℕ)) := by
    rw [hremain,hmul,signed,signed,signed,Int.bmod_sub_bmod]
    congr 1
    push_cast
    omega
  unfold NiSlot.nextChunk at hnext ⊢
  dsimp only at hnext ⊢
  rw [if_pos (.inr hstate),if_neg hne] at hnext ⊢
  split_ifs at hnext ⊢ with hend
  · unfold NiSlot.nextStage at hnext
    rw [if_neg hne] at hnext
    exact absurd hnext hlast
  · refine ⟨fun k' => ?_,?_,?_⟩
    · by_cases hk : k' = k
      · subst hk
        simp only [Function.update_self,hptr,Ptr.add]
        congr 1
        ring
      · simp only [Function.update_of_ne hk,hptr]
    · rw [hsum]
      exact hsigned
    · rw [hsum]
      show (got 0 + got 1 + got 2 + got 3 + 1)*x.payloadSize < x.dataSize
      -- a difference that is not positive would have ended the stage
      by_contra hge
      rw [hsigned,signed_eq (by omega) (by omega)] at hend
      omega

theorem OnItsWay.nextChunk (h : OnItsWay payload src dataSize x) (hpos : 0 < dataSize)
    (hpayload : payload < 2^16) (k : Fin 4) : OnItsWay payload src dataSize (x.nextChunk k) := by
  have hfixed : (x.nextChunk k).src = x.src ∧ (x.nextChunk k).payloadSize = x.payloadSize ∧
      (x.nextChunk k).dataSize = x.dataSize := by
    unfold NiSlot.nextChunk NiSlot.nextStage
    dsimp only
    split_ifs
    all_goals exact ⟨rfl,rfl,rfl⟩
  refine ⟨hfixed.1.trans h.src,hfixed.2.1.trans h.payload,hfixed.2.2.trans h.size,fun hnext => ?_⟩
  by_cases hdata : x.state = 0x8022
  · obtain ⟨got,hgot⟩ := h.data hdata
    exact ⟨_,hgot.next hdata (by rw [h.payload]; exact hpayload) k hnext⟩
  · refine ⟨fun _ => 0,?_⟩
    unfold NiSlot.nextChunk at hnext ⊢
    dsimp only at hnext ⊢
    by_cases hcontrol : x.state = 0x8021
    · rw [if_pos (.inl hcontrol),if_pos hcontrol] at hnext ⊢
      split_ifs at hnext ⊢
      · exact chunks_start (by rw [← h.size] at hpos; exact hpos) hcontrol
      · exact absurd hnext hdata
    · rw [if_neg (not_or.mpr ⟨hcontrol,hdata⟩)] at hnext
      split_ifs at hnext
      · exact absurd hnext (show (0x8020 : BitVec 16) ≠ 0x8022 by decide)
      · exact absurd hnext hdata

theorem OnItsWay.receiveAck (h : OnItsWay payload src dataSize x) (hpos : 0 < dataSize)
    (hpayload : payload < 2^16) (t : Fin 4) (f : SubFrame) :
    OnItsWay payload src dataSize (x.receiveAck t f) := by
  unfold NiSlot.receiveAck
  dsimp only
  split_ifs
  · exact (h.setAck t f).nextChunk hpos hpayload f.phase
  · exact h.setAck t f

/-- Fewer chunks than there are leave a phase that is not done. -/
theorem Chunks.open_phase {got : Fin 4 → ℕ} (h : Chunks x got) : ∃ k, x.phaseDone k = false := by
  obtain ⟨hptr,-,hlt⟩ := h
  by_contra hnone
  have hdone : ∀ k : Fin 4, got 0 + got 1 + got 2 + got 3 < 4*got k + k := by
    intro k
    have hk : ¬ x.phaseDone k = false := fun hk => hnone ⟨k,hk⟩
    rw [NiSlot.phaseDone,hptr] at hk
    simp only [decide_eq_false_iff_not] at hk
    exact Nat.lt_of_mul_lt_mul_right (a := x.payloadSize) (by omega)
  have h₀ : _ < 4*got 0 + 0 := hdone 0
  have h₁ : _ < 4*got 1 + 1 := hdone 1
  have h₂ : _ < 4*got 2 + 2 := hdone 2
  have h₃ : _ < 4*got 3 + 3 := hdone 3
  omega

/-- What an answer to slot `j` does to slot `i`, the fail counter aside. -/
theorem niReceiveSender_slots (s : Station) (j t : Fin 4) (f : SubFrame) (i : Fin 4) :
    ∃ fails, (niReceiveSender s j t f).niSend i =
      { (if i = j then (s.niSend j).receiveAck t f else s.niSend i) with failCounter := fails } := by
  by_cases hij : i = j
  · subst hij
    obtain ⟨fails,heq,-⟩ := niReceiveSender_slot s i t f
    exact ⟨fails,by rw [heq,if_pos rfl]⟩
  · rw [if_neg hij]
    unfold niReceiveSender
    dsimp only
    split_ifs
    · by_cases hit : i = t
      · subst hit
        exact ⟨0,by simp [hij]⟩
      · exact ⟨(s.niSend i).failCounter,by simp [hij,hit]⟩
    · exact ⟨(s.niSend i).failCounter,by simp [hij]⟩

/-- Building frames moves the phase of a slot at most. -/
theorem OnItsWay.construct {s : Station} {j : Fin 4} (h : OnItsWay payload src dataSize (s.niSend j)) :
    OnItsWay payload src dataSize ((constructSendLLFrame s).1.niSend j) := by
  unfold constructSendLLFrame
  dsimp only
  split_ifs
  all_goals dsimp only
  all_goals first | exact h | skip
  all_goals
    split_ifs
    all_goals first | exact h.advance | exact h

/-- An answer is taken by this slot or by another one. -/
theorem OnItsWay.acknowledge {s : Station} {j : Fin 4} (h : OnItsWay payload src dataSize (s.niSend j))
    (hpos : 0 < dataSize) (hpayload : payload < 2^16) (j' t : Fin 4) (f : SubFrame) :
    OnItsWay payload src dataSize ((niReceiveSender s j' t f).niSend j) := by
  obtain ⟨fails,heq⟩ := niReceiveSender_slots s j' t f j
  rw [heq]
  split_ifs with hj
  · subst hj
    exact (h.receiveAck hpos hpayload t f).failCounter fails
  · exact h.failCounter fails

theorem OnItsWay.step {s : Station} {j : Fin 4} (h : OnItsWay payload src dataSize (s.niSend j))
    (hpos : 0 < dataSize) (hpayload : payload < 2^16) (e : FrameEvent) :
    OnItsWay payload src dataSize ((frameStep s e).niSend j) := by
  cases e with
  | construct => exact h.construct
  | acknowledge j' t f => exact h.acknowledge hpos hpayload j' t f

theorem OnItsWay.run {s : Station} {j : Fin 4} (h : OnItsWay payload src dataSize (s.niSend j))
    (hpos : 0 < dataSize) (hpayload : payload < 2^16) (es : List FrameEvent) :
    OnItsWay payload src dataSize ((Runs.run frameStep s es).niSend j) :=
  run_invariant (fun s e (h : OnItsWay payload src dataSize (Station.niSend s j)) => h.step hpos hpayload e) h es

end Slots

section Empty
variable {s : Station} {j : Fin 4} {x : NiSlot}

/-- Some run takes the slot to such a state. -/
def Reaches (s : Station) (j : Fin 4) (inv : NiSlot → Prop) : Prop := ∃ es, inv ((run frameStep s es).niSend j)

theorem Reaches.acknowledge {inv inv' : NiSlot → Prop} (h : Reaches s j inv) (t : Fin 4) (f : SubFrame)
    (hstep : ∀ x fails, inv x → inv' { x.receiveAck t f with failCounter := fails }) : Reaches s j inv' := by
  obtain ⟨es,hinv⟩ := h
  obtain ⟨fails,heq⟩ := niReceiveSender_slots (run frameStep s es) j t f j
  refine ⟨es ++ [.acknowledge j t f],?_⟩
  rw [run_append]
  show inv' ((niReceiveSender (run frameStep s es) j t f).niSend j)
  rw [heq,if_pos rfl]
  exact hstep _ fails hinv

/-- The control stage of a request for no bytes: the slots in `acked` have answered. -/
structure EmptyControl (bm : Byte) (n : Fin 4) (acked : Byte) (remain : ℤ) (x : NiSlot) : Prop where
  state : x.state = 0x8021
  mask : x.bmSlot = bm
  payload : 0 < x.payloadSize ∧ x.payloadSize < 2^16
  size : x.dataSize = 0
  n : x.n 0 = n
  acks : x.acks 0 = acked
  remain : x.remain = remain

/-- Its data stage: nothing is before the first byte. -/
structure EmptyData (x : NiSlot) : Prop where
  state : x.state = 0x8022
  size : x.dataSize = 0
  ptr : ∀ k, ∃ a, x.ptr k = .data a ∧ x.src ≤ a

/-- An answer about the control data. -/
def controlAnswer (n : Fin 4) : SubFrame := ⟨0,0,1,true,0,n,[]⟩

theorem EmptyControl.setAck {bm m : Byte} {n : Fin 4} {r : ℤ} (h : EmptyControl bm n m r x) (t : Fin 4) :
    EmptyControl bm n (bit t ||| m) r (x.setAck t (controlAnswer n)) := by
  unfold NiSlot.setAck
  rw [if_pos ⟨.inr (.inl ⟨rfl,h.state⟩),h.n⟩]
  refine ⟨h.state,h.mask,h.payload,h.size,h.n,?_,h.remain⟩
  show Function.update x.acks 0 (bit t ||| x.acks 0) 0 = bit t ||| m
  rw [Function.update_self,h.acks]

theorem EmptyControl.nextChunk {bm m : Byte} {n : Fin 4} {r : ℤ} (h : EmptyControl bm n m r x) (hr : 0 < r ∧ r ≤ 7) :
    (∃ r', 0 < r' ∧ r' < r ∧ EmptyControl bm (n+1) 0 r' (x.nextChunk 0)) ∨ EmptyData (x.nextChunk 0) := by
  have hpayload := h.payload
  have hsigned : signed (x.remain - x.payloadSize) = r - x.payloadSize := by
    rw [h.remain]
    exact signed_eq (by omega) (by omega)
  unfold NiSlot.nextChunk
  dsimp only
  rw [if_pos (.inl h.state),if_pos h.state]
  by_cases hend : signed (x.remain - x.payloadSize) ≤ 0
  · right
    rw [if_pos hend]
    unfold NiSlot.nextStage
    rw [if_pos h.state]
    exact ⟨rfl,h.size,fun k => ⟨_,rfl,Nat.le_add_right _ _⟩⟩
  · left
    rw [if_neg hend]
    refine ⟨r - x.payloadSize,by omega,by omega,h.state,h.mask,h.payload,h.size,?_,?_,hsigned⟩
    · show Function.update x.n 0 (x.n 0 + 1) 0 = n+1
      rw [Function.update_self,h.n]
    · show Function.update x.acks 0 0 0 = 0
      rw [Function.update_self]

/-- When the slots of `ts` answer, the control data goes on. -/
theorem Reaches.answers {bm m : Byte} {n : Fin 4} {r : ℤ} (hr : 0 < r ∧ r ≤ 7) (ts : List (Fin 4))
    (h : Reaches s j (EmptyControl bm n m r)) (hall : ts.foldl (fun m t => bit t ||| m) m &&& bm = bm)
    (hsome : m &&& bm ≠ bm) :
    Reaches s j fun x => (∃ r', 0 < r' ∧ r' < r ∧ EmptyControl bm (n+1) 0 r' x) ∨ EmptyData x := by
  induction ts generalizing m with
  | nil => exact absurd hall hsome
  | cons t ts ih =>
    have hack : ∀ x, EmptyControl bm n m r x → x.receiveAck t (controlAnswer n) =
        if (bit t ||| m) &&& bm = bm then (x.setAck t (controlAnswer n)).nextChunk 0
        else x.setAck t (controlAnswer n) := by
      intro x hx
      have hset := hx.setAck t
      rw [← hset.acks,← hset.mask]
      rfl
    by_cases hfull : (bit t ||| m) &&& bm = bm
    · refine h.acknowledge t (controlAnswer n) fun x fails hx => ?_
      rw [hack x hx,if_pos hfull]
      obtain ⟨r',hpos,hlt,hnext⟩ | hnext := (hx.setAck t).nextChunk hr
      · exact .inl ⟨r',hpos,hlt,hnext.state,hnext.mask,hnext.payload,hnext.size,hnext.n,hnext.acks,hnext.remain⟩
      · exact .inr ⟨hnext.state,hnext.size,hnext.ptr⟩
    · refine ih (h.acknowledge t (controlAnswer n) fun x fails hx => ?_) hall hfull
      have hset := hx.setAck t
      rw [hack x hx,if_neg hfull]
      exact ⟨hset.state,hset.mask,hset.payload,hset.size,hset.n,hset.acks,hset.remain⟩

/-- The slot can reach its data stage. -/
theorem Reaches.data {bm : Byte} {n : Fin 4} {r : ℤ} (hmask : bm ≠ 0) (hslots : bm.toNat < 16) (m : ℕ)
    (h : Reaches s j (EmptyControl bm n 0 r)) (hr : 0 < r ∧ r ≤ 7) (hm : r ≤ m) : Reaches s j EmptyData := by
  induction m generalizing n r with
  | zero => omega
  | succ m ih =>
    have hbits : ∀ bm : Byte, bm.toNat < 16 →
        (List.finRange 4).foldl (fun m t => bit t ||| m) 0 &&& bm = bm := by decide +kernel
    obtain ⟨es,⟨r',hpos,hlt,hnext⟩ | hnext⟩ := Reaches.answers hr (List.finRange 4) h (hbits bm hslots)
      (by simpa using hmask.symm)
    · exact ih ⟨es,hnext⟩ ⟨hpos,by omega⟩ (by omega)
    · exact ⟨es,hnext⟩

end Empty

end Rfu
end AgbTools
