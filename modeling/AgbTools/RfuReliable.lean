import AgbTools.RfuDelivery
import AgbTools.RfuFlags

/-! A whole NI transfer: whatever the links lose or repeat, the consoles follow their pairs of the
stop-and-wait layer. -/
namespace AgbTools
namespace Rfu

open Framing StopAndWait

section Sender
variable {T : Transfer} {x : NiSlot} {log : List (Fin 4 × Ptr)} {p : Fin 4 → Pair Channel}
  {out : Channel → ℕ} {s : Station} {j t : Fin 4} {f : SubFrame}

/-- A sending slot that has ended, or whose last target has been taken away. -/
def Stopped (x : NiSlot) : Prop := x.state = 0x26 ∨ x.state = 0x27

theorem Running.failCounter (h : Running T x log p out) (fails : BitVec 16) :
    Running T { x with failCounter := fails } log p out :=
  h.congr ⟨h.sends.src,h.sends.type,h.sends.payload,h.sends.size⟩ (h.stage.congr rfl) rfl rfl rfl
    (fun _ => ⟨rfl,rfl⟩)

/-- Fewer targets know no less. -/
theorem Running.shrink (h : Running T x log p out) {bm : Byte} (hbm : bm ≠ 0)
    (hsub : ∀ b, bm.getLsbD b = true → x.bmSlot.getLsbD b = true) :
    Running T { x with bmSlot := bm } log p out where
  sends := ⟨h.sends.src,h.sends.type,h.sends.payload,h.sends.size⟩
  stage := h.stage.congr rfl
  targets := hbm
  shared t ht := h.shared t (hsub t ht)
  acks k b hb := by
    obtain ⟨t,hbt,hc⟩ := h.acks k b hb
    exact ⟨t,hbt,fun ht => hc (hsub t ht)⟩
  log t ht := h.log t (hsub t ht)

theorem Stopped.receiveAck (h : Stopped x) (t : Fin 4) (f : SubFrame) : Stopped (x.receiveAck t f) := by
  have hans : ¬ (x.answers f ∧ x.n f.phase = f.n) := by
    rintro ⟨⟨-,hx⟩ | ⟨-,hx⟩ | ⟨-,hx⟩,-⟩
    all_goals
      obtain hstate | hstate := h
      all_goals exact absurd (hx.symm.trans hstate) (by decide)
  have hnext : ∀ k, (x.nextChunk k).state = x.state := by
    intro k
    unfold NiSlot.nextChunk
    obtain hstate | hstate := h
    all_goals simp [hstate]
  unfold NiSlot.receiveAck NiSlot.setAck
  rw [if_neg hans]
  dsimp only
  split_ifs
  · unfold Stopped
    rw [hnext]
    exact h
  · exact h

theorem receiveAck_bmSlot (x : NiSlot) (t : Fin 4) (f : SubFrame) : (x.receiveAck t f).bmSlot = x.bmSlot := by
  unfold NiSlot.receiveAck
  dsimp only
  split_ifs
  · rw [nextChunk_bmSlot,setAck_bmSlot]
  · exact setAck_bmSlot x t f

/-- The sending slot takes an answer; its fail counter aside, nothing else of the console matters. -/
theorem niReceiveSender_slot (s : Station) (j t : Fin 4) (f : SubFrame) :
    ∃ fails, (niReceiveSender s j t f).niSend j = { (s.niSend j).receiveAck t f with failCounter := fails } ∧
      (niReceiveSender s j t f).mem = s.mem := by
  unfold niReceiveSender
  dsimp only
  split_ifs
  · by_cases hjt : j = t
    · subst hjt
      exact ⟨0,by simp,rfl⟩
    · exact ⟨((s.niSend j).receiveAck t f).failCounter,by simp [hjt],rfl⟩
  · exact ⟨((s.niSend j).receiveAck t f).failCounter,by simp,rfl⟩

/-- The whole answer of a target: the bit, and the next chunk when all bits are there. -/
theorem Running.receiveAck (h : Running T x log p out) (hin : ∀ t, InStep T.plan (p t))
    (ht : x.bmSlot.getLsbD t = true) {c : Channel} {r : ℕ} (hf : Reports f (c,r))
    {rest : List (Channel × ℕ)} (hback : (p t).back = (c,r)::rest) :
    ∃ q out', (∀ t, InStep T.plan (q t)) ∧
      (∀ t', (q t').got = (p t').got ∧ (q t').forward = (p t').forward ∧
        (q t').back = if t' = t then rest else (p t').back) ∧
      Running T (x.receiveAck t f) (if x.acknowledges f then (t,x.ptr f.phase)::log else log) q out' := by
  have hconfirm := h.confirm hin ht hf hback
  have hin' : ∀ t', InStep T.plan (Function.update p t ((p t).confirm (c,r) rest) t') := by
    rw [Function.forall_update_iff p fun _ q => InStep T.plan q]
    exact ⟨(hin t).confirm hback,fun t' _ => hin t'⟩
  have hlinks : ∀ t', (Function.update p t ((p t).confirm (c,r) rest) t').got = (p t').got ∧
      (Function.update p t ((p t).confirm (c,r) rest) t').forward = (p t').forward ∧
      (Function.update p t ((p t).confirm (c,r) rest) t').back = if t' = t then rest else (p t').back := by
    rw [Function.forall_update_iff p fun t' q => q.got = (p t').got ∧ q.forward = (p t').forward ∧
      q.back = if t' = t then rest else (p t').back]
    exact ⟨⟨rfl,rfl,(if_pos rfl).symm⟩,fun t' hne => ⟨rfl,rfl,(if_neg hne).symm⟩⟩
  generalize (if x.acknowledges f then (t,x.ptr f.phase)::log else log) = log' at hconfirm ⊢
  unfold NiSlot.receiveAck
  dsimp only
  split_ifs with hfull
  · obtain ⟨c',hin'',hrun⟩ := hconfirm.nextChunk hin' hfull
    refine ⟨_,_,hin'',fun t' => ?_,hrun⟩
    rw [← (hlinks t').1,← (hlinks t').2.1,← (hlinks t').2.2]
    unfold advanceTargets
    split_ifs
    · exact ⟨rfl,rfl,rfl⟩
    · exact ⟨rfl,rfl,rfl⟩
  · exact ⟨_,_,hin',hlinks,hconfirm⟩

/-- `rfu_changeSendTarget` leaves the slot, stops it, or takes targets away. -/
theorem changeNi_slot (s : Station) (j : Fin 4) (bm : Byte) :
    (changeNi s j bm).2.mem = s.mem ∧
      ((changeNi s j bm).2.niSend j = s.niSend j ∨
        (∀ b, bm.getLsbD b = true → (s.niSend j).bmSlot.getLsbD b = true) ∧
          ((changeNi s j bm).2.niSend j).bmSlot = bm ∧
          (Stopped ((changeNi s j bm).2.niSend j) ∨ bm ≠ 0 ∧ ∃ fails,
            (changeNi s j bm).2.niSend j = { s.niSend j with failCounter := fails, bmSlot := bm })) := by
  unfold changeNi
  dsimp only
  split_ifs with hstate hmore hsame
  · exact ⟨rfl,.inl rfl⟩
  · exact ⟨rfl,.inl rfl⟩
  · exact ⟨rfl,.inl rfl⟩
  · have hsub : ∀ b, bm.getLsbD b = true → (s.niSend j).bmSlot.getLsbD b = true := by
      intro b hb
      have hand := congrArg (fun m : Byte => m.getLsbD b) (not_not.mp hmore)
      simpa [hb] using hand
    have hfail : ∀ diff : Byte, ∃ fails, clearFailCounters s.niSend diff j =
        { s.niSend j with failCounter := fails } := by
      intro diff
      unfold clearFailCounters
      split_ifs
      · exact ⟨0,rfl⟩
      · exact ⟨(s.niSend j).failCounter,rfl⟩
    obtain ⟨fails,hfails⟩ := hfail (bm ^^^ (s.niSend j).bmSlot)
    unfold shrinkNi
    dsimp only
    split_ifs with hzero
    · obtain ⟨p,c,heq⟩ := releaseFrame_eq { s with
        niSendFlag := ~~~(bm ^^^ (s.niSend j).bmSlot) &&& s.niSendFlag
        niSend := Function.update (clearFailCounters s.niSend (bm ^^^ (s.niSend j).bmSlot)) j
          { clearFailCounters s.niSend (bm ^^^ (s.niSend j).bmSlot) j with bmSlot := bm } } j false
        { clearFailCounters s.niSend (bm ^^^ (s.niSend j).bmSlot) j with bmSlot := bm }
      simp only [Function.update_self,heq]
      exact ⟨trivial,.inr ⟨hsub,trivial,.inl (.inr rfl)⟩⟩
    · refine ⟨rfl,.inr ⟨hsub,by simp,.inr ⟨hzero,fails,?_⟩⟩⟩
      simp only [Function.update_self,hfails]

/-- A send that was acknowledged to its end stops. -/
theorem finishSend_slot (s : Station) (j : Fin 4) :
    (Rfu.finishSend s j).mem = s.mem ∧ ((Rfu.finishSend s j).niSend j).bmSlot = (s.niSend j).bmSlot ∧
      ((Rfu.finishSend s j).niSend j = s.niSend j ∨ Stopped ((Rfu.finishSend s j).niSend j)) := by
  unfold Rfu.finishSend
  dsimp only
  by_cases hstate : (s.niSend j).state = 0x8020
  · obtain ⟨p,c,heq⟩ := releaseFrame_eq s j false (s.niSend j)
    rw [if_pos hstate,heq]
    simp only [Function.update_self]
    exact ⟨trivial,trivial,.inr (.inl rfl)⟩
  · rw [if_neg hstate]
    exact ⟨rfl,rfl,.inl rfl⟩

end Sender

section Network
variable {T : Transfer} {j t : Fin 4} {targets : Byte} {base : Fin 4 → ℕ} {mem₀ : Fin 4 → ℕ → Byte}
  {net : Net} {p : Fin 4 → Pair Channel}

/-- The network and the pairs of its targets have come as far. -/
structure Tracks (T : Transfer) (j : Fin 4) (targets : Byte) (base : Fin 4 → ℕ) (mem₀ : Fin 4 → ℕ → Byte)
    (net : Net) (p : Fin 4 → Pair Channel) : Prop where
  mem : net.sender.mem = T.mem
  mask : ∀ b, (net.sender.niSend j).bmSlot.getLsbD b = true → targets.getLsbD b = true
  sender : Stopped (net.sender.niSend j) ∨ ∃ out, Running T (net.sender.niSend j) net.acknowledged p out
  inStep : ∀ t, InStep T.plan (p t)
  forward : ∀ t : Fin 4, targets.getLsbD t = true →
    List.Forall₂ (Carries T) (net.forward t) (p t).forward
  back : ∀ t : Fin 4, targets.getLsbD t = true → List.Forall₂ Reports (net.back t) (p t).back
  receiver : ∀ t : Fin 4, targets.getLsbD t = true →
    Receives T t (base t) (mem₀ t) (net.receiver t) (p t).got

/-- A pair changes in its links and its receiver only. -/
theorem Running.relink {x : NiSlot} {log : List (Fin 4 × Ptr)} {out : Channel → ℕ}
    (h : Running T x log p out) {q : Pair Channel} (hout : q.out = (p t).out)
    (hacked : q.acked = (p t).acked) : Running T x log (Function.update p t q) out := by
  refine h.congr h.sends h.stage rfl rfl rfl ?_
  rw [Function.forall_update_iff p fun t' q' => q'.out = (p t').out ∧ q'.acked = (p t').acked]
  exact ⟨⟨hout,hacked⟩,fun _ _ => ⟨rfl,rfl⟩⟩

/-- A step between target `t` and its links. -/
theorem Tracks.atTarget (h : Tracks T j targets base mem₀ net p) {q : Pair Channel} {s : Station}
    {l r : List SubFrame} (hin : InStep T.plan q) (hout : q.out = (p t).out)
    (hacked : q.acked = (p t).acked)
    (hforward : targets.getLsbD t = true → List.Forall₂ (Carries T) l q.forward)
    (hback : targets.getLsbD t = true → List.Forall₂ Reports r q.back)
    (hrecv : targets.getLsbD t = true → Receives T t (base t) (mem₀ t) s q.got) :
    Tracks T j targets base mem₀
      { net with
        receiver := Function.update net.receiver t s, forward := Function.update net.forward t l
        back := Function.update net.back t r } (Function.update p t q) where
  mem := h.mem
  mask := h.mask
  sender := h.sender.imp id fun ⟨out,hrun⟩ => ⟨out,hrun.relink hout hacked⟩
  inStep := by
    rw [Function.forall_update_iff p fun _ q => InStep T.plan q]
    exact ⟨hin,fun t' _ => h.inStep t'⟩
  forward := forall_update₂ net.forward p (fun t' fs q => targets.getLsbD t' = true →
    List.Forall₂ (Carries T) fs q.forward) hforward fun t' _ => h.forward t'
  back := forall_update₂ net.back p (fun t' fs q => targets.getLsbD t' = true →
    List.Forall₂ Reports fs q.back) hback fun t' _ => h.back t'
  receiver := forall_update₂ net.receiver p (fun t' s q => targets.getLsbD t' = true →
    Receives T t' (base t') (mem₀ t') s q.got) hrecv fun t' _ => h.receiver t'

theorem Stopped.not_active {x : NiSlot} (h : Stopped x) : x.active = false := by
  obtain hstate | hstate := h
  · rw [NiSlot.active,hstate]
    decide
  · rw [NiSlot.active,hstate]
    decide

theorem Tracks.send (h : Tracks T j targets base mem₀ net p) :
    ∃ q, Tracks T j targets base mem₀ (netSend j net) q := by
  unfold netSend
  dsimp only
  by_cases hactive : (net.sender.niSend j).active = true
  · rw [if_pos hactive]
    obtain hstop | ⟨out,hrun⟩ := h.sender
    · rw [hstop.not_active] at hactive
      cases hactive
    obtain ⟨c,hopen,hcarries⟩ := subFrame_carries hrun.sends hrun.stage net.sender.mode
    have hmask : (net.sender.niSend j).advance.bmSlot = (net.sender.niSend j).bmSlot := by
      unfold NiSlot.advance
      split_ifs
      · rfl
      · rfl
    let q : Fin 4 → Pair Channel := fun t =>
      if (net.sender.niSend j).bmSlot.getLsbD t = true then (p t).send c else p t
    have hq : ∀ t, (q t).out = (p t).out ∧ (q t).acked = (p t).acked ∧ (q t).got = (p t).got ∧
        (q t).back = (p t).back := by
      intro t
      dsimp only [q]
      split_ifs
      · exact ⟨rfl,rfl,rfl,rfl⟩
      · exact ⟨rfl,rfl,rfl,rfl⟩
    refine ⟨q,h.mem,fun b hb => ?_,.inr ⟨out,?_⟩,fun t => ?_,fun t ht => ?_,fun t ht => ?_,fun t ht => ?_⟩
    · simp only [Function.update_self,hmask] at hb
      exact h.mask b hb
    · simp only [Function.update_self]
      exact hrun.send fun t => ⟨(hq t).1,(hq t).2.1⟩
    · dsimp only [q]
      split_ifs with ht
      · refine (h.inStep t).send ?_
        rw [hrun.shared t ht]
        exact hopen
      · exact h.inStep t
    · dsimp only [q]
      split_ifs with hbit
      · refine forall₂_append_singleton (h.forward t ht) ?_
        rw [hrun.shared t hbit,h.mem]
        exact hcarries
      · exact h.forward t ht
    · rw [(hq t).2.2.2]
      exact h.back t ht
    · rw [(hq t).2.2.1]
      exact h.receiver t ht
  · rw [if_neg hactive]
    exact ⟨p,h⟩

theorem Tracks.deliver (h : Tracks T j targets base mem₀ net p) (t : Fin 4) :
    ∃ q, Tracks T j targets base mem₀ (netDeliver net t) q := by
  unfold netDeliver
  cases hframes : net.forward t with
  | nil => exact ⟨p,h⟩
  | cons f rest =>
    dsimp only
    by_cases ht : targets.getLsbD t = true
    · have hlink := h.forward t ht
      rw [hframes] at hlink
      generalize hmessages : (p t).forward = messages at hlink
      obtain _ | ⟨hcarries,hrest⟩ := hlink
      rename_i x rest'
      have hmem : x ∈ (p t).forward := by rw [hmessages]; exact List.mem_cons_self
      have hstep := h.atTarget (t := t) (q := (p t).deliver x rest') (s := niReceiveReceiver (net.receiver t) t f)
        (r := net.back t) ((h.inStep t).deliver hmessages) rfl rfl (fun _ => hrest) (h.back t)
        (fun _ => (h.receiver t ht).deliver (h.inStep t) hmem hcarries)
      rw [Function.update_eq_self] at hstep
      exact ⟨_,hstep⟩
    · have hstep := h.atTarget (t := t) (q := p t) (s := niReceiveReceiver (net.receiver t) t f)
        (l := rest) (r := net.back t) (h.inStep t) rfl rfl (fun hbit => absurd hbit ht)
        (fun hbit => absurd hbit ht) (fun hbit => absurd hbit ht)
      rw [Function.update_eq_self] at hstep
      exact ⟨_,hstep⟩

theorem Tracks.answer (h : Tracks T j targets base mem₀ net p) (t : Fin 4) :
    ∃ q, Tracks T j targets base mem₀ (netAnswer net t) q := by
  unfold netAnswer
  dsimp only
  by_cases hactive : ((net.receiver t).niRecv t).active = true
  · rw [if_pos hactive]
    by_cases ht : targets.getLsbD t = true
    · obtain ⟨c,hreports⟩ := (h.receiver t ht).answer hactive
      have hstep := h.atTarget (t := t) (q := (p t).answer c) (s := net.receiver t) (l := net.forward t)
        ((h.inStep t).answer c) rfl rfl (h.forward t)
        (fun _ => forall₂_append_singleton (h.back t ht) hreports) (h.receiver t)
      rw [Function.update_eq_self,Function.update_eq_self] at hstep
      exact ⟨_,hstep⟩
    · have hstep := h.atTarget (t := t) (q := p t) (s := net.receiver t) (l := net.forward t)
        (r := net.back t ++ [((net.receiver t).niRecv t).subFrame (net.receiver t).mode (net.receiver t).mem])
        (h.inStep t) rfl rfl (h.forward t) (fun hbit => absurd hbit ht) (h.receiver t)
      rw [Function.update_eq_self,Function.update_eq_self] at hstep
      exact ⟨_,hstep⟩
  · rw [if_neg hactive]
    exact ⟨p,h⟩

/-- The links of target `t` change and nothing else does. -/
theorem Tracks.relink (h : Tracks T j targets base mem₀ net p) {l r : List SubFrame}
    {m u : List (Channel × ℕ)} (hin : InStep T.plan { p t with forward := m, back := u })
    (hforward : targets.getLsbD t = true → List.Forall₂ (Carries T) l m)
    (hback : targets.getLsbD t = true → List.Forall₂ Reports r u) :
    ∃ q, Tracks T j targets base mem₀
      { net with forward := Function.update net.forward t l, back := Function.update net.back t r } q := by
  have hstep := h.atTarget (t := t) (q := { p t with forward := m, back := u }) (s := net.receiver t) hin
    rfl rfl hforward hback (h.receiver t)
  rw [Function.update_eq_self] at hstep
  exact ⟨_,hstep⟩

theorem Tracks.relinkForward (h : Tracks T j targets base mem₀ net p) {l : List SubFrame}
    {m : List (Channel × ℕ)} (hin : InStep T.plan { p t with forward := m })
    (hforward : targets.getLsbD t = true → List.Forall₂ (Carries T) l m) :
    ∃ q, Tracks T j targets base mem₀ { net with forward := Function.update net.forward t l } q := by
  have hstep := h.relink (r := net.back t) (u := (p t).back) hin hforward (h.back t)
  rw [Function.update_eq_self] at hstep
  exact hstep

theorem Tracks.relinkBack (h : Tracks T j targets base mem₀ net p) {r : List SubFrame}
    {u : List (Channel × ℕ)} (hin : InStep T.plan { p t with back := u })
    (hback : targets.getLsbD t = true → List.Forall₂ Reports r u) :
    ∃ q, Tracks T j targets base mem₀ { net with back := Function.update net.back t r } q := by
  have hstep := h.relink (l := net.forward t) (m := (p t).forward) hin (h.forward t) hback
  rw [Function.update_eq_self] at hstep
  exact hstep

/-- The sending slot changes and the pairs with it. -/
theorem Tracks.atSender (h : Tracks T j targets base mem₀ net p) {s : Station} {log : List (Fin 4 × Ptr)}
    {back : Fin 4 → List SubFrame} {q : Fin 4 → Pair Channel} (hmem : s.mem = net.sender.mem)
    (hmask : ∀ b, (s.niSend j).bmSlot.getLsbD b = true → (net.sender.niSend j).bmSlot.getLsbD b = true)
    (hsender : Stopped (s.niSend j) ∨ ∃ out, Running T (s.niSend j) log q out)
    (hin : ∀ t, InStep T.plan (q t))
    (hsame : ∀ t, (q t).got = (p t).got ∧ (q t).forward = (p t).forward)
    (hback : ∀ t : Fin 4, targets.getLsbD t = true → List.Forall₂ Reports (back t) (q t).back) :
    Tracks T j targets base mem₀ { net with sender := s, acknowledged := log, back := back } q where
  mem := hmem.trans h.mem
  mask b hb := h.mask b (hmask b hb)
  sender := hsender
  inStep := hin
  forward t ht := by
    rw [(hsame t).2]
    exact h.forward t ht
  back := hback
  receiver t ht := by
    rw [(hsame t).1]
    exact h.receiver t ht

theorem Tracks.confirm (h : Tracks T j targets base mem₀ net p) (t : Fin 4) :
    ∃ q, Tracks T j targets base mem₀ (netConfirm j net t) q := by
  unfold netConfirm
  cases hanswers : net.back t with
  | nil => exact ⟨p,h⟩
  | cons f rest =>
    dsimp only
    have hlink : targets.getLsbD t = true → ∃ c r rest', (p t).back = (c,r)::rest' ∧ Reports f (c,r) ∧
        List.Forall₂ Reports rest rest' := by
      intro ht
      have hlink := h.back t ht
      rw [hanswers] at hlink
      generalize (p t).back = reports at hlink
      obtain _ | ⟨hreports,hrest⟩ := hlink
      exact ⟨_,_,_,rfl,hreports,hrest⟩
    by_cases htake : ((net.sender.niSend j).bmSlot.getLsbD t && net.sender.niSendFlag.getLsbD t) = true
    · rw [if_pos htake]
      have hbit : (net.sender.niSend j).bmSlot.getLsbD t = true := (Bool.and_eq_true_iff.mp htake).1
      obtain ⟨c,r,rest',hback,hreports,hrest⟩ := hlink (h.mask t hbit)
      obtain ⟨fails,hslot,hmem⟩ := niReceiveSender_slot net.sender j t f
      have hmask : ((niReceiveSender net.sender j t f).niSend j).bmSlot = (net.sender.niSend j).bmSlot := by
        rw [hslot]
        exact receiveAck_bmSlot _ t f
      obtain hstop | ⟨out,hrun⟩ := h.sender
      · -- the slot has stopped: only the pair of target `t` takes the answer
        refine ⟨_,h.atSender (q := Function.update p t ((p t).confirm (c,r) rest')) hmem
          (fun b hb => by rwa [hmask] at hb) (.inl ?_) ?_ ?_ ?_⟩
        · rw [hslot]
          exact hstop.receiveAck t f
        · rw [Function.forall_update_iff p fun _ q => InStep T.plan q]
          exact ⟨(h.inStep t).confirm hback,fun t' _ => h.inStep t'⟩
        · rw [Function.forall_update_iff p fun t' q =>
            q.got = (p t').got ∧ q.forward = (p t').forward]
          exact ⟨⟨rfl,rfl⟩,fun _ _ => ⟨rfl,rfl⟩⟩
        · exact forall_update₂ net.back p (fun t' fs q => targets.getLsbD t' = true →
            List.Forall₂ Reports fs q.back) (fun _ => hrest) fun t' _ => h.back t'
      · obtain ⟨q,out',hin,hsame,hrun'⟩ := hrun.receiveAck h.inStep hbit hreports hback
        refine ⟨q,h.atSender hmem (fun b hb => by rwa [hmask] at hb) (.inr ⟨out',?_⟩) hin
          (fun t' => ⟨(hsame t').1,(hsame t').2.1⟩) (fun t' ht' => ?_)⟩
        · rw [hslot]
          exact hrun'.failCounter fails
        · rw [(hsame t').2.2]
          by_cases heq : t' = t
          · subst heq
            rw [Function.update_self,if_pos rfl]
            exact hrest
          · rw [Function.update_of_ne heq,if_neg heq]
            exact h.back t' ht'
    · rw [if_neg htake]
      by_cases ht : targets.getLsbD t = true
      · obtain ⟨c,r,rest',hback,-,hrest⟩ := hlink ht
        refine h.relinkBack (u := rest') ((h.inStep t).back_of ?_ ?_) (fun _ => hrest)
        · intro x hx
          rw [hback]
          exact List.mem_cons_of_mem _ hx
        · have horder := (h.inStep t).backOrder
          rw [hback] at horder
          exact (List.pairwise_cons.mp horder).2
      · exact h.relinkBack (u := (p t).back) (h.inStep t) (fun hbit => absurd hbit ht)

theorem Tracks.changeSendTarget (h : Tracks T j targets base mem₀ net p) (bm : Byte) :
    ∃ q, Tracks T j targets base mem₀ { net with sender := (changeNi net.sender j bm).2 } q := by
  obtain ⟨hmem,hslot⟩ := changeNi_slot net.sender j bm
  obtain hsame | ⟨hsub,hbm,hcase⟩ := hslot
  · exact ⟨p,h.atSender hmem (fun b hb => by rwa [hsame] at hb) (by rw [hsame]; exact h.sender) h.inStep
      (fun _ => ⟨rfl,rfl⟩) h.back⟩
  · refine ⟨p,h.atSender hmem (fun b hb => hsub b (by rwa [hbm] at hb)) ?_ h.inStep (fun _ => ⟨rfl,rfl⟩)
      h.back⟩
    obtain hstop | ⟨hne,fails,heq⟩ := hcase
    · exact .inl hstop
    · rw [heq]
      exact h.sender.imp id fun ⟨out,hrun⟩ => ⟨out,(hrun.failCounter fails).shrink hne hsub⟩

theorem Tracks.finishSend (h : Tracks T j targets base mem₀ net p) :
    ∃ q, Tracks T j targets base mem₀ { net with sender := Rfu.finishSend net.sender j } q := by
  obtain ⟨hmem,hmask,hslot⟩ := finishSend_slot net.sender j
  refine ⟨p,h.atSender hmem (fun b hb => by rwa [hmask] at hb) ?_ h.inStep (fun _ => ⟨rfl,rfl⟩) h.back⟩
  obtain hsame | hstop := hslot
  · rw [hsame]
    exact h.sender
  · exact .inl hstop

theorem Tracks.finishRecv (h : Tracks T j targets base mem₀ net p) (t : Fin 4) :
    ∃ q, Tracks T j targets base mem₀
      { net with receiver := Function.update net.receiver t (Rfu.finishRecv (net.receiver t) t) } q := by
  have hstep := h.atTarget (t := t) (q := p t) (s := Rfu.finishRecv (net.receiver t) t) (l := net.forward t)
    (r := net.back t) (h.inStep t) rfl rfl (h.forward t) (h.back t) (fun ht => (h.receiver t ht).finishRecv)
  rw [Function.update_eq_self,Function.update_eq_self] at hstep
  exact ⟨_,hstep⟩

theorem Tracks.step (h : Tracks T j targets base mem₀ net p) (e : NetEvent) :
    ∃ q, Tracks T j targets base mem₀ (netStep j net e) q := by
  cases e with
  | send => exact h.send
  | deliver t => exact h.deliver t
  | answer t => exact h.answer t
  | confirm t => exact h.confirm t
  | loseFrame t n =>
    exact h.relinkForward ((h.inStep t).loseForward n) (fun ht => forall₂_lose (h.forward t ht) n)
  | doubleFrame t n =>
    exact h.relinkForward ((h.inStep t).doubleForward n) (fun ht => forall₂_double (h.forward t ht) n)
  | loseAnswer t n =>
    exact h.relinkBack ((h.inStep t).loseBack n) (fun ht => forall₂_lose (h.back t ht) n)
  | doubleAnswer t n =>
    exact h.relinkBack ((h.inStep t).doubleBack n) (fun ht => forall₂_double (h.back t ht) n)
  | changeSendTarget bm => exact h.changeSendTarget bm
  | finishSend => exact h.finishSend
  | finishRecv t => exact h.finishRecv t

theorem Tracks.run (h : Tracks T j targets base mem₀ net p) (es : List NetEvent) :
    ∃ q, Tracks T j targets base mem₀ (es.foldl (netStep j) net) q := by
  induction es generalizing net p with
  | nil => exact ⟨p,h⟩
  | cons e es ih =>
    obtain ⟨q,hq⟩ := h.step e
    exact ih hq

end Network

section Reliable

/-- What an accepted request leaves in its slot. -/
theorem niSetSendData_slot {s : Station} {bm size : Byte} {src dataSize : ℕ}
    (h : (niSetSendData s bm size src dataSize).1 = 0) :
    ∃ fails, (niSetSendData s bm size src dataSize).2.niSend (lowestSlot bm) =
      { (s.niSend (lowestSlot bm)).startSend bm 0 (size.toNat - s.mode.header.size) src dataSize with
        failCounter := fails } ∧
      (niSetSendData s bm size src dataSize).2.mem = s.mem ∧ sendError s .ni bm size = 0 := by
  have herror : sendError s .ni bm size = 0 := by
    unfold niSetSendData setSendDataOrg at h
    dsimp only at h
    split_ifs at h with hpass
    · exact h
    · exact not_not.mp hpass
  have hstart : niSetSendData s bm size src dataSize = (0,startNi s bm size 0 src dataSize) := by
    unfold niSetSendData setSendDataOrg
    dsimp only
    rw [if_neg (not_not.mpr herror)]
  rw [hstart]
  unfold startNi
  dsimp only
  obtain ⟨p,c,heq⟩ := setFrameSize_eq { s with
    niSend := clearFailCounters (Function.update s.niSend (lowestSlot bm)
      ((s.niSend (lowestSlot bm)).startSend bm 0 (size.toNat - s.mode.header.size) src dataSize)) bm
    niSendFlag := bm ||| s.niSendFlag } (lowestSlot bm)
    ((frameSize s (lowestSlot bm) + 256 - size.toNat) % 256)
  rw [heq]
  dsimp only
  unfold clearFailCounters
  rw [Function.update_self]
  split_ifs
  · exact ⟨0,rfl,rfl,herror⟩
  · exact ⟨_,rfl,rfl,herror⟩

/-- The bytes a request asks to send. -/
def Transfer.ofRequest (s : Station) (size : Byte) (src dataSize : ℕ) (hsize : s.mode.header.size < size.toNat)
    (hpos : 0 < dataSize) (hlt : dataSize < 2^31) : Transfer where
  payload := size.toNat - s.mode.header.size
  size := dataSize
  src := src
  mem := s.mem
  payload_pos := Nat.sub_pos_of_lt hsize
  payload_lt := by
    have hbyte := size.isLt
    omega
  size_pos := hpos
  size_lt := hlt

/-- An accepted request starts the pairs. -/
theorem Tracks.initial {s : Station} {bm size : Byte} {src dataSize : ℕ} {receiver : Fin 4 → Station}
    (h : (niSetSendData s bm size src dataSize).1 = 0) (hsize : s.mode.header.size < size.toNat)
    (hpos : 0 < dataSize) (hlt : dataSize < 2^31)
    (hrecv : ∀ t : Fin 4, bm.getLsbD t = true →
      (receiver t).niRecv t = .zero ∧ dataSize ≤ ((receiver t).niBuffer t).size) :
    Tracks (Transfer.ofRequest s size src dataSize hsize hpos hlt) (lowestSlot bm) bm
      (fun t => ((receiver t).niBuffer t).address) (fun t => (receiver t).mem)
      (netInitial (niSetSendData s bm size src dataSize).2 receiver) (fun _ => Pair.initial) := by
  obtain ⟨fails,hslot,hmem,herror⟩ := niSetSendData_slot h
  have hbm : bm ≠ 0 := by
    rintro rfl
    exact absurd (sendError_targets herror).1 (by simp)
  refine ⟨hmem,fun b hb => ?_,.inr ⟨fun _ => 0,?_⟩,fun _ => .initial,fun t ht => .nil,fun t ht => .nil,fun t ht => ?_⟩
  · rw [netInitial,hslot] at hb
    exact hb
  · rw [netInitial,hslot]
    refine ⟨⟨rfl,rfl,rfl,rfl⟩,.control ⟨rfl,Transfer.blocks_pos _ (by decide),fun _ _ => rfl,rfl,rfl,?_,?_⟩,hbm,
      fun _ _ => rfl,fun k b hb => ?_,fun t ht k i hi => ?_⟩
    · simp [NiSlot.startSend]
    · simp [NiSlot.startSend]
    · simp [NiSlot.startSend] at hb
    · obtain hi | ⟨-,hi⟩ := hi
      · exact absurd hi (Nat.not_lt_zero i)
      · cases hi
  · exact ⟨rfl,(hrecv t ht).2,.fresh (hrecv t ht).1 rfl (fun _ _ => rfl)⟩

/-- A slot in state 0x8043 has taken everything. -/
theorem Receives.complete {T : Transfer} {t : Fin 4} {base : ℕ} {mem₀ : ℕ → Byte} {s : Station}
    {got : Channel → ℕ} (h : Receives T t base mem₀ s got) (hstate : (s.niRecv t).state = 0x8043) :
    CellMemory.read s.mem base T.size = T.data ∧
      ∀ a, a < base ∨ base + T.size ≤ a → s.mem a = mem₀ a := by
  obtain ⟨hdead,-⟩ | ⟨hx,-,-⟩ | ⟨hx,-,-,-,-⟩ | ⟨hx,-,-,-⟩ | ⟨-,hmem,hgot,-⟩ := h.slot
  · exact absurd (hdead.symm.trans hstate) (by decide)
  · rw [hx] at hstate
    exact absurd hstate (by decide)
  · exact absurd (hx.state.symm.trans hstate) (by decide)
  · exact absurd (hx.state.symm.trans hstate) (by decide)
  · refine ⟨hmem.complete hgot,fun a ha => ?_⟩
    rw [hmem a,if_neg]
    rintro ⟨hlow,hhigh,-⟩
    omega

/-- In its last stages the sending slot has an acknowledgement of each chunk from each target. -/
theorem Running.acknowledged {T : Transfer} {x : NiSlot} {log : List (Fin 4 × Ptr)} {p : Fin 4 → Pair Channel}
    {out : Channel → ℕ} (h : Running T x log p out) (hstate : x.state = 0x8023 ∨ x.state = 0x8020)
    {t : Fin 4} (ht : x.bmSlot.getLsbD t = true) {i : ℕ} (hi : i*T.payload < T.size) :
    (t,.data (T.src + i*T.payload)) ∈ log := by
  have hall : ∀ k, out (.data k) = T.plan.total (.data k) := by
    obtain h | h | h | h := h.stage
    · obtain hstate | hstate := hstate
      · exact absurd (h.state.symm.trans hstate) (by decide)
      · exact absurd (h.state.symm.trans hstate) (by decide)
    · obtain hstate | hstate := hstate
      · exact absurd (h.state.symm.trans hstate) (by decide)
      · exact absurd (h.state.symm.trans hstate) (by decide)
    · exact h.data
    · exact h.data
  have hindex : 4*(i/4) + (Fin.ofNat 4 i : Fin 4) = i := by
    rw [Fin.val_ofNat]
    omega
  have hlt : i/4 < out (.data (Fin.ofNat 4 i)) := by
    rw [hall,T.lt_total_data,hindex]
    exact hi
  have hlog := h.log t ht (Fin.ofNat 4 i) (i/4) (.inl hlt)
  rwa [hindex] at hlog

/-- Reliable transfer. However the consoles and their links take turns, and whatever the links lose or
repeat, a receive that reaches state 0x8043 has exactly the bytes of the sender in its buffer and has
written nowhere else; a send in its last stages has an acknowledgement of every chunk from every target
that is left. -/
theorem reliable_transfer {s : Station} {bm size : Byte} {src dataSize : ℕ} {receiver : Fin 4 → Station}
    (haccept : (niSetSendData s bm size src dataSize).1 = 0) (hpos : 0 < dataSize)
    (hrecv : ∀ t : Fin 4, bm.getLsbD t = true → (receiver t).niRecv t = .zero ∧
      dataSize ≤ ((receiver t).niBuffer t).size ∧ ((receiver t).niBuffer t).size < 2^31)
    (es : List NetEvent) :
    let net := es.foldl (netStep (lowestSlot bm)) (netInitial (niSetSendData s bm size src dataSize).2 receiver)
    let x := net.sender.niSend (lowestSlot bm)
    let payload := size.toNat - s.mode.header.size
    (∀ t : Fin 4, bm.getLsbD t = true → ((net.receiver t).niRecv t).state = 0x8043 →
      CellMemory.read (net.receiver t).mem ((receiver t).niBuffer t).address dataSize =
        CellMemory.read s.mem src dataSize ∧
      ∀ a, a < ((receiver t).niBuffer t).address ∨ ((receiver t).niBuffer t).address + dataSize ≤ a →
        (net.receiver t).mem a = (receiver t).mem a) ∧
    (x.state = 0x8023 ∨ x.state = 0x8020 → ∀ t : Fin 4, x.bmSlot.getLsbD t = true →
      ∀ i, i*payload < dataSize → (t,.data (src + i*payload)) ∈ net.acknowledged) := by
  intro net x payload
  obtain ⟨-,-,-,herror⟩ := niSetSendData_slot haccept
  have hsize := (sendError_size herror).2.1
  have hlt : dataSize < 2^31 := by
    obtain ⟨-,hle,hsmall⟩ := hrecv _ (sendError_targets herror).1
    omega
  obtain ⟨q,hq⟩ := (Tracks.initial haccept hsize hpos hlt
    (fun t ht => ⟨(hrecv t ht).1,(hrecv t ht).2.1⟩)).run es
  refine ⟨fun t ht hstate => (hq.receiver t ht).complete hstate,fun hstate t ht i hi => ?_⟩
  obtain hstop | ⟨out,hrun⟩ := hq.sender
  · obtain hstop | hstop := hstop
    · obtain hstate | hstate := hstate
      · exact absurd (hstate.symm.trans hstop) (by decide)
      · exact absurd (hstate.symm.trans hstop) (by decide)
    · obtain hstate | hstate := hstate
      · exact absurd (hstate.symm.trans hstop) (by decide)
      · exact absurd (hstate.symm.trans hstop) (by decide)
  · exact hrun.acknowledged hstate ht hi

def exampleSender : Station :=
  { initializeAPI 0x3000000 (fun a => BitVec.ofNat 8 a) with mode := .parent, connSlot := 1 }

def exampleReceiver (_ : Fin 4) : Station :=
  { initializeAPI 0x3000000 (fun _ => 0) with
    mode := .child, child := true, connSlot := 1, niBuffer := fun _ => ⟨0x2000000,0x40⟩ }

/-- Control data, one block of data and the end; one frame is lost, one repeated. -/
def exampleEvents : List NetEvent :=
  [.send,.loseFrame 0 0,.send,.doubleFrame 0 0,.deliver 0,.deliver 0,.answer 0,.confirm 0,
    .send,.deliver 0,.answer 0,.confirm 0,.send,.deliver 0,.answer 0,.confirm 0]

def exampleNet : Net :=
  exampleEvents.foldl (netStep (lowestSlot 1))
    (netInitial (niSetSendData exampleSender 1 10 5 3).2 exampleReceiver)

theorem reliable_transfer_example :
    (niSetSendData exampleSender 1 10 5 3).1 = 0 ∧ ((exampleNet.receiver 0).niRecv 0).state = 0x8043 ∧
      (exampleNet.sender.niSend (lowestSlot 1)).state = 0x8020 ∧
      CellMemory.read (exampleNet.receiver 0).mem 0x2000000 3 = CellMemory.read exampleSender.mem 5 3 ∧
      (0,.data (5 + 0*7)) ∈ exampleNet.acknowledged := by
  have haccept : (niSetSendData exampleSender 1 10 5 3).1 = 0 := by decide +kernel
  have hrecv : ((exampleNet.receiver 0).niRecv 0).state = 0x8043 := by decide +kernel
  have hsend : (exampleNet.sender.niSend (lowestSlot 1)).state = 0x8020 := by decide +kernel
  have hmask : (exampleNet.sender.niSend (lowestSlot 1)).bmSlot.getLsbD 0 = true := by decide +kernel
  have hfree : ∀ t : Fin 4, (1 : Byte).getLsbD t = true → (exampleReceiver t).niRecv t = .zero ∧
      3 ≤ ((exampleReceiver t).niBuffer t).size ∧ ((exampleReceiver t).niBuffer t).size < 2^31 :=
    fun t _ => ⟨rfl,Nat.le_of_ble_eq_true rfl,Nat.le_of_ble_eq_true rfl⟩
  have htransfer := reliable_transfer haccept (by decide) hfree exampleEvents
  dsimp only at htransfer
  rw [← exampleNet] at htransfer
  exact ⟨haccept,hrecv,hsend,(htransfer.1 0 (by decide) hrecv).1,
    htransfer.2 (.inr hsend) 0 hmask 0 (by decide)⟩

end Reliable

end Rfu
end AgbTools
