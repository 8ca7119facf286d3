import Mathlib.Tactic
import AgbTools.Stwi

/-! The life of an accepted request: its command goes out at most three times and its
outcome is decided and reported at most once, whatever interrupts come in between. -/
namespace AgbTools
namespace Stwi

open Runs

def Note.isAccepted : Note → Bool
  | .accepted _ => true
  | _ => false

def Note.isWire : Note → Bool
  | .wire _ => true
  | _ => false

def Note.isSettled : Note → Bool
  | .settled => true
  | _ => false

/-- A call of `callbackM` with the outcome of a request. -/
def Note.isOutcome : Note → Bool
  | .callM .outcome _ _ => true
  | _ => false

/-- Notes of one kind since the last accepted request. -/
def countSince (p : Note → Bool) (l : List Note) : ℕ :=
  (l.takeWhile fun n => !n.isAccepted).countP p

theorem countSince_cons {p : Note → Bool} {n : Note} (h : n.isAccepted = false) (l : List Note) :
    countSince p (n::l) = countSince p l + if p n then 1 else 0 := by
  simp [countSince,h,List.countP_cons]

theorem countSince_accepted (p : Note → Bool) (r : BitVec 8) (l : List Note) :
    countSince p (.accepted r::l) = 0 := by
  simp [countSince,Note.isAccepted]

/-- Times the current command was put on the wire. -/
def Driver.wires (s : Driver) : ℕ := countSince Note.isWire s.notes
/-- Outcomes decided for the current request. -/
def Driver.settles (s : Driver) : ℕ := countSince Note.isSettled s.notes
/-- Outcomes reported for the current request. -/
def Driver.outcomes (s : Driver) : ℕ := countSince Note.isOutcome s.notes

/-- The counts since the last accepted request agree. -/
structure SameTally (s t : Driver) : Prop where
  wires : t.wires = s.wires
  settles : t.settles = s.settles
  outcomes : t.outcomes = s.outcomes

theorem SameTally.of_notes {s t : Driver} (h : t.notes = s.notes) : SameTally s t := by
  constructor
  all_goals simp only [Driver.wires,Driver.settles,Driver.outcomes,h]

theorem SameTally.trans {s t u : Driver} (h : SameTally s t) (h' : SameTally t u) : SameTally s u :=
  ⟨h'.wires.trans h.wires,h'.settles.trans h.settles,h'.outcomes.trans h.outcomes⟩

/-- Notes about anything but a command's life. -/
def Note.isAside (n : Note) : Bool :=
  !n.isAccepted && !n.isWire && !n.isSettled && !n.isOutcome

theorem note_sameTally {n : Note} (h : n.isAside = true) (s : Driver) : SameTally s (note s n) := by
  obtain ⟨⟨⟨ha,hw⟩,hs⟩,ho⟩ : ((n.isAccepted = false ∧ n.isWire = false) ∧ n.isSettled = false) ∧
      n.isOutcome = false := by simpa only [Note.isAside,Bool.and_eq_true,Bool.not_eq_true'] using h
  refine ⟨?_,?_,?_⟩
  · simp [Driver.wires,note,countSince_cons ha,hw]
  · simp [Driver.settles,note,countSince_cons ha,hs]
  · simp [Driver.outcomes,note,countSince_cons ha,ho]

theorem callM_sameTally {r : Report} (h : r ≠ .outcome) (s : Driver) (c : BitVec 8)
    (code : BitVec 16) : SameTally s (callM s r c code) := by
  unfold callM
  split
  · apply note_sameTally
    cases r <;> first | rfl | contradiction
  · exact .of_notes rfl

theorem callS_sameTally (s : Driver) (arg : Word) : SameTally s (callS s arg) := by
  unfold callS
  split
  · exact note_sameTally rfl s
  · exact .of_notes rfl

/-- A command whose outcome is open. While its transfer runs the timer is off. -/
structure Running (s : Driver) : Prop where
  settles : s.settles = 0
  outcomes : s.outcomes = 0
  mode : s.msMode = 1
  wires : s.wires ≤ 1 + s.unk15.toNat
  retries : s.unk15.toNat ≤ 2
  timer : s.busy = true → s.timerState = 0

/-- No interrupt can act on a settled command again: in clock-master mode no transfer and no
timer is running, in clock-slave mode the timer can only reset the clock. -/
structure Settled (s : Driver) : Prop where
  settles : s.settles = 1
  outcomes : s.outcomes ≤ 1
  wires : s.wires ≤ 3
  quiet : (s.msMode = 1 ∧ s.busy = false ∧ s.timerState = 0) ∨
    (s.msMode = 0 ∧ (s.timerState = 0 ∨ s.timerState = 3))

def CompletionInv (s : Driver) : Prop := Running s ∨ Settled s

/-- A step that keeps the command's life and its clock mode. -/
theorem Running.congr {s t : Driver} (h : Running s) (hs : SameTally s t)
    (hm : t.msMode = s.msMode) (hr : t.unk15 = s.unk15)
    (ht : t.busy = true → t.timerState = 0) : Running t where
  settles := hs.settles.trans h.settles
  outcomes := hs.outcomes.trans h.outcomes
  mode := hm.trans h.mode
  wires := by rw [hs.wires,hr]; exact h.wires
  retries := by rw [hr]; exact h.retries
  timer := ht

theorem Settled.congr {s t : Driver} (h : Settled s) (hs : SameTally s t)
    (hq : (t.msMode = 1 ∧ t.busy = false ∧ t.timerState = 0) ∨
      (t.msMode = 0 ∧ (t.timerState = 0 ∨ t.timerState = 3))) : Settled t where
  settles := hs.settles.trans h.settles
  outcomes := by rw [hs.outcomes]; exact h.outcomes
  wires := by rw [hs.wires]; exact h.wires
  quiet := hq

/-- The counts after an outcome. -/
theorem settle_tally (s : Driver) (c : BitVec 8) (code : BitVec 16) :
    (callM (note s .settled) .outcome c code).wires = s.wires ∧
    (callM (note s .settled) .outcome c code).settles = s.settles + 1 ∧
    (callM (note s .settled) .outcome c code).outcomes ≤ s.outcomes + 1 := by
  unfold callM
  split
  all_goals
    simp only [Driver.wires,Driver.settles,Driver.outcomes,note]
    rw [countSince_cons rfl,countSince_cons rfl,countSince_cons rfl]
    try rw [countSince_cons rfl,countSince_cons rfl,countSince_cons rfl]
    simp [Note.isWire,Note.isSettled,Note.isOutcome]

/-- The outcome is decided by code that changed other fields before. -/
theorem Running.settled {s s' t : Driver} (h : Running s) (hn : s'.notes = s.notes) (c : BitVec 8)
    (code : BitVec 16) (hs : SameTally (callM (note s' .settled) .outcome c code) t)
    (hq : (t.msMode = 1 ∧ t.busy = false ∧ t.timerState = 0) ∨
      (t.msMode = 0 ∧ (t.timerState = 0 ∨ t.timerState = 3))) : Settled t := by
  obtain ⟨hw,hst,ho⟩ := settle_tally s' c code
  have hs' : SameTally s s' := .of_notes hn
  have := h.wires
  have := h.retries
  refine ⟨?_,?_,?_,hq⟩
  · rw [hs.settles,hst,hs'.settles,h.settles]
  · rw [hs.outcomes]
    have := h.outcomes
    have := hs'.outcomes
    omega
  · rw [hs.wires,hw,hs'.wires]
    omega

theorem Running.startCommand {s : Driver} (hst : s.settles = 0) (ho : s.outcomes = 0)
    (hm : s.msMode = 1) (hw : s.wires ≤ s.unk15.toNat) (hr : s.unk15.toNat ≤ 2)
    (ht : s.timerState = 0) : Running (startCommand s) where
  settles := by
    simp only [Driver.settles,Stwi.startCommand,note] at hst ⊢
    rw [countSince_cons rfl,hst]
    rfl
  outcomes := by
    simp only [Driver.outcomes,Stwi.startCommand,note] at ho ⊢
    rw [countSince_cons rfl,ho]
    rfl
  mode := hm
  wires := by
    simp only [Driver.wires,Stwi.startCommand,note] at hw ⊢
    rw [countSince_cons rfl]
    simp only [Note.isWire,if_true]
    omega
  retries := hr
  timer := fun _ => ht

theorem callM_fields (s : Driver) (r : Report) (c : BitVec 8) (code : BitVec 16) :
    ∃ notes, callM s r c code = { s with notes := notes } := by
  unfold callM
  split <;> exact ⟨_,rfl⟩

/-- A retry, or the third failure. -/
theorem Running.restartCommand {s : Driver} (h : Running s) (hb : s.busy = false)
    (ht : s.timerState = 0) : CompletionInv (restartCommand s) := by
  unfold Stwi.restartCommand
  split
  · rename_i hle
    have hle : s.unk15.toNat ≤ 1 := by simpa [BitVec.le_def] using hle
    have hadd : (s.unk15 + 1).toNat = s.unk15.toNat + 1 := by
      rw [BitVec.toNat_add]
      simp
      omega
    left
    apply Running.startCommand
    · exact h.settles
    · exact h.outcomes
    · exact h.mode
    · simp only [hadd]
      have := h.wires
      simp only [Driver.wires] at this ⊢
      omega
    · simp only [hadd]
      omega
    · exact ht
  · right
    obtain ⟨notes,hc⟩ := callM_fields (note { s with unk12 := 1, unk2c := 0 } .settled) .outcome
      s.activeCommand 1
    have hq : ({ s with unk12 := 1, unk2c := 0 } : Driver).msMode = 1 ∧
        ({ s with unk12 := 1, unk2c := 0 } : Driver).busy = false ∧
        ({ s with unk12 := 1, unk2c := 0 } : Driver).timerState = 0 := ⟨h.mode,hb,ht⟩
    dsimp only
    split
    all_goals
      refine @Running.settled s { s with unk12 := 1, unk2c := 0 } _ h rfl s.activeCommand 1 ?_ ?_
      · exact .of_notes rfl
      · rw [hc]
        exact Or.inl hq

theorem CompletionInv.intrTimer {s : Driver} (h : CompletionInv s) : CompletionInv (intrTimer s) := by
  unfold Stwi.intrTimer
  rcases h with h | h
  · -- with the timer on no transfer is running
    have hb : s.timerState ≠ 0 → s.busy = false := by
      intro hne
      by_contra hbusy
      exact hne (h.timer (by simpa using hbusy))
    split_ifs with h2 h14 h3
    · left
      refine h.congr (.of_notes rfl) rfl rfl ?_
      intro hbusy
      have := hb (by simp [h2])
      simp_all [setTimer,Driver.busy]
    · have hne : s.timerState ≠ 0 := by rcases h14 with h1 | h4 <;> simp [*]
      apply Running.restartCommand
      · exact h.congr (.of_notes rfl) rfl rfl fun _ => rfl
      · exact hb hne
      · rfl
    · left
      have hreset : Running (resetClockCounter (stopTimer { s with timerActive := 1 })) :=
        h.congr (.of_notes rfl) rfl rfl fun _ => rfl
      obtain ⟨notes,hc⟩ := callM_fields (resetClockCounter (stopTimer { s with timerActive := 1 }))
        .clockReset 255 0
      refine hreset.congr (callM_sameTally (by simp) _ _ _) ?_ ?_ ?_
      all_goals rw [hc]
      exact hreset.timer
    · exact Or.inl h
  · right
    split_ifs with h2 h14 h3
    · rcases h.quiet with ⟨-,-,h0⟩ | ⟨-,h0 | h0⟩ <;> simp [h0] at h2
    · rcases h.quiet with ⟨-,-,h0⟩ | ⟨-,h0 | h0⟩ <;> simp [h0] at h14
    · rcases h.quiet with ⟨-,-,h0⟩ | ⟨hm,-⟩
      · simp [h0] at h3
      · obtain ⟨notes,hc⟩ := callM_fields (resetClockCounter (stopTimer { s with timerActive := 1 }))
          .clockReset 255 0
        refine h.congr (SameTally.trans ?_ (callM_sameTally (by simp) _ _ _)) (Or.inr ?_)
        · exact .of_notes rfl
        · rw [hc]
          exact ⟨hm,Or.inl rfl⟩
    · exact h

theorem CompletionInv.refused {s : Driver} (h : CompletionInv s) (code : BitVec 16)
    (flag request : BitVec 8) :
    CompletionInv (callM { s with unk12 := code, unk2c := flag } .rejection request code) := by
  obtain ⟨notes,hc⟩ := callM_fields { s with unk12 := code, unk2c := flag } .rejection request code
  have ht := (SameTally.of_notes (s := s) (t := { s with unk12 := code, unk2c := flag }) rfl).trans
    (callM_sameTally (r := .rejection) (by simp) _ request code)
  rcases h with h | h
  · left
    refine h.congr ht ?_ ?_ ?_
    all_goals rw [hc]
    exact h.timer
  · right
    refine h.congr ht ?_
    rw [hc]
    exact h.quiet

/-- The mode flag is one of two values. -/
theorem CompletionInv.mode {s : Driver} (h : CompletionInv s) : s.msMode = 1 ∨ s.msMode = 0 := by
  rcases h with h | h
  · exact Or.inl h.mode
  · exact h.quiet.imp (fun h => h.1) fun h => h.1

/-- A request is refused, or starts from a driver whose command state is cleared. -/
theorem init_cases (s : Driver) (ime : Bool) (request : BitVec 8) :
    (∃ code flag, init s ime request =
      (callM { s with unk12 := code, unk2c := flag } .rejection request code,true)) ∨
    (s.msMode ≠ 0 ∧ ∃ t, init s ime request = (t,false) ∧ t.notes = .accepted request :: s.notes ∧
      t.msMode = s.msMode ∧ t.unk15 = 0 ∧ t.timerState = 0) := by
  unfold init
  split_ifs with h1 h2 h3
  · exact Or.inl ⟨6,s.unk2c,rfl⟩
  · exact Or.inl ⟨2,0,rfl⟩
  · exact Or.inl ⟨4,s.unk2c,rfl⟩
  · exact Or.inr ⟨h3,_,rfl,rfl,rfl,rfl,rfl⟩

theorem CompletionInv.send {s : Driver} (h : CompletionInv s) (ime : Bool) (r : Request) :
    CompletionInv (send s ime r) := by
  obtain ⟨code,flag,hi⟩ | ⟨hm,t,hi,hn,htm,htr,htt⟩ := init_cases s ime r.command
  · simp only [Stwi.send,hi]
    exact h.refused code flag r.command
  · simp only [Stwi.send,hi]
    left
    apply Running.startCommand
    · simp only [Driver.settles,hn,countSince_accepted]
    · simp only [Driver.outcomes,hn,countSince_accepted]
    · exact htm.trans (h.mode.resolve_right hm)
    · simp only [Driver.wires,hn,countSince_accepted,Nat.zero_le]
    · simp [htr]
    · exact htt

/-- Nothing that decides about the command changes. -/
structure SameCommand (s t : Driver) : Prop where
  tally : SameTally s t
  mode : t.msMode = s.msMode
  retries : t.unk15 = s.unk15
  sio : t.sioCnt = s.sioCnt
  timer : t.timerState = s.timerState

theorem SameCommand.trans {s t u : Driver} (h : SameCommand s t) (h' : SameCommand t u) :
    SameCommand s u :=
  ⟨h.tally.trans h'.tally,h'.mode.trans h.mode,h'.retries.trans h.retries,h'.sio.trans h.sio,
    h'.timer.trans h.timer⟩

theorem SameCommand.note {s t : Driver} (h : SameCommand s t) {n : Note} (hn : n.isAside = true) :
    SameCommand s (note t n) :=
  ⟨h.tally.trans (note_sameTally hn t),h.mode,h.retries,h.sio,h.timer⟩

theorem storeRx_sameCommand (s : Driver) (i : BitVec 8) (w : Word) :
    SameCommand s (storeRx s i w) := by
  have h : SameCommand s { s with
      rxPacket := Function.update s.rxPacket i.toNat w, msgWords := s.msgWords + 1 } :=
    ⟨.of_notes rfl,rfl,rfl,rfl,rfl⟩
  exact h.note rfl

theorem storeHeader_sameCommand (s : Driver) (w : Word) : SameCommand s (storeHeader s w) := by
  have h : SameCommand s { s with msgWords := 0, msgLength := (w.extractLsb' 8 8).toNat } :=
    ⟨.of_notes rfl,rfl,rfl,rfl,rfl⟩
  exact h.trans (storeRx_sameCommand _ _ _)

theorem masterContinue_sameCommand (s : Driver) : SameCommand s (masterContinue s) := by
  unfold masterContinue
  split
  · have h : SameCommand s { s with unk0 := 3 } := ⟨.of_notes rfl,rfl,rfl,rfl,rfl⟩
    exact h.note rfl
  · exact ⟨.of_notes rfl,rfl,rfl,rfl,rfl⟩

theorem masterReceive_sameCommand {s t : Driver} {w : Word} (h : masterReceive s w = some t) :
    SameCommand s t := by
  unfold masterReceive masterSend masterHeader at h
  split_ifs at h <;> obtain rfl := Option.some.inj h
  · have hs : SameCommand s { s with sioData := s.txPacket s.unk5.toNat, unk5 := s.unk5 + 1 } :=
      ⟨.of_notes rfl,rfl,rfl,rfl,rfl⟩
    exact hs.note rfl
  · exact ⟨.of_notes rfl,rfl,rfl,rfl,rfl⟩
  · refine (storeHeader_sameCommand s w).trans ?_
    have hset : SameCommand (storeHeader s w) { storeHeader s w with
        unk8 := 1, unk9 := w.extractLsb' 0 8, unk7 := w.extractLsb' 8 8 } :=
      ⟨.of_notes rfl,rfl,rfl,rfl,rfl⟩
    exact hset.trans (masterContinue_sameCommand _)
  · refine (storeRx_sameCommand s s.unk8 w).trans ?_
    have hset : SameCommand (storeRx s s.unk8 w) { storeRx s s.unk8 w with unk8 := s.unk8 + 1 } :=
      ⟨.of_notes rfl,rfl,rfl,rfl,rfl⟩
    exact hset.trans (masterContinue_sameCommand _)
  · exact ⟨.of_notes rfl,rfl,rfl,rfl,rfl⟩

/-- In the waits of the clock master the timer is the one that only raises a flag, or the
flag is up and the wait ends at once. -/
theorem handshakeWait_master {s : Driver} (h : s.timerState = 2 ∨ s.timerActive = 1) (w : Wait) :
    ∃ a t, (handshakeWait s w).1 = { s with timerActive := a, timerState := t } ∧
      ((handshakeWait s w).2 = false → t = 2 ∨ a = 1) := by
  unfold handshakeWait
  split
  · exact ⟨0,s.timerState,rfl,by simp⟩
  · rename_i ha
    have ht : s.timerState = 2 := h.resolve_right ha
    have htimer : intrTimer s = { s with timerActive := 1, timerState := 1 } := by
      simp [intrTimer,ht,setTimer]
    cases w with
    | reached => exact ⟨s.timerActive,s.timerState,rfl,fun _ => Or.inl ht⟩
    | late => exact ⟨1,1,htimer,fun _ => Or.inr rfl⟩
    | timedOut => exact ⟨0,1,by simp [htimer],by simp⟩

theorem Running.masterFinish {s : Driver} (h : Running s) (ht : s.timerState = 0) :
    Settled (masterFinish s) := by
  have hset : ∀ s' : Driver, s'.notes = s.notes → s'.timerState = 0 →
      (s'.msMode = 1 ∧ s'.busy = false ∨ s'.msMode = 0) → ∀ c code,
      Settled (callM (note s' .settled) .outcome c code) := by
    intro s' hn h0 hm c code
    obtain ⟨notes,hc⟩ := callM_fields (note s' .settled) .outcome c code
    refine h.settled hn c code (.of_notes rfl) ?_
    rw [hc]
    exact hm.imp (fun hm => ⟨hm.1,hm.2,h0⟩) fun hm => ⟨hm,Or.inl h0⟩
  unfold Stwi.masterFinish
  dsimp only
  split_ifs <;> apply hset
  · rfl
  · exact ht
  · exact Or.inr rfl
  · rfl
  · exact ht
  · exact Or.inl ⟨h.mode,by simp [Driver.busy]⟩
  · rfl
  · exact ht
  · exact Or.inl ⟨h.mode,by simp [Driver.busy]⟩

theorem Running.clockMaster {s : Driver} (h : Running s) (hb : s.busy = false) (w : Word)
    (w1 w2 : Wait) : CompletionInv (clockMaster s w w1 w2) := by
  have hidle : ∀ {p : Prop} {t : Driver}, t.sioCnt = s.sioCnt → t.busy = true → p := by
    intro p t hsio hbusy
    rw [Driver.busy,hsio] at hbusy
    exact absurd (hbusy.symm.trans hb) (by simp)
  unfold Stwi.clockMaster
  dsimp only
  split
  · left
    exact h.congr (.of_notes rfl) rfl rfl (hidle rfl)
  · rename_i t ht
    have hs := masterReceive_sameCommand ht
    have htally : SameTally s t := SameTally.trans (t := setTimer s .t80) (.of_notes rfl) hs.tally
    have hrun : Running t := h.congr htally hs.mode hs.retries (hidle hs.sio)
    obtain ⟨a1,t1,h1,hgo1⟩ := handshakeWait_master (Or.inl hs.timer) w1
    split
    · left
      rw [h1]
      exact hrun.congr (.of_notes rfl) rfl rfl (hidle hs.sio)
    · rename_i hw1
      have hflag := hgo1 (by simpa using hw1)
      rw [h1]
      obtain ⟨a2,t2,h2,-⟩ := handshakeWait_master
        (s := { t with timerActive := a1, timerState := t1, sioCnt := 0x500B }) hflag w2
      split
      · left
        rw [h2]
        exact hrun.congr (.of_notes rfl) rfl rfl (by simp [Driver.busy])
      · rw [h2]
        have hstop : Running (stopTimer { t with timerActive := a2, timerState := t2, sioCnt := 0x500B }) :=
          hrun.congr (.of_notes rfl) rfl rfl fun _ => rfl
        split
        · exact Or.inr (hstop.masterFinish rfl)
        · left
          exact hstop.congr (.of_notes rfl) rfl rfl fun _ => rfl

/-- A settled command in clock-slave mode. -/
structure SlaveQuiet (s : Driver) : Prop where
  settled : Settled s
  mode : s.msMode = 0
  timer : s.timerState = 0 ∨ s.timerState = 3

theorem SlaveQuiet.congr {s t : Driver} (h : SlaveQuiet s) (hs : SameTally s t)
    (hm : t.msMode = 0) (ht : t.timerState = 0 ∨ t.timerState = 3) : SlaveQuiet t :=
  ⟨h.settled.congr hs (Or.inr ⟨hm,ht⟩),hm,ht⟩

theorem SlaveQuiet.intrTimer {s : Driver} (h : SlaveQuiet s) : SlaveQuiet (intrTimer s) := by
  unfold Stwi.intrTimer
  split_ifs with h2 h14 h3
  · rcases h.timer with h0 | h0 <;> simp [h0] at h2
  · rcases h.timer with h0 | h0 <;> simp [h0] at h14
  · obtain ⟨notes,hc⟩ := callM_fields (resetClockCounter (stopTimer { s with timerActive := 1 }))
      .clockReset 255 0
    refine h.congr (SameTally.trans ?_ (callM_sameTally (by simp) _ _ _)) ?_ ?_
    · exact .of_notes rfl
    · rw [hc]
      exact h.mode
    · rw [hc]
      exact Or.inl rfl
  · exact h

theorem SlaveQuiet.handshakeWait {s : Driver} (h : SlaveQuiet s) (w : Wait) :
    SlaveQuiet (handshakeWait s w).1 := by
  unfold Stwi.handshakeWait
  split
  · exact h.congr (.of_notes rfl) h.mode h.timer
  · cases w with
    | reached => exact h
    | late => exact h.intrTimer
    | timedOut => exact h.intrTimer.congr (.of_notes rfl) h.intrTimer.mode h.intrTimer.timer

theorem slaveReply_sameCommand (s : Driver) : SameCommand s (slaveReply s) := by
  have h : SameCommand s { s with sioData := s.txPacket 0, unk8 := 1, unk0 := 7 } :=
    ⟨.of_notes rfl,rfl,rfl,rfl,rfl⟩
  exact h.note rfl

theorem slaveAnswer_sameCommand (s : Driver) (lowest : BitVec 8) :
    SameCommand s (slaveAnswer s lowest) := by
  have h : SameCommand s (complete s) := (⟨.of_notes rfl,rfl,rfl,rfl,rfl⟩ : SameCommand s s).note rfl
  unfold slaveAnswer
  split
  all_goals
    refine h.trans (SameCommand.trans ?_ (slaveReply_sameCommand _))
    exact ⟨.of_notes rfl,rfl,rfl,rfl,rfl⟩

theorem slaveReceive_sameCommand (s : Driver) (w : Word) : SameCommand s (slaveReceive s w).1 := by
  have hh := storeHeader_sameCommand s w
  have hw := storeRx_sameCommand s s.unk5 w
  unfold slaveReceive slaveHeader slaveWord slaveSend
  dsimp only
  split_ifs
  · exact hh.trans ⟨.of_notes rfl,rfl,rfl,rfl,rfl⟩
  · refine hh.trans (SameCommand.trans ?_ (slaveAnswer_sameCommand _ _))
    exact ⟨.of_notes rfl,rfl,rfl,rfl,rfl⟩
  · exact hh.trans ⟨.of_notes rfl,rfl,rfl,rfl,rfl⟩
  · refine hw.trans (SameCommand.trans ?_ (slaveAnswer_sameCommand _ _))
    exact ⟨.of_notes rfl,rfl,rfl,rfl,rfl⟩
  · exact hw.trans ⟨.of_notes rfl,rfl,rfl,rfl,rfl⟩
  · exact ⟨.of_notes rfl,rfl,rfl,rfl,rfl⟩
  · exact ⟨.of_notes rfl,rfl,rfl,rfl,rfl⟩
  · have hs : SameCommand s { s with sioData := s.txPacket s.unk8.toNat, unk8 := s.unk8 + 1 } :=
      ⟨.of_notes rfl,rfl,rfl,rfl,rfl⟩
    exact hs.note rfl
  · exact ⟨.of_notes rfl,rfl,rfl,rfl,rfl⟩

theorem callS_quiet {s : Driver} {p : BitVec 8 → BitVec 16 → Word → Prop}
    (h : p s.msMode s.sioCnt s.timerState) (arg : Word) :
    p (callS s arg).msMode (callS s arg).sioCnt (callS s arg).timerState := by
  unfold callS
  split <;> exact h

/-- At its end the clock slave hands the clock back with the timer off. -/
theorem SlaveQuiet.slaveFinish {s : Driver} (h : SlaveQuiet s) : Settled (slaveFinish s) := by
  unfold Stwi.slaveFinish
  dsimp only
  split_ifs
  · refine h.settled.congr (SameTally.trans ?_ (callS_sameTally _ _)) (Or.inr ?_)
    · exact .of_notes rfl
    · apply callS_quiet (p := fun m _ t => m = 0 ∧ (t = 0 ∨ t = 3))
      exact ⟨rfl,Or.inl rfl⟩
  · refine h.settled.congr (SameTally.trans ?_ (callS_sameTally _ _)) (Or.inl ?_)
    · exact .of_notes rfl
    · apply callS_quiet (p := fun m c t => m = 1 ∧ c.getLsbD 7 = false ∧ t = 0)
      exact ⟨rfl,by simp,rfl⟩
  · exact h.settled.congr (.of_notes rfl) (Or.inr ⟨h.mode,h.timer⟩)

theorem SlaveQuiet.clockSlave {s : Driver} (h : SlaveQuiet s) (w : Word) (w1 w2 : Wait) :
    Settled (clockSlave s w w1 w2) := by
  have hset : SlaveQuiet (setTimer { s with timerActive := 0 } .t100) :=
    h.congr (.of_notes rfl) h.mode (Or.inr rfl)
  have h1 := hset.handshakeWait w1
  unfold Stwi.clockSlave
  dsimp only
  split
  · exact h1.settled
  · generalize (Stwi.handshakeWait (setTimer { s with timerActive := 0 } .t100) w1).1 = t at h1
    have hs := slaveReceive_sameCommand { t with sioCnt := 0x500A } w
    have htally : SameTally t { t with sioCnt := 0x500A } := .of_notes rfl
    have h2 := h1.congr (htally.trans hs.tally) (hs.mode.trans h1.mode)
      (by rw [hs.timer]; exact h1.timer)
    split
    · exact h2.settled.congr (.of_notes rfl) (Or.inr ⟨h2.mode,Or.inr rfl⟩)
    · split
      · exact (h2.handshakeWait w2).settled
      · exact (h2.handshakeWait w2).slaveFinish

theorem CompletionInv.step {s : Driver} (h : CompletionInv s) (e : Event) :
    CompletionInv (step s e) := by
  cases e with
  | request ime r => exact h.send ime r
  | timer => exact h.intrTimer
  | serial w w1 w2 =>
    have hend : Driver.busy { s with sioCnt := s.sioCnt &&& ~~~0x80 } = false := by
      simp [Driver.busy]
    simp only [Stwi.step,intrSIO32]
    rcases h with h | h
    · have hs : Running { s with sioCnt := s.sioCnt &&& ~~~0x80 } :=
        h.congr (.of_notes rfl) rfl rfl fun hb => absurd (hend.symm.trans hb) (by simp)
      split_ifs with hb h10 hm
      · exact Or.inl hs
      · exact hs.clockMaster hend w w1 w2
      · exact absurd h.mode hm
      · exact Or.inl h
    · right
      split_ifs with hb h10 hm
      · refine h.congr (.of_notes rfl) ?_
        rcases h.quiet with ⟨-,hb',-⟩ | hq
        · exact absurd (hb'.symm.trans hb) (by simp)
        · exact Or.inr hq
      · rcases h.quiet with ⟨-,hb',-⟩ | ⟨hm',-⟩
        · exact absurd (hb'.symm.trans hb) (by simp)
        · exact absurd (hm.symm.trans hm') (by decide)
      · rcases h.quiet with ⟨hm',-⟩ | ⟨hm',ht⟩
        · exact absurd hm' hm
        · have hs : SlaveQuiet { s with sioCnt := s.sioCnt &&& ~~~0x80 } :=
            ⟨h.congr (.of_notes rfl) (Or.inr ⟨hm',ht⟩),hm',ht⟩
          exact hs.clockSlave w w1 w2
      · exact h
  | setCallbackM set =>
    exact h.imp (fun h => h.congr (.of_notes rfl) rfl rfl h.timer) fun h => h.congr (.of_notes rfl) h.quiet
  | setCallbackS set =>
    exact h.imp (fun h => h.congr (.of_notes rfl) rfl rfl h.timer) fun h => h.congr (.of_notes rfl) h.quiet

/-- Both bounds are met: nothing answers a reset command. -/
example :
    let noise : Event := .serial 0 .reached .reached
    let s := run step (initAll blank)
      [.setCallbackM true, .request true .reset, noise, .timer, noise, .timer, noise, .timer]
    s.outcomes = 1 ∧ s.wires = 3 := by decide

end Stwi
end AgbTools
