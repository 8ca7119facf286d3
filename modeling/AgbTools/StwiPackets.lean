import Mathlib.Tactic
import AgbTools.Stwi

/-! The packet buffers of the serial interrupt: as long as no header announces more than 28
words, every access stays inside the 29 words and every message ends where its header says. -/
namespace AgbTools
namespace Stwi

open Runs

/-- Words in a packet buffer. -/
def packetWords : ℕ := 29

/-- An access is inside its buffer; a finished message has one word more than announced. -/
def NoteFits : Note → Prop
  | .rxStore i | .txLoad i => i < packetWords
  | .complete words length => words = length + 1
  | _ => True

/-- A message is being read: the index is the number of its words so far. -/
def Reading (s : Driver) (index length : BitVec 8) : Prop :=
  index.toNat = s.msgWords ∧ length.toNat = s.msgLength ∧ s.msgWords ≤ s.msgLength

structure PacketInv (s : Driver) : Prop where
  notes : ∀ n ∈ s.notes, NoteFits n
  txParams : s.txParams.toNat ≤ 28
  unk7 : s.unk7.toNat ≤ 28
  master : s.unk0 = 2 → Reading s s.unk8 s.unk7
  slave : s.unk0 = 6 → Reading s s.unk5 s.txParams

/-- What a message being read depends on. -/
structure SameMessage (s t : Driver) : Prop where
  unk0 : t.unk0 = s.unk0
  txParams : t.txParams = s.txParams
  unk5 : t.unk5 = s.unk5
  unk7 : t.unk7 = s.unk7
  unk8 : t.unk8 = s.unk8
  msgWords : t.msgWords = s.msgWords
  msgLength : t.msgLength = s.msgLength

theorem PacketInv.congr {s t : Driver} (h : PacketInv s) (hs : SameMessage s t)
    (hn : ∀ n ∈ t.notes, NoteFits n) : PacketInv t where
  notes := hn
  txParams := by rw [hs.txParams]; exact h.txParams
  unk7 := by rw [hs.unk7]; exact h.unk7
  master := by
    intro h2
    simpa only [Reading,hs.unk8,hs.unk7,hs.msgWords,hs.msgLength] using h.master (hs.unk0.symm.trans h2)
  slave := by
    intro h6
    simpa only [Reading,hs.unk5,hs.txParams,hs.msgWords,hs.msgLength] using h.slave (hs.unk0.symm.trans h6)

/-- Outside the two reading states only the length bytes and the history matter. -/
theorem PacketInv.of_not_reading {t : Driver} (hn : ∀ n ∈ t.notes, NoteFits n)
    (htx : t.txParams.toNat ≤ 28) (h7 : t.unk7.toNat ≤ 28) (h2 : t.unk0 ≠ 2) (h6 : t.unk0 ≠ 6) :
    PacketInv t :=
  ⟨hn,htx,h7,fun h => absurd h h2,fun h => absurd h h6⟩

section Steps
variable {s : Driver}

theorem notes_cons {n : Note} {l : List Note} (hn : NoteFits n) (hl : ∀ m ∈ l, NoteFits m) :
    ∀ m ∈ n::l, NoteFits m := by
  intro m hm
  rcases List.mem_cons.mp hm with rfl | hm
  · exact hn
  · exact hl m hm

theorem PacketInv.note (h : PacketInv s) {n : Note} (hn : NoteFits n) : PacketInv (note s n) :=
  h.congr ⟨rfl,rfl,rfl,rfl,rfl,rfl,rfl⟩ (notes_cons hn h.notes)

theorem PacketInv.callM (h : PacketInv s) (r : Report) (c : BitVec 8) (code : BitVec 16) :
    PacketInv (callM s r c code) := by
  unfold Stwi.callM
  split
  · exact h.note trivial
  · exact h

theorem PacketInv.callS (h : PacketInv s) (arg : Word) : PacketInv (callS s arg) := by
  unfold Stwi.callS
  split
  · exact h.note trivial
  · exact h

theorem PacketInv.startCommand (h : PacketInv s) : PacketInv (startCommand s) := by
  apply PacketInv.of_not_reading
  · exact notes_cons trivial h.notes
  · exact h.txParams
  · exact h.unk7
  · simp [Stwi.startCommand,Stwi.note]
  · simp [Stwi.startCommand,Stwi.note]

theorem PacketInv.restartCommand (h : PacketInv s) : PacketInv (restartCommand s) := by
  unfold Stwi.restartCommand
  split
  · apply PacketInv.startCommand
    exact h.congr ⟨rfl,rfl,rfl,rfl,rfl,rfl,rfl⟩ h.notes
  · have hset : PacketInv { s with unk12 := 1, unk2c := 0 } :=
      h.congr ⟨rfl,rfl,rfl,rfl,rfl,rfl,rfl⟩ h.notes
    have hcall := (hset.note (n := .settled) trivial).callM .outcome s.activeCommand 1
    dsimp only
    split
    · exact hcall
    · apply PacketInv.of_not_reading
      · exact hcall.notes
      · exact hcall.txParams
      · exact hcall.unk7
      · simp
      · simp

theorem PacketInv.resetClockCounter (h : PacketInv s) : PacketInv (resetClockCounter s) := by
  apply PacketInv.of_not_reading
  · exact h.notes
  · simp [Stwi.resetClockCounter]
  · exact h.unk7
  · simp [Stwi.resetClockCounter]
  · simp [Stwi.resetClockCounter]

theorem PacketInv.intrTimer (h : PacketInv s) : PacketInv (intrTimer s) := by
  unfold Stwi.intrTimer
  split_ifs
  · exact h.congr ⟨rfl,rfl,rfl,rfl,rfl,rfl,rfl⟩ h.notes
  · apply PacketInv.restartCommand
    exact h.congr ⟨rfl,rfl,rfl,rfl,rfl,rfl,rfl⟩ h.notes
  · apply PacketInv.callM
    apply PacketInv.resetClockCounter
    exact h.congr ⟨rfl,rfl,rfl,rfl,rfl,rfl,rfl⟩ h.notes
  · exact h

theorem PacketInv.handshakeWait (h : PacketInv s) (w : Wait) : PacketInv (handshakeWait s w).1 := by
  unfold Stwi.handshakeWait
  split
  · exact h.congr ⟨rfl,rfl,rfl,rfl,rfl,rfl,rfl⟩ h.notes
  · cases w with
    | reached => exact h
    | late => exact h.intrTimer
    | timedOut => exact h.intrTimer.congr ⟨rfl,rfl,rfl,rfl,rfl,rfl,rfl⟩ h.intrTimer.notes

/-- A header announces at most 28 further words. -/
def HeaderFits (w : Word) : Prop :=
  w.extractLsb' 16 16 = 0x9966 → (w.extractLsb' 8 8).toNat ≤ 28

theorem toNat_add_one {x : BitVec 8} (h : x.toNat ≤ 28) : (x + 1).toNat = x.toNat + 1 := by
  rw [BitVec.toNat_add]
  simp
  omega

theorem storeHeader_notes (h : PacketInv s) (w : Word) :
    ∀ n ∈ (storeHeader s w).notes, NoteFits n :=
  notes_cons (by simp [NoteFits,packetWords]) h.notes

theorem PacketInv.masterSend (h : PacketInv s) (h0 : s.unk0 = 0) {w : Word} {t : Driver}
    (ht : masterSend s w = some t) : PacketInv t := by
  unfold Stwi.masterSend at ht
  split_ifs at ht with h1 h2 <;> obtain rfl := Option.some.inj ht
  · have h2 := BitVec.le_def.mp h2
    have htx := h.txParams
    apply PacketInv.of_not_reading
    · refine notes_cons ?_ h.notes
      simp only [NoteFits,packetWords]
      omega
    · exact htx
    · exact h.unk7
    · simp [Stwi.note,h0]
    · simp [Stwi.note,h0]
  · exact .of_not_reading h.notes h.txParams h.unk7 (by simp) (by simp)

/-- After a word the message is complete or still within its announced length. -/
theorem masterContinue_inv (hn : ∀ n ∈ s.notes, NoteFits n) (htx : s.txParams.toNat ≤ 28)
    (h7 : s.unk7.toNat ≤ 28) (hw : s.unk8.toNat = s.msgWords) (hl : s.unk7.toNat = s.msgLength)
    (hle : s.msgWords ≤ s.msgLength + 1) : PacketInv (masterContinue s) := by
  unfold masterContinue
  split
  · rename_i hlt
    have hlt := BitVec.lt_def.mp hlt
    refine .of_not_reading (notes_cons ?_ hn) htx h7 (by simp [complete,Stwi.note])
      (by simp [complete,Stwi.note])
    simp only [NoteFits]
    omega
  · rename_i hge
    have hge : s.unk8.toNat ≤ s.unk7.toNat := by simpa [BitVec.lt_def] using hge
    have hread : s.msgWords ≤ s.msgLength := by omega
    exact ⟨hn,htx,h7,fun _ => ⟨hw,hl,hread⟩,by simp⟩

theorem PacketInv.masterHeader (h : PacketInv s) {w : Word} (hw : HeaderFits w) {t : Driver}
    (ht : masterHeader s w = some t) : PacketInv t := by
  unfold Stwi.masterHeader at ht
  split at ht
  · cases ht
  · rename_i h1
    have hlen := hw (by simpa using h1)
    obtain rfl := Option.some.inj ht
    apply masterContinue_inv
    · exact storeHeader_notes h w
    · exact h.txParams
    · exact hlen
    all_goals simp [storeHeader,storeRx,Stwi.note]

theorem PacketInv.masterWord (h : PacketInv s) (h2 : s.unk0 = 2) (w : Word) :
    PacketInv (masterWord s w) := by
  obtain ⟨hw,hl,hle⟩ := h.master h2
  have h7 := h.unk7
  have hadd : (s.unk8 + 1).toNat = s.unk8.toNat + 1 := toNat_add_one (by omega)
  apply masterContinue_inv
  · refine notes_cons ?_ h.notes
    simp only [NoteFits,packetWords]
    omega
  · exact h.txParams
  · exact h7
  · simpa only [storeRx,Stwi.note,hadd] using congrArg (· + 1) hw
  · exact hl
  · simp only [storeRx,Stwi.note]
    omega

theorem PacketInv.masterReceive (h : PacketInv s) {w : Word} (hw : s.unk0 = 1 → HeaderFits w)
    {t : Driver} (ht : masterReceive s w = some t) : PacketInv t := by
  unfold Stwi.masterReceive at ht
  split_ifs at ht with h0 h1 h2
  · exact h.masterSend h0 ht
  · exact h.masterHeader (hw h1) ht
  · obtain rfl := Option.some.inj ht
    exact h.masterWord h2 w
  · obtain rfl := Option.some.inj ht
    exact h

theorem PacketInv.masterFinish (h : PacketInv s) : PacketInv (masterFinish s) := by
  unfold Stwi.masterFinish
  dsimp only
  apply PacketInv.callM
  refine PacketInv.note ?_ (by trivial)
  apply PacketInv.of_not_reading
  · split_ifs <;> exact h.notes
  · split_ifs <;> exact h.txParams
  · split_ifs <;> exact h.unk7
  · split_ifs <;> simp
  · split_ifs <;> simp

theorem PacketInv.clockMaster (h : PacketInv s) {w : Word} (hw : s.unk0 = 1 → HeaderFits w)
    (w1 w2 : Wait) : PacketInv (clockMaster s w w1 w2) := by
  have hset : PacketInv (setTimer s .t80) := h.congr ⟨rfl,rfl,rfl,rfl,rfl,rfl,rfl⟩ h.notes
  unfold Stwi.clockMaster
  dsimp only
  split
  · exact h.congr ⟨rfl,rfl,rfl,rfl,rfl,rfl,rfl⟩ h.notes
  · rename_i t ht
    have h1 := (hset.masterReceive hw ht).handshakeWait w1
    -- from here on only the invariant of the state matters
    generalize Stwi.handshakeWait t w1 = u at h1 ⊢
    split
    · exact h1
    · have h1' : PacketInv { u.1 with sioCnt := 0x500B } :=
        h1.congr ⟨rfl,rfl,rfl,rfl,rfl,rfl,rfl⟩ h1.notes
      have h2 := h1'.handshakeWait w2
      generalize Stwi.handshakeWait _ w2 = v at h2 ⊢
      split
      · exact h2
      · have hstop := h2.congr (t := stopTimer v.1) ⟨rfl,rfl,rfl,rfl,rfl,rfl,rfl⟩ h2.notes
        split
        · exact hstop.masterFinish
        · exact hstop.congr ⟨rfl,rfl,rfl,rfl,rfl,rfl,rfl⟩ hstop.notes

theorem slaveReply_inv (hn : ∀ n ∈ s.notes, NoteFits n) (htx : s.txParams.toNat ≤ 28)
    (h7 : s.unk7.toNat ≤ 28) : PacketInv (slaveReply s) := by
  apply PacketInv.of_not_reading
  · exact notes_cons (by simp [NoteFits,packetWords]) hn
  · exact htx
  · exact h7
  · simp [slaveReply,Stwi.note]
  · simp [slaveReply,Stwi.note]

/-- A request of the adapter is answered once it has one word more than announced. -/
theorem slaveAnswer_inv (hn : ∀ n ∈ s.notes, NoteFits n) (htx : s.txParams.toNat ≤ 28)
    (hw : s.msgWords = s.msgLength + 1) (lowest : BitVec 8) : PacketInv (slaveAnswer s lowest) := by
  have hc : ∀ n ∈ (complete s).notes, NoteFits n := notes_cons hw hn
  unfold slaveAnswer
  split
  · apply slaveReply_inv
    · exact hc
    · exact htx
    · simp
  · apply slaveReply_inv
    · exact hc
    · exact htx
    · simp

theorem PacketInv.slaveHeader (h : PacketInv s) {w : Word} (h5 : s.unk0 = 5) (hw : HeaderFits w) :
    PacketInv (slaveHeader s w).1 := by
  have hn := storeHeader_notes h w
  unfold Stwi.slaveHeader
  dsimp only
  split
  · apply PacketInv.of_not_reading
    · exact hn
    · exact h.txParams
    · exact h.unk7
    · simp [storeHeader,storeRx,Stwi.note,h5]
    · simp [storeHeader,storeRx,Stwi.note,h5]
  · rename_i h1
    have hlen := hw (by simpa using h1)
    split
    · rename_i h0
      apply slaveAnswer_inv
      · exact hn
      · exact hlen
      · simp [storeHeader,storeRx,Stwi.note,h0]
    · rename_i h0
      have hpos : 1 ≤ (w.extractLsb' 8 8).toNat := by
        rw [Nat.one_le_iff_ne_zero]
        intro hz
        exact h0 (BitVec.eq_of_toNat_eq hz)
      refine ⟨hn,hlen,h.unk7,by simp,fun _ => ⟨?_,?_,?_⟩⟩
      all_goals simp only [storeHeader,storeRx,Stwi.note]
      · simp
      · omega

theorem PacketInv.slaveWord (h : PacketInv s) (h6 : s.unk0 = 6) (w : Word) :
    PacketInv (slaveWord s w) := by
  obtain ⟨hw,hl,hle⟩ := h.slave h6
  have htx := h.txParams
  have hadd : (s.unk5 + 1).toNat = s.unk5.toNat + 1 := toNat_add_one (by omega)
  have hn : ∀ n ∈ (storeRx s s.unk5 w).notes, NoteFits n := by
    refine notes_cons ?_ h.notes
    simp only [NoteFits,packetWords]
    omega
  unfold Stwi.slaveWord
  dsimp only
  split
  · rename_i hlt
    have hlt : s.txParams.toNat < s.unk5.toNat + 1 := hadd ▸ BitVec.lt_def.mp hlt
    apply slaveAnswer_inv
    · exact hn
    · exact htx
    · simp only [storeRx,Stwi.note]
      omega
  · rename_i hge
    have hge : s.unk5.toNat + 1 ≤ s.txParams.toNat := by
      rw [BitVec.lt_def] at hge
      exact hadd ▸ Nat.not_lt.mp hge
    refine ⟨hn,htx,h.unk7,fun h2 => ?_,fun _ => ⟨?_,?_,?_⟩⟩
    · exact absurd (h6.symm.trans h2) (by decide)
    all_goals simp only [storeRx,Stwi.note]
    · omega
    · exact hl
    · omega

theorem PacketInv.slaveSend (h : PacketInv s) (h7 : s.unk0 = 7) (w : Word) :
    PacketInv (slaveSend s w).1 := by
  unfold Stwi.slaveSend
  split_ifs with h1 h2
  · exact h
  · exact .of_not_reading h.notes h.txParams h.unk7 (by simp) (by simp)
  · have h2 : s.unk8.toNat ≤ s.unk7.toNat := by simpa [BitVec.lt_def] using h2
    have hlen := h.unk7
    apply PacketInv.of_not_reading
    · refine notes_cons ?_ h.notes
      simp only [NoteFits,packetWords]
      omega
    · exact h.txParams
    · exact h.unk7
    · simp [Stwi.note,h7]
    · simp [Stwi.note,h7]

theorem PacketInv.slaveReceive (h : PacketInv s) {w : Word} (hw : s.unk0 = 5 → HeaderFits w) :
    PacketInv (slaveReceive s w).1 := by
  unfold Stwi.slaveReceive
  split_ifs with h5 h6 h7
  · exact h.slaveHeader h5 (hw h5)
  · exact h.slaveWord h6 w
  · exact h.slaveSend h7 w
  · exact h

theorem PacketInv.slaveFinish (h : PacketInv s) : PacketInv (slaveFinish s) := by
  unfold Stwi.slaveFinish
  dsimp only
  split_ifs
  · apply PacketInv.callS
    exact .of_not_reading h.notes (by simp [initSlave]) (by simp [initSlave]) (by simp [initSlave])
      (by simp [initSlave])
  · apply PacketInv.callS
    exact .of_not_reading h.notes h.txParams h.unk7 (by simp) (by simp)
  · exact h.congr ⟨rfl,rfl,rfl,rfl,rfl,rfl,rfl⟩ h.notes

theorem PacketInv.clockSlave (h : PacketInv s) {w : Word} {w1 : Wait}
    (hw : s.unk0 = 5 ∨ w1 = .late → HeaderFits w) (w2 : Wait) :
    PacketInv (clockSlave s w w1 w2) := by
  have hset : PacketInv (setTimer { s with timerActive := 0 } .t100) :=
    h.congr ⟨rfl,rfl,rfl,rfl,rfl,rfl,rfl⟩ h.notes
  have h1 := hset.handshakeWait w1
  unfold Stwi.clockSlave
  dsimp only
  split
  · exact h1
  · rename_i hgo
    -- the timer that goes off in the first wait makes the slave expect a header
    have hw1 : (Stwi.handshakeWait (setTimer { s with timerActive := 0 } .t100) w1).1.unk0 = 5 →
        HeaderFits w := by
      intro h5
      cases w1 with
      | reached => exact hw (Or.inl (by simpa [Stwi.handshakeWait,setTimer] using h5))
      | late => exact hw (Or.inr rfl)
      | timedOut => simp [Stwi.handshakeWait,setTimer] at hgo
    generalize Stwi.handshakeWait (setTimer { s with timerActive := 0 } .t100) w1 = u at h1 hw1 ⊢
    have h1' : PacketInv { u.1 with sioCnt := 0x500A } :=
      h1.congr ⟨rfl,rfl,rfl,rfl,rfl,rfl,rfl⟩ h1.notes
    have h2 := h1'.slaveReceive (w := w) hw1
    generalize Stwi.slaveReceive _ w = v at h2 ⊢
    split
    · exact h2.congr ⟨rfl,rfl,rfl,rfl,rfl,rfl,rfl⟩ h2.notes
    · have h3 := h2.handshakeWait w2
      split
      · exact h3
      · exact h3.slaveFinish

theorem PacketInv.init (h : PacketInv s) (ime : Bool) (request : BitVec 8) :
    PacketInv (init s ime request).1 := by
  unfold Stwi.init
  split_ifs
  · apply PacketInv.callM
    exact h.congr ⟨rfl,rfl,rfl,rfl,rfl,rfl,rfl⟩ h.notes
  · apply PacketInv.callM
    exact h.congr ⟨rfl,rfl,rfl,rfl,rfl,rfl,rfl⟩ h.notes
  · apply PacketInv.callM
    exact h.congr ⟨rfl,rfl,rfl,rfl,rfl,rfl,rfl⟩ h.notes
  · apply PacketInv.of_not_reading
    · exact notes_cons trivial h.notes
    all_goals simp [Stwi.note]

theorem PacketInv.send (h : PacketInv s) {ime : Bool} {r : Request}
    (hr : (Stwi.init s ime r.command).2 = false → r.params.length ≤ 28) :
    PacketInv (send s ime r) := by
  have hi := h.init ime r.command
  unfold Stwi.send
  dsimp only
  split
  · exact hi
  · rename_i hok
    have hlen := hr (by simpa using hok)
    have hi0 : (Stwi.init s ime r.command).1.unk0 = 0 := by
      revert hok
      unfold Stwi.init
      split_ifs <;> simp [Stwi.note]
    apply PacketInv.startCommand
    apply PacketInv.of_not_reading
    · exact hi.notes
    · simp only [BitVec.toNat_ofNat]
      omega
    · exact hi.unk7
    · simp [hi0]
    · simp [hi0]

end Steps

/-- The word of a serial interrupt is taken for a header. -/
def AwaitsHeader (s : Driver) (w1 : Wait) : Prop :=
  if s.msMode = 1 then s.unk0 = 1 else s.unk0 = 5 ∨ w1 = .late

/-- Accepted requests and received headers have at most 28 words behind the first. -/
def Fits (s : Driver) : Event → Prop
  | .request ime r => (init s ime r.command).2 = false → r.params.length ≤ 28
  | .serial w w1 _ => AwaitsHeader s w1 → HeaderFits w
  | _ => True

instance (w : Word) : Decidable (HeaderFits w) :=
  inferInstanceAs (Decidable (w.extractLsb' 16 16 = 0x9966 → (w.extractLsb' 8 8).toNat ≤ 28))

instance (s : Driver) (w1 : Wait) : Decidable (AwaitsHeader s w1) :=
  inferInstanceAs (Decidable (if s.msMode = 1 then s.unk0 = 1 else s.unk0 = 5 ∨ w1 = .late))

instance (s : Driver) : (e : Event) → Decidable (Fits s e)
  | .request ime r =>
    inferInstanceAs (Decidable ((init s ime r.command).2 = false → r.params.length ≤ 28))
  | .serial w w1 _ => inferInstanceAs (Decidable (AwaitsHeader s w1 → HeaderFits w))
  | .timer | .setCallbackM _ | .setCallbackS _ => .isTrue trivial

theorem PacketInv.step {s : Driver} {e : Event} (h : PacketInv s) (he : Fits s e) :
    PacketInv (step s e) := by
  cases e with
  | request ime r => exact h.send he
  | timer => exact h.intrTimer
  | serial w w1 w2 =>
    have hend : PacketInv { s with sioCnt := s.sioCnt &&& ~~~0x80 } :=
      h.congr ⟨rfl,rfl,rfl,rfl,rfl,rfl,rfl⟩ h.notes
    simp only [Fits,AwaitsHeader] at he
    simp only [Stwi.step,intrSIO32]
    split_ifs with hb h10 hm
    · exact hend
    · exact hend.clockMaster (by rwa [if_pos hm] at he) w1 w2
    · exact hend.clockSlave (by rwa [if_neg hm] at he) w2
    · exact h
  | setCallbackM set => exact h.congr ⟨rfl,rfl,rfl,rfl,rfl,rfl,rfl⟩ h.notes
  | setCallbackS set => exact h.congr ⟨rfl,rfl,rfl,rfl,rfl,rfl,rfl⟩ h.notes

/-- A request, and an acknowledgement that starts with the given header. -/
def acknowledged (header : Word) (words : ℕ) : List Event :=
  .request true .linkStatus :: .serial 0x80000000 .reached .reached ::
    .serial header .reached .reached :: List.replicate words (.serial 0 .reached .reached)

end Stwi
end AgbTools
