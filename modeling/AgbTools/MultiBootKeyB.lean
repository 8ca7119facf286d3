import AgbTools.MultiBootSession
import AgbTools.RotatingWord

/-! The KeyB of the GameCube handshake. Its bytes are scan lines and a counter taken at different
moments; the check before it is sent keeps the number of ones in the range the other side accepts. -/
namespace AgbTools
namespace MultiBoot

open Runs RotatingWord

section Ones

/-- The low bit, and the bits of the rest. -/
theorem cpop_shift_one (x : Word) :
    x.cpop.toNat = (x.getLsbD 0).toNat + (x >>> 1).cpop.toNat := by
  have hx : x = (x.extractLsb' 1 31).concat (x.getLsbD 0) := by
    ext i hi
    cases i with
    | zero => simp
    | succ i => simp [BitVec.getLsbD_eq_getElem hi,Nat.add_comm]
  have hshift : x >>> 1 = (x.extractLsb' 1 31).setWidth 32 := by
    ext i hi
    simp only [BitVec.getElem_ushiftRight,BitVec.getElem_setWidth,BitVec.getLsbD_extractLsb']
    by_cases hlt : i < 31
    · simp [hlt]
    · rw [BitVec.getLsbD_of_ge x (1+i) (by omega)]
      simp [hlt]
  rw [hshift,BitVec.toNat_cpop_setWidth_eq_of_le (by omega)]
  conv_lhs => rw [hx]
  exact BitVec.toNat_cpop_concat

/-- The loop counts the ones of its argument. -/
theorem keyBCheckLoop_eq (n : ℕ) {r1 : Word} (h : r1.toNat < 2^n) (r2 : ℕ) :
    keyBCheckLoop n r1 r2 = r2 + r1.cpop.toNat := by
  induction n generalizing r1 r2 with
  | zero =>
    have hzero : r1 = 0 := by
      apply BitVec.eq_of_toNat_eq
      simpa using h
    simp [keyBCheckLoop,hzero]
  | succ n ih =>
    simp only [keyBCheckLoop]
    rw [cpop_shift_one r1]
    split_ifs with hzero
    · simp [hzero]
    · have hlt : (r1 >>> 1).toNat < 2^n := by
        rw [BitVec.toNat_ushiftRight,Nat.shiftRight_eq_div_pow]
        omega
      rw [ih hlt]
      omega

theorem getLsbD_setByte (w : Word) (k : ℕ) (b : BitVec 8) {i : ℕ} (hi : i < 32) :
    (setByte w k b).getLsbD i = if 8*k ≤ i ∧ i < 8*k+8 then b.getLsbD (i-8*k) else w.getLsbD i := by
  have hmask : ∀ j, (0xFF : Word).getLsbD j = decide (j < 8) := by
    intro j
    by_cases hj : j < 32
    · revert j
      decide
    · rw [BitVec.getLsbD_of_ge _ _ (by omega)]
      simp
      omega
  simp only [setByte,BitVec.getLsbD_or,BitVec.getLsbD_and,BitVec.getLsbD_not,
    BitVec.getLsbD_shiftLeft,BitVec.getLsbD_setWidth,hmask,hi]
  by_cases hlow : i < 8*k
  · simp [hlow,show ¬8*k ≤ i by omega]
  · by_cases hhigh : i < 8*k+8
    · simp [hlow,hhigh,show 8*k ≤ i by omega,show i-8*k < 8 by omega,show i-8*k < 32 by omega]
    · simp [hlow,hhigh,show 8*k ≤ i by omega,show ¬i-8*k < 8 by omega,
        BitVec.getLsbD_of_ge b (i-8*k) (by omega)]

/-- A byte of the struct is stored alone. -/
theorem setByte_ofBytes (b3 b2 b1 b0 b : BitVec 8) :
    setByte (ofBytes b3 b2 b1 b0) 1 b = ofBytes b3 b2 b b0 ∧
      setByte (ofBytes b3 b2 b1 b0) 2 b = ofBytes b3 b b1 b0 ∧
      setByte (ofBytes b3 b2 b1 b0) 3 b = ofBytes b b2 b1 b0 := by
  refine ⟨?_,?_,?_⟩
  all_goals
    apply BitVec.eq_of_getLsbD_eq
    intro i hi
    rw [getLsbD_setByte _ _ _ hi,getLsbD_ofBytes,getLsbD_ofBytes]
    split_ifs <;> first | omega | rfl

theorem ones_ofBytes (b3 b2 b1 b0 : BitVec 8) :
    (ofBytes b3 b2 b1 b0 >>> 8).cpop.toNat = b3.cpop.toNat + b2.cpop.toNat + b1.cpop.toNat := by
  have hshift : ofBytes b3 b2 b1 b0 >>> 8 = (b3 ++ b2 ++ b1).setWidth 32 := by
    apply BitVec.eq_of_getLsbD_eq
    intro i hi
    rw [BitVec.getLsbD_ushiftRight,getLsbD_ofBytes,BitVec.getLsbD_setWidth]
    simp only [BitVec.getLsbD_append,hi,decide_true,Bool.true_and]
    split_ifs <;> first | omega | (congr 1; omega)
  rw [hshift,BitVec.toNat_cpop_setWidth_eq_of_le (by omega),BitVec.toNat_cpop_append,
    BitVec.toNat_cpop_append]

theorem ofBytes_add (b3 b2 b1 b : BitVec 8) :
    ofBytes b3 b2 b1 0 + b.setWidth 32 = ofBytes b3 b2 b1 b := by
  rw [BitVec.add_eq_or_of_and_eq_zero]
  · apply BitVec.eq_of_getLsbD_eq
    intro i hi
    rw [BitVec.getLsbD_or,getLsbD_ofBytes,getLsbD_ofBytes,BitVec.getLsbD_setWidth]
    by_cases hlow : i < 8
    · simp [hlow,hi]
    · simp [hlow,BitVec.getLsbD_of_ge b i (by omega)]
  · apply BitVec.eq_of_getLsbD_eq
    intro i hi
    rw [BitVec.getLsbD_and,getLsbD_ofBytes,BitVec.getLsbD_setWidth]
    by_cases hlow : i < 8
    · simp [hlow]
    · simp [hlow,BitVec.getLsbD_of_ge b i (by omega)]

theorem low_ofBytes (b3 b2 b1 b0 : BitVec 8) : (ofBytes b3 b2 b1 b0).setWidth 8 = b0 := by
  apply BitVec.eq_of_getLsbD_eq
  intro i hi
  rw [BitVec.getLsbD_setWidth,getLsbD_ofBytes]
  simp [hi]

end Ones

section Check
variable {b1 b2 b3 : BitVec 8}

/-- The repaired byte brings the number of ones into the range. -/
theorem fixKeyB_range (h1 : b1.cpop.toNat ≤ 7) (h3 : b3.cpop.toNat ≤ 7) :
    ∃ b, fixKeyB (ofBytes b3 b2 b1 0) = ofBytes b3 b b1 0 ∧
      7 ≤ b3.cpop.toNat + b.cpop.toNat + b1.cpop.toNat ∧
      b3.cpop.toNat + b.cpop.toNat + b1.cpop.toNat ≤ 14 := by
  have hcount : keyBCheckLoop 32 (ofBytes b3 b2 b1 0 >>> 8) 0 =
      b3.cpop.toNat + b2.cpop.toNat + b1.cpop.toNat := by
    rw [keyBCheckLoop_eq 32 (BitVec.isLt _),ones_ofBytes,Nat.zero_add]
  have h2 : b2.cpop.toNat ≤ 8 := BitVec.toNat_cpop_le b2
  have hzero : (0 : BitVec 8).cpop.toNat = 0 := by decide
  have hones : (0xFF : BitVec 8).cpop.toNat = 8 := by decide
  unfold fixKeyB
  rw [hcount]
  dsimp only
  split_ifs with hmany henough
  · exact ⟨0,(setByte_ofBytes ..).2.1,by omega,by omega⟩
  · exact ⟨b2,rfl,henough,by omega⟩
  · exact ⟨0xFF,(setByte_ofBytes ..).2.1,by omega,by omega⟩

/-- A scan line has a clear bit in its byte. -/
theorem vcount_ones {vcount : BitVec 16} (h : vcount.toNat ≤ 227) :
    (vcount.setWidth 8).cpop.toNat ≤ 7 := by
  have hbyte : ∀ b : BitVec 8, b.toNat ≤ 227 → b.cpop.toNat ≤ 7 := by decide
  apply hbyte
  rw [BitVec.toNat_setWidth]
  omega

/-- Half of a counter has its high bit clear. -/
theorem half_ones (b : BitVec 8) : (b >>> 1).cpop.toNat ≤ 7 := by
  revert b
  decide

end Check

section Invariant
variable {s : Machine} {vcount : BitVec 16} {recv : Word}

/-- The bytes KeyB is made of. The middle one is free until the check. -/
structure KeyInv (s : Machine) : Prop where
  saved : s.savedVCount.cpop.toNat ≤ 7
  bytes : ∃ b3 b2 b1, s.keyB = ofBytes b3 b2 b1 0 ∧ b1.cpop.toNat ≤ 7 ∧ b3.cpop.toNat ≤ 7

/-- What a handler leaves: a new scan line and the bytes of the key. -/
theorem KeyInv.of_scan {t : Machine} (hv : vcount.toNat ≤ 227)
    (hs : t.savedVCount = vcount.setWidth 8)
    (hb : ∃ b3 b2 b1, t.keyB = ofBytes b3 b2 b1 0 ∧ b1.cpop.toNat ≤ 7 ∧ b3.cpop.toNat ≤ 7) :
    KeyInv t where
  saved := hs ▸ vcount_ones hv
  bytes := hb

theorem KeyInv.init (s : Machine) : KeyInv (init s) where
  saved := half_ones s.counter2
  bytes := ⟨0,0,0,by simp only [MultiBoot.init]; decide,by decide,by decide⟩

theorem KeyInv.setOne (h : KeyInv s) :
    ∃ b3 b2 b1, setByte s.keyB 1 s.savedVCount = ofBytes b3 b2 b1 0 ∧
      b1.cpop.toNat ≤ 7 ∧ b3.cpop.toNat ≤ 7 := by
  obtain ⟨b3,b2,b1,hkey,-,h3⟩ := h.bytes
  exact ⟨b3,b2,_,hkey ▸ (setByte_ofBytes ..).1,h.saved,h3⟩

theorem KeyInv.setThree (h : KeyInv s) :
    ∃ b3 b2 b1, setByte s.keyB 3 s.savedVCount = ofBytes b3 b2 b1 0 ∧
      b1.cpop.toNat ≤ 7 ∧ b3.cpop.toNat ≤ 7 := by
  obtain ⟨b3,b2,b1,hkey,h1,-⟩ := h.bytes
  exact ⟨_,b2,b1,hkey ▸ (setByte_ofBytes ..).2.2,h1,h.saved⟩

theorem KeyInv.beginHandshake (h : KeyInv s) (hv : vcount.toNat ≤ 227) :
    KeyInv (beginHandshake s vcount) := by
  unfold MultiBoot.beginHandshake
  dsimp only
  split_ifs <;> exact .of_scan hv rfl h.setOne

theorem KeyInv.handshakeResponse (h : KeyInv s) (hv : vcount.toNat ≤ 227) :
    KeyInv (handshakeResponse s recv vcount) := by
  unfold MultiBoot.handshakeResponse
  split_ifs
  · exact .of_scan hv rfl h.bytes
  · exact .of_scan hv rfl h.setThree

/-- A key the other side accepts. -/
structure ValidKeyB (w : Word) : Prop where
  magic : w.setWidth 8 = (0xEE : BitVec 8)
  enough : 7 ≤ (w >>> 8).cpop.toNat
  few : (w >>> 8).cpop.toNat ≤ 14

/-- The key made from the collected bytes and the counter. -/
theorem KeyInv.fixed (h : KeyInv s) :
    (∃ b3 b2 b1, fixKeyB (setByte s.keyB 2 s.counter2) = ofBytes b3 b2 b1 0 ∧
      b1.cpop.toNat ≤ 7 ∧ b3.cpop.toNat ≤ 7) ∧
      ValidKeyB (fixKeyB (setByte s.keyB 2 s.counter2) + 0xEE) := by
  obtain ⟨b3,b2,b1,hkey,h1,h3⟩ := h.bytes
  rw [hkey,(setByte_ofBytes ..).2.1]
  obtain ⟨b,hfix,hlow,hhigh⟩ := @fixKeyB_range b1 s.counter2 b3 h1 h3
  have hsum : ofBytes b3 b b1 0 + 0xEE = ofBytes b3 b b1 0xEE := ofBytes_add b3 b b1 0xEE
  rw [hfix,hsum]
  refine ⟨⟨b3,b,b1,rfl,h1,h3⟩,low_ofBytes ..,?_,?_⟩
  · rwa [ones_ofBytes]
  · rwa [ones_ofBytes]

theorem KeyInv.receiveKeyA (h : KeyInv s) (hv : vcount.toNat ≤ 227) :
    KeyInv (receiveKeyA s recv vcount) ∧
      ((receiveKeyA s recv vcount).serialIntrHandler = .checkKeyBSent →
        ValidKeyB (receiveKeyA s recv vcount).joyTrans) := by
  unfold MultiBoot.receiveKeyA
  split_ifs
  · refine ⟨.of_scan hv rfl h.bytes,fun hsent => ?_⟩
    cases hsent
  · exact ⟨.of_scan hv rfl h.fixed.1,fun _ => h.fixed.2⟩

theorem KeyInv.imageSizeResponse (h : KeyInv s) (hv : vcount.toNat ≤ 227) :
    KeyInv (imageSizeResponse s recv vcount) := by
  unfold MultiBoot.imageSizeResponse
  dsimp only
  split_ifs <;> exact .of_scan hv rfl h.bytes

theorem KeyInv.imageResponse (h : KeyInv s) (hv : vcount.toNat ≤ 227) :
    KeyInv (imageResponse s recv vcount) := by
  unfold MultiBoot.imageResponse
  dsimp only
  split_ifs <;> exact .of_scan hv rfl h.bytes

theorem KeyInv.counter2Sent (h : KeyInv s) (hv : vcount.toNat ≤ 227) :
    KeyInv (counter2Sent s vcount) := by
  unfold MultiBoot.counter2Sent
  split_ifs <;> exact .of_scan hv rfl h.bytes

theorem KeyInv.bootKeyResponse (h : KeyInv s) (hv : vcount.toNat ≤ 227) :
    KeyInv (bootKeyResponse s recv vcount) := by
  unfold MultiBoot.bootKeyResponse
  split_ifs <;> exact .of_scan hv rfl h.bytes

theorem KeyInv.runHandler (h : KeyInv s) (hv : vcount.toNat ≤ 227) (i : Interrupt) :
    KeyInv (runHandler s i vcount) := by
  unfold MultiBoot.runHandler
  cases s.serialIntrHandler <;> dsimp only
  case null => exact h
  all_goals try split_ifs
  all_goals first
    | exact .of_scan hv rfl h.bytes
    | exact h.handshakeResponse hv
    | exact (h.receiveKeyA hv).1
    | exact h.imageSizeResponse hv
    | exact h.imageResponse hv
    | exact h.counter2Sent hv
    | exact h.bootKeyResponse hv

theorem KeyInv.serial (h : KeyInv s) (hv : vcount.toNat ≤ 227) (joyCnt : BitVec 16) :
    KeyInv (handleSerialInterrupt s joyCnt recv vcount) := by
  have hframe : KeyInv { s with joyCnt := joyCnt, counter1 := 0,
                                seen := s.seen ++ [⟨joyCnt,recv,s.joyTrans⟩] } := ⟨h.saved,h.bytes⟩
  unfold handleSerialInterrupt
  dsimp only
  split_ifs
  · exact hframe
  · exact hframe.beginHandshake hv
  · exact hframe.runHandler hv _

/-- The handler that sends KeyB sends a valid one. -/
theorem KeyInv.serial_sends (h : KeyInv s) (hv : vcount.toNat ≤ 227) {joyCnt : BitVec 16}
    (hwait : s.serialIntrHandler = .receiveKeyA)
    (hsent : (handleSerialInterrupt s joyCnt recv vcount).serialIntrHandler = .checkKeyBSent) :
    ValidKeyB (handleSerialInterrupt s joyCnt recv vcount).joyTrans := by
  have hframe : KeyInv { s with joyCnt := joyCnt, counter1 := 0,
                                seen := s.seen ++ [⟨joyCnt,recv,s.joyTrans⟩] } := ⟨h.saved,h.bytes⟩
  revert hsent
  unfold handleSerialInterrupt MultiBoot.runHandler
  dsimp only
  rw [hwait,if_neg (by decide)]
  dsimp only
  split_ifs with hreset hrecv
  · unfold MultiBoot.beginHandshake
    dsimp only
    split_ifs <;> exact fun hsent => nomatch hsent
  · exact fun hsent => nomatch hsent
  · exact fun hsent => (hframe.receiveKeyA hv).2 hsent

end Invariant

section Receiver
variable {logo : ℕ → Word}

inductive ReceiverEvent
  | init | call | work
  | serial (joyCnt : BitVec 16) (joyRecv : Word) (vcount : BitVec 16)
  deriving DecidableEq, Repr

/-- The whole receiver: Init is called between calls of Main or by Main itself, and interrupts
arrive between any two steps of Main. -/
def receiverStep (logo : ℕ → Word) (c : Machine × Pc) : ReceiverEvent → Machine × Pc
  | .init => if c.2 = .idle then (init c.1,.idle) else c
  | .call => if c.2 = .idle then (c.1,.entry) else c
  | .work => if c.2 = .init then (init c.1,.idle) else mainStep logo c.1 c.2
  | .serial joyCnt joyRecv vcount => (handleSerialInterrupt c.1 joyCnt joyRecv vcount,c.2)

/-- The vertical counter stays below the 228 lines of a frame. -/
def ReceiverEvent.Scanned : ReceiverEvent → Prop
  | .serial _ _ vcount => vcount.toNat ≤ 227
  | _ => True

instance : DecidablePred ReceiverEvent.Scanned
  | .init | .call | .work => .isTrue trivial
  | .serial _ _ vcount => inferInstanceAs (Decidable (vcount.toNat ≤ 227))

/-- The KeyB word, when a step sends it. -/
def sentKeyB (logo : ℕ → Word) (c : Machine × Pc) (e : ReceiverEvent) : List Word :=
  if c.1.serialIntrHandler = .receiveKeyA ∧
    (receiverStep logo c e).1.serialIntrHandler = .checkKeyBSent
  then [(receiverStep logo c e).1.joyTrans] else []

/-- Main does not touch the key material. -/
theorem mainStep_keyB (logo : ℕ → Word) (s : Machine) (pc : Pc) :
    (mainStep logo s pc).1.savedVCount = s.savedVCount ∧ (mainStep logo s pc).1.keyB = s.keyB := by
  cases pc <;> simp only [mainStep]
  case counter1 => split <;> exact ⟨rfl,rfl⟩
  all_goals exact ⟨trivial,trivial⟩

theorem KeyInv.step {c : Machine × Pc} (h : KeyInv c.1) {e : ReceiverEvent} (he : e.Scanned) :
    KeyInv (receiverStep logo c e).1 := by
  cases e with
  | init =>
    simp only [receiverStep]
    split_ifs
    · exact .init _
    · exact h
  | call =>
    simp only [receiverStep]
    split_ifs <;> exact h
  | work =>
    simp only [receiverStep]
    split_ifs
    · exact .init _
    · obtain ⟨hs,hk⟩ := mainStep_keyB logo c.1 c.2
      exact ⟨hs ▸ h.saved,hk ▸ h.bytes⟩
  | serial joyCnt joyRecv vcount => exact h.serial he joyCnt

theorem KeyInv.step_sends {c : Machine × Pc} (h : KeyInv c.1) {e : ReceiverEvent} (he : e.Scanned) :
    ∀ w ∈ sentKeyB logo c e, ValidKeyB w := by
  intro w hw
  unfold sentKeyB at hw
  split_ifs at hw with hsends
  · obtain ⟨hwait,hsent⟩ := hsends
    rw [List.mem_singleton.mp hw]
    cases e with
    | serial joyCnt joyRecv vcount => exact h.serial_sends he hwait hsent
    | init =>
      simp only [receiverStep] at hsent
      split_ifs at hsent
      · cases hsent
      · rw [hwait] at hsent
        cases hsent
    | call =>
      simp only [receiverStep] at hsent
      split_ifs at hsent <;>
        · rw [hwait] at hsent
          cases hsent
    | work =>
      simp only [receiverStep] at hsent
      split_ifs at hsent
      · cases hsent
      · rw [(mainStep_frame logo c.1 c.2).1,hwait] at hsent
        cases hsent
  · cases hw

/-- The key material and every KeyB sent, in every run of the receiver. -/
theorem keyB_valid (logo : ℕ → Word) (s₀ : Machine) (es : List ReceiverEvent)
    (hes : ∀ e ∈ es, e.Scanned) :
    (run (receiverStep logo) (boot s₀,.idle) es).1.savedVCount.cpop.toNat ≤ 7 ∧
      ∀ w ∈ trace (receiverStep logo) (sentKeyB logo) (boot s₀,.idle) es,
        w.setWidth 8 = (0xEE : BitVec 8) ∧ 7 ≤ (w >>> 8).cpop.toNat ∧ (w >>> 8).cpop.toNat ≤ 14 := by
  have halong : Along (receiverStep logo) (fun _ e => e.Scanned) (boot s₀,.idle) es :=
    along_of_forall hes
  obtain ⟨hinv,hsent⟩ := Along.trace (fun c => KeyInv c.1)
    (fun c e hc he => ⟨hc.step he,hc.step_sends he⟩) (.init _) halong
  refine ⟨hinv.saved,fun w hw => ?_⟩
  have hvalid : ValidKeyB w := hsent w hw
  exact ⟨hvalid.magic,hvalid.enough,hvalid.few⟩

/-- A handshake up to KeyB, with Main called once before. -/
def keyExchange : List ReceiverEvent :=
  [.serial 1 0 100,.call,.work,.work,.work,.serial 6 gameCode 227,.serial 2 0xDD123456 5]

theorem keyB_valid_keyExchange :
    trace (receiverStep fun _ => 0) (sentKeyB fun _ => 0) (boot blank,.idle) keyExchange =
        [(0x64FF00EE : Word)] ∧
      7 ≤ ((0x64FF00EE : Word) >>> 8).cpop.toNat ∧ ((0x64FF00EE : Word) >>> 8).cpop.toNat ≤ 14 := by
  have hsent : trace (receiverStep fun _ => 0) (sentKeyB fun _ => 0) (boot blank,.idle) keyExchange =
      [(0x64FF00EE : Word)] := by decide
  have hvalid := (keyB_valid (fun _ => 0) blank keyExchange (by decide)).2 0x64FF00EE
    (hsent ▸ List.mem_singleton.mpr rfl)
  exact ⟨hsent,hvalid.2⟩

end Receiver

end MultiBoot
end AgbTools
