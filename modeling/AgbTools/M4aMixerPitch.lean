import AgbTools.M4aMixer
import Mathlib.Algebra.Order.Ring.Int

/-! Mixing at the pitch of the note: the pointer that runs one ahead, the count and the fraction
together follow the position in the sample, over its loop and over the end of a frame. -/
namespace AgbTools
namespace M4a
namespace Mixer

open Runs RotatingWord LoopedTrack

section Reference

def Frame.step (f : Frame) (c : Channel) : Word := f.divFreq*c.freq

/-- How far the output `i` is from the start, in parts of a sample. -/
def Frame.distance (f : Frame) (c : Channel) (i : ℕ) : ℕ := c.fw.toNat+i*(f.step c).toNat
def Frame.position (f : Frame) (c : Channel) (i : ℕ) : ℕ := f.distance c i/2^23
def Frame.fraction (f : Frame) (c : Channel) (i : ℕ) : ℕ := f.distance c i%2^23

/-- Between a sample and the one after it. -/
def interpolate (s0 s1 : ℤ) (fraction : ℕ) : ℤ := s0+((s1-s0)*fraction) >>> (23 : ℕ)

def pitchJob (f : Frame) (c : Channel) (right left : ℕ → Byte) : Job where
  frame := f
  channel := c
  right := right
  left := left
  played i := ((f.track c).place (f.position c i)).map fun l =>
    interpolate (f.data l.pointer).toInt (f.data (l.pointer+1)).toInt (f.fraction c i)

/-- The channel after `n` outputs. A sample that has ended has its status cleared. -/
def pitchAfter (f : Frame) (c : Channel) (n : ℕ) : Channel :=
  match (f.track c).place (f.position c n) with
  | some l => {c with fw := BitVec.ofNat 32 (f.fraction c n), ct := BitVec.ofNat 32 l.left, cp := l.pointer}
  | none => {c with status := 0}

theorem position_succ (f : Frame) (c : Channel) (i : ℕ) :
    f.position c (i+1) = f.position c i+(f.fraction c i+(f.step c).toNat)/2^23 ∧
      f.fraction c (i+1) = (f.fraction c i+(f.step c).toNat)%2^23 := by
  have hnext : f.distance c (i+1) = f.distance c i+(f.step c).toNat := by
    simp only [Frame.distance]
    ring
  simp only [Frame.position,Frame.fraction,hnext]
  omega

end Reference

section Sample

/-- The products and sums of the interpolation do not leave the word. -/
theorem interpolate_eq (a b : Byte) {x : Word} (hx : x.toNat < 2^23) :
    (a.signExtend 32+(x*(b.signExtend 32-a.signExtend 32)).sshiftRight 23).toInt =
      interpolate a.toInt b.toInt x.toNat := by
  have hextend : ∀ v : Byte, (v.signExtend 32 : Word).toInt = v.toInt :=
    fun v => BitVec.toInt_signExtend_of_le (by omega)
  have ha := a.toInt_lt
  have ha' := a.le_toInt
  have hb := b.toInt_lt
  have hb' := b.le_toInt
  have hdiff : (b.signExtend 32-a.signExtend 32 : Word).toInt = b.toInt-a.toInt := by
    rw [BitVec.toInt_sub,hextend,hextend]
    exact Int.bmod_eq_of_le (by omega) (by omega)
  have hx0 : (0 : ℤ) ≤ x.toNat := Int.natCast_nonneg _
  have hlow : -255*(x.toNat : ℤ) ≤ (b.toInt-a.toInt)*x.toNat :=
    mul_le_mul_of_nonneg_right (by omega) hx0
  have hhigh : (b.toInt-a.toInt)*x.toNat ≤ 255*(x.toNat : ℤ) :=
    mul_le_mul_of_nonneg_right (by omega) hx0
  have hproduct : (x*(b.signExtend 32-a.signExtend 32)).toInt = (b.toInt-a.toInt)*x.toNat := by
    rw [BitVec.toInt_mul,hdiff,BitVec.toInt_eq_toNat_of_lt (by omega),mul_comm]
    exact Int.bmod_eq_of_le (by omega) (by omega)
  rw [BitVec.toInt_add,BitVec.toInt_sshiftRight,hproduct,hextend,interpolate,
    Int.shiftRight_eq_div_pow]
  exact Int.bmod_eq_of_le (by omega) (by omega)

/-- Of a fraction below 2^30 the samples in it are cleared. -/
theorem toNat_clearSamples {w : Word} (hw : w.toNat < 2^30) :
    (w &&& ~~~0x3F800000).toNat = w.toNat%2^23 := by
  have hmask : ∀ i < 30, (~~~0x3F800000 : Word).getLsbD i = (0x7FFFFF : Word).getLsbD i := by decide
  have hsame : w &&& ~~~0x3F800000 = w &&& 0x7FFFFF := by
    apply BitVec.eq_of_getLsbD_eq
    intro i hi
    rw [BitVec.getLsbD_and,BitVec.getLsbD_and]
    by_cases hlow : i < 30
    · rw [hmask i hlow]
    · have hbit : w.getLsbD i = false :=
        Nat.testBit_lt_two_pow (hw.trans_le (Nat.pow_le_pow_right (by omega) (by omega)))
      rw [hbit,Bool.false_and,Bool.false_and]
  rw [hsame,BitVec.toNat_and]
  exact Nat.and_two_pow_sub_one_eq_mod w.toNat 23

end Sample

section Advance

variable {f : Frame} {c : Channel} {right left : ℕ → Byte} {q k i : ℕ} {s : State}

/-- The registers hold the two samples of the output `i`, and the position behind them. -/
def Fetched (f : Frame) (c : Channel) (i : ℕ) (s : State) : Prop :=
  (∃ p, s.r3 = p+1 ∧ s.r0 = f.ldrsb p ∧ s.r1 = f.ldrsb (p+1)-f.ldrsb p ∧
    (f.track c).place (f.position c i) = some ⟨p,s.r2.toNat⟩) ∧
    s.r2.toNat < 2^31 ∧ s.r9.toNat = f.fraction c i ∧ s.r4 = f.step c

/-- What the output gets is the value between the two samples. -/
theorem Fetched.played (h : Fetched f c i s) (right left : ℕ → Byte) :
    (pitchJob f c right left).played i = some (s.r0+(s.r9*s.r1).sshiftRight 23).toInt := by
  obtain ⟨⟨p,-,hr0,hr1,hplace⟩,-,hr9,-⟩ := h
  have hsmall : s.r9.toNat < 2^23 := by
    rw [hr9]
    exact Nat.mod_lt _ (by omega)
  rw [hr0,hr1,Frame.ldrsb,Frame.ldrsb,interpolate_eq _ _ hsmall,hr9]
  simp only [pitchJob,hplace,Option.map_some]

theorem fetch_first (hpc : s.pc = .l081DD19C) :
    next f s = {s with
      r4 := f.divFreq*s.channel.freq, r0 := f.ldrsb s.r3, r3 := s.r3+1,
      r1 := f.ldrsb (s.r3+1)-f.ldrsb s.r3, pc := .l081DD1B4} := by
  unfold next
  rw [hpc]

/-- The fetch after a jump of the pointer. -/
theorem fetch_jump (hpc : s.pc = .l081DD1FC) (hz : s.z = false) :
    next f s = {s with
      r3 := s.r3+s.lr+1, r0 := f.ldrsb (s.r3+s.lr),
      r1 := f.ldrsb (s.r3+s.lr+1)-f.ldrsb (s.r3+s.lr), pc := .l081DD208} := by
  unfold next
  rw [hpc]
  dsimp only
  rw [hz]
  rfl

/-- The fetch of the next sample: the second one of the output before becomes the first one. -/
theorem fetch_next (hpc : s.pc = .l081DD1FC) (hz : s.z = true) :
    next f s = {s with r3 := s.r3+1, r1 := f.ldrsb (s.r3+1)-s.r0, pc := .l081DD208} := by
  unfold next
  rw [hpc]
  dsimp only
  rw [if_pos hz]

/-- The loop length is added until the count is positive, and the pointer is as far behind the
start of the loop as the position is. -/
theorem wrap (hloop : f.loopLength.toNat < 2^31) (hsome : f.loopLength ≠ 0)
    (hpc : s.pc = .l081DD148) (hr0 : s.r0 = f.loopLength) (hlr : s.lr.toNat < 2^31)
    (hr2 : s.r2 = 0-s.lr) :
    Reaches (next f) s fun t => ∃ r2 lr, t = {s with r2 := r2, lr := lr, z := false, pc := .l081DD1FC} ∧
      lr.toNat = s.lr.toNat%f.loopLength.toNat ∧
      r2.toNat = f.loopLength.toNat-s.lr.toNat%f.loopLength.toNat := by
  have hpos : 0 < f.loopLength.toNat := Nat.pos_of_ne_zero fun h => hsome (BitVec.eq_of_toNat_eq h)
  generalize hv : s.lr.toNat = v
  induction v using Nat.strong_induction_on generalizing s with
  | _ v ih =>
    have hlen : s.r0.toInt = f.loopLength.toNat := by
      rw [hr0,BitVec.toInt_eq_toNat_of_lt (by omega)]
    have hneg : s.r2.toInt = -(s.lr.toNat : ℤ) := by
      rw [hr2,BitVec.toInt_sub,BitVec.toInt_eq_toNat_of_lt (x := s.lr) (by omega)]
      exact (congrArg (Int.bmod · _) (zero_sub _)).trans (Int.bmod_eq_of_le (by omega) (by omega))
    apply Reaches.step
    by_cases hlast : s.lr.toNat < f.loopLength.toNat
    · have hcount : (s.r0+s.r2).toNat = f.loopLength.toNat-s.lr.toNat := by
        have hsub : s.r0+s.r2 = f.loopLength-s.lr := by
          rw [hr0,hr2,zero_sub,← sub_eq_add_neg]
        rw [hsub]
        exact BitVec.toNat_sub_of_le hlast.le
      have hne : s.r0+s.r2 ≠ 0 := fun h => by
        have : (s.r0+s.r2).toNat = 0 := congrArg BitVec.toNat h
        omega
      have hone : next f s = {s with r2 := s.r0+s.r2, z := false, pc := .l081DD1FC} := by
        unfold next
        rw [hpc]
        dsimp only
        rw [if_pos (by omega),decide_eq_false hne]
      rw [hone]
      refine Reaches.done ⟨s.r0+s.r2,s.lr,rfl,?_,?_⟩
      · rw [← hv,Nat.mod_eq_of_lt hlast]
      · rw [hcount,← hv,Nat.mod_eq_of_lt hlast]
    · have hone : next f s = {s with r2 := s.r0+s.r2, lr := s.lr-s.r0} := by
        unfold next
        rw [hpc]
        dsimp only
        rw [if_neg (by omega)]
      have hrest : (s.lr-s.r0).toNat = s.lr.toNat-f.loopLength.toNat := by
        rw [hr0]
        exact BitVec.toNat_sub_of_le (Nat.not_lt.mp hlast)
      have hmod : (s.lr.toNat-f.loopLength.toNat)%f.loopLength.toNat = v%f.loopLength.toNat := by
        rw [← hv,← Nat.mod_eq_sub_mod (Nat.not_lt.mp hlast)]
      rw [hone]
      refine (ih _ (show s.lr.toNat-f.loopLength.toNat < v by omega) (s := {s with
        r2 := s.r0+s.r2, lr := s.lr-s.r0}) hpc hr0 (show (s.lr-s.r0).toNat < 2^31 by omega) ?_
        hrest).bind ?_
      · show s.r0+s.r2 = 0-(s.lr-s.r0)
        rw [hr2]
        ring
      · rintro t ⟨r2,lr,rfl,hlr,hcount⟩
        exact Reaches.done ⟨r2,lr,rfl,hlr.trans hmod,by rw [hcount,hmod]⟩

/-- Where an output leads: the next one is fetched, or the sample has ended. -/
def Advanced (f : Frame) (c : Channel) (right left : ℕ → Byte) (q k : ℕ) (r8 : Word) (t : State) : Prop :=
  (pitchJob f c right left).InWord q k (k+1) t ∧ t.r8 = r8 ∧
    (t.pc = .l081DD208 ∧ Fetched f c (4*q+k+1) t ∨
      t.pc = .l081DD174 ∧ t.r2 = 0 ∧ (f.track c).place (f.position c (4*q+k+1)) = none)

/-- The registers after an output. -/
def outputMixed (s : State) : State := mixSample (s.r0+(s.r9*s.r1).sshiftRight 23) s

/-- How far the next output is, from the registers. -/
theorem Fetched.whole (h : Fetched f c i s) (hstep : (f.step c).toNat < 2^30-2^23) :
    ((s.r9+s.r4) >>> 23).toNat = (f.fraction c i+(f.step c).toNat)/2^23 ∧
      f.fraction c i+(f.step c).toNat < 2^30 ∧
      (s.r9+s.r4).toNat = f.fraction c i+(f.step c).toNat := by
  obtain ⟨-,-,hr9,hr4⟩ := h
  have hfraction : f.fraction c i < 2^23 := Nat.mod_lt _ (by omega)
  have hsum : (s.r9+s.r4).toNat = f.fraction c i+(f.step c).toNat := by
    rw [BitVec.toNat_add,hr9,hr4]
    omega
  refine ⟨?_,by omega,hsum⟩
  rw [BitVec.toNat_ushiftRight,hsum,Nat.shiftRight_eq_div_pow]

/-- The count has run out: the loop is entered, or the sample has ended. -/
theorem advance_end (hloop : f.loopLength.toNat < 2^31)
    (h : (pitchJob f c right left).InWord q k (k+1) s) (hpc : s.pc = .l081DD134) {n l : ℕ} {p : Word}
    (hr2 : (0-s.r2).toNat = n-l) (hn : n < 2^31) (hl : l ≤ n)
    (hplace : (f.track c).place (f.position c (4*q+k+1)) = (f.track c).advance n ⟨p,l⟩)
    (hr9 : s.r9.toNat = f.fraction c (4*q+k+1)) (hr4 : s.r4 = f.step c) :
    Reaches (next f) s (Advanced f c right left q k s.r8) := by
  rw [Track.advance,if_neg (Nat.not_lt.mpr hl)] at hplace
  by_cases hnone : f.loopLength = 0
  · have hone : next f s = {s with r0 := f.loopLength, pc := .l081DD158} := by
      unfold next
      rw [hpc]
      exact if_pos hnone
    rw [if_pos (track_loopLength.mpr hnone)] at hplace
    refine Reaches.step (Reaches.step (Reaches.done ?_))
    rw [hone]
    exact ⟨h.set _ _ _ _ _ _ _ _,rfl,.inr ⟨rfl,rfl,hplace⟩⟩
  · have hone : next f s =
        {s with r0 := f.loopLength, r3 := f.loopStart, lr := 0-s.r2, pc := .l081DD148} := by
      unfold next
      rw [hpc]
      exact if_neg hnone
    rw [if_neg (mt track_loopLength.mp hnone)] at hplace
    apply Reaches.step
    rw [hone]
    refine (wrap hloop hnone rfl rfl (show (0-s.r2).toNat < 2^31 by omega) ?_).bind ?_
    · rw [sub_sub_cancel]
    · rintro t ⟨r2,lr,rfl,hlr,hcount⟩
      have hlr : lr.toNat = (n-l)%f.loopLength.toNat := hlr.trans (by rw [hr2])
      have hcount : r2.toNat = f.loopLength.toNat-(n-l)%f.loopLength.toNat := hcount.trans (by rw [hr2])
      have hpointer : (((n-l)%f.loopLength.toNat : ℕ) : Word) = lr := by
        rw [← hlr]
        exact BitVec.ofNat_toNat _ _
      refine Reaches.step (Reaches.done ?_)
      rw [fetch_jump rfl rfl]
      refine ⟨h.set _ _ _ _ _ _ _ _,rfl,.inl ⟨rfl,⟨f.loopStart+lr,rfl,rfl,rfl,?_⟩,?_,hr9,hr4⟩⟩
      · rw [hplace]
        show some (Place.mk (f.loopStart+(((n-l)%f.loopLength.toNat : ℕ) : Word)) _) = _
        rw [hpointer]
        exact congrArg (fun x => some (Place.mk (f.loopStart+lr) x)) hcount.symm
      · show r2.toNat < 2^31
        omega

/-- Samples are left: the pointer moves on by `n` of them. -/
theorem advance_inside (h : (pitchJob f c right left).InWord q k (k+1) s) (hpc : s.pc = .l081DD1FC)
    {p n : Word} (hr3 : s.r3 = p+1) (hlr : s.lr = n-1) (hz : s.z = decide (n-1 = 0))
    (hr0 : n-1 = 0 → s.r0 = f.ldrsb (p+1))
    (hplace : (f.track c).place (f.position c (4*q+k+1)) = some ⟨p+n,s.r2.toNat⟩)
    (hr2 : s.r2.toNat < 2^31) (hr9 : s.r9.toNat = f.fraction c (4*q+k+1)) (hr4 : s.r4 = f.step c) :
    Reaches (next f) s (Advanced f c right left q k s.r8) := by
  refine Reaches.step (Reaches.done ?_)
  by_cases hnext : n-1 = 0
  · obtain rfl : n = 1 := sub_eq_zero.mp hnext
    rw [fetch_next hpc (hz.trans (decide_eq_true hnext))]
    refine ⟨h.set _ _ _ _ _ _ _ _,rfl,.inl ⟨rfl,⟨p+1,by rw [← hr3],hr0 hnext,?_,hplace⟩,hr2,hr9,hr4⟩⟩
    show f.ldrsb (s.r3+1)-s.r0 = _
    rw [hr3,hr0 hnext]
  · rw [fetch_jump hpc (hz.trans (decide_eq_false hnext))]
    have hpointer : s.r3+s.lr = p+n := by
      rw [hr3,hlr]
      ring
    refine ⟨h.set _ _ _ _ _ _ _ _,rfl,.inl ⟨rfl,⟨p+n,?_,?_,?_,hplace⟩,hr2,hr9,hr4⟩⟩
    · rw [← hpointer]
    · rw [← hpointer]
    · rw [← hpointer]

theorem advance (hstep : (f.step c).toNat < 2^30-2^23) (hloop : f.loopLength.toNat < 2^31)
    (h : (pitchJob f c right left).InWord q k k s) (hk : k < 4) (hpc : s.pc = .l081DD1BC)
    (hf : Fetched f c (4*q+k) s) :
    Reaches (next f) s (Advanced f c right left q k s.r8) := by
  have hin := h.mix hk (hf.played right left)
  obtain ⟨hwhole,hsmall,hsum⟩ := hf.whole hstep
  obtain ⟨hposition,hfraction⟩ := position_succ f c (4*q+k)
  obtain ⟨⟨p,hr3,hr0,hr1,hplace⟩,hr2,hr9,hr4⟩ := hf
  have hpos : 0 < s.r2.toNat := Track.left_pos hplace
  have hnext : (f.track c).place (f.position c (4*q+k+1)) =
      (f.track c).advance ((s.r9+s.r4) >>> 23).toNat ⟨p,s.r2.toNat⟩ := by
    rw [hposition,Track.place_add,hplace,Option.bind_some,hwhole]
  have hcleared : ((s.r9+s.r4) &&& ~~~0x3F800000).toNat = f.fraction c (4*q+k+1) := by
    rw [toNat_clearSamples (by omega),hsum,hfraction]
  apply Reaches.step
  by_cases hsame : (s.r9+s.r4) >>> 23 = 0
  · have hone : next f s = {outputMixed s with
        r9 := s.r9+s.r4, lr := (s.r9+s.r4) >>> 23, pc := .l081DD208} := by
      unfold next
      rw [hpc]
      exact if_pos hsame
    rw [hone]
    have hzero : ((s.r9+s.r4) >>> 23).toNat = 0 := congrArg BitVec.toNat hsame
    refine Reaches.done ⟨hin.set _ _ _ _ _ _ _ _,rfl,.inl ⟨rfl,⟨p,hr3,hr0,hr1,?_⟩,hr2,?_,hr4⟩⟩
    · rw [hnext,hzero,Track.advance,if_pos hpos,Nat.cast_zero,add_zero,Nat.sub_zero]
      rfl
    · show (s.r9+s.r4).toNat = _
      omega
  · have hcompare : s.r2.sle ((s.r9+s.r4) >>> 23) ↔ s.r2.toNat ≤ ((s.r9+s.r4) >>> 23).toNat :=
      sle_small hr2 (by omega)
    by_cases hover : s.r2.sle ((s.r9+s.r4) >>> 23)
    · have hone : next f s = {outputMixed s with
          r9 := (s.r9+s.r4) &&& ~~~0x3F800000, r2 := s.r2-((s.r9+s.r4) >>> 23),
          lr := (s.r9+s.r4) >>> 23, pc := .l081DD134} := by
        unfold next
        rw [hpc]
        exact (if_neg hsame).trans (if_pos hover)
      rw [hone]
      refine advance_end hloop (hin.set _ _ _ _ _ _ _ _) rfl ?_ (by omega)
        (hcompare.mp hover) hnext hcleared hr4
      show ((0 : Word)-(s.r2-((s.r9+s.r4) >>> 23))).toNat = _
      rw [zero_sub,neg_sub]
      exact BitVec.toNat_sub_of_le (hcompare.mp hover)
    · have hlt : ((s.r9+s.r4) >>> 23).toNat < s.r2.toNat := Nat.not_le.mp (mt hcompare.mpr hover)
      have hone : next f s = {outputMixed s with
          r9 := (s.r9+s.r4) &&& ~~~0x3F800000, r2 := s.r2-((s.r9+s.r4) >>> 23),
          lr := ((s.r9+s.r4) >>> 23)-1, z := ((s.r9+s.r4) >>> 23)-1 = 0,
          r0 := if ((s.r9+s.r4) >>> 23)-1 = 0 then s.r0+s.r1 else s.r0, pc := .l081DD1FC} := by
        unfold next
        rw [hpc]
        exact (if_neg hsame).trans (if_neg hover)
      rw [hone]
      have hleft : (s.r2-((s.r9+s.r4) >>> 23)).toNat = s.r2.toNat-((s.r9+s.r4) >>> 23).toNat :=
        BitVec.toNat_sub_of_le hlt.le
      refine advance_inside (hin.set _ _ _ _ _ _ _ _) rfl hr3 rfl rfl ?_ ?_ ?_ hcleared hr4
      · intro hfirst
        show (if _ then _ else _) = _
        rw [if_pos hfirst,hr0,hr1]
        ring
      · rw [hnext,Track.advance,if_pos hlt]
        refine congrArg some (congr (congrArg Place.mk (congrArg (p+·) ?_)) hleft.symm)
        exact BitVec.ofNat_toNat _ _
      · show (s.r2-((s.r9+s.r4) >>> 23)).toNat < 2^31
        omega

end Advance

section Frame

variable {f : Frame} {c : Channel} {right left : ℕ → Byte} {q k n : ℕ} {s : State}

theorem position_mono (f : Frame) (c : Channel) {m n : ℕ} (h : m ≤ n) : f.position c m ≤ f.position c n :=
  Nat.div_le_div_right (Nat.add_le_add_left (Nat.mul_le_mul_right _ h) _)

/-- After the sample has ended, the reference goes on without an effect. -/
theorem pitchOver_of_none {m : ℕ} (hnone : (f.track c).place (f.position c m) = none) (hm : m ≤ n)
    (h : (pitchJob f c right left).Over m {c with status := 0} s) :
    (pitchJob f c right left).Over n (pitchAfter f c n) s := by
  rw [pitchAfter,Track.place_none hnone (position_mono f c hm)]
  refine h.later (fun i hi => ?_) hm
  simp only [pitchJob,Track.place_none hnone (position_mono f c hi),Option.map_none]

/-- At the end of a word the pointer still runs one ahead, at the end of the frame it is set back. -/
def PitchPlayed (f : Frame) (c : Channel) (right left : ℕ → Byte) (q : ℕ) (r8 : Word) (t : State) : Prop :=
  (pitchJob f c right left).AtWord (q+1) t ∧ (4 : Word).slt r8 ∧ t.r8 = r8-4 ∧ t.pc = .l081DD1B4 ∧
      Fetched f c (4*(q+1)) t ∨
    (pitchJob f c right left).AtWord (q+1) t ∧ ¬(4 : Word).slt r8 ∧ t.pc = .l081DD228 ∧
      t.r9.toNat = f.fraction c (4*(q+1)) ∧
      (f.track c).place (f.position c (4*(q+1))) = some ⟨t.r3,t.r2.toNat⟩ ∨
    ∃ n, n ≤ 4*(q+1) ∧ (f.track c).place (f.position c n) = none ∧
      (pitchJob f c right left).Over n {c with status := 0} t

theorem pitchRest (hstep : (f.step c).toNat < 2^30-2^23) (hloop : f.loopLength.toNat < 2^31)
    (hbound : f.buffer.toNat+4*q+4 ≤ 2^30) (n : ℕ) (hk : k+n = 3)
    (h : (pitchJob f c right left).InWord q k k s) (hpc : s.pc = .l081DD1BC)
    (hf : Fetched f c (4*q+k) s) :
    Reaches (next f) s (PitchPlayed f c right left q s.r8) := by
  induction n generalizing k s with
  | zero =>
    refine (advance hstep hloop h (by omega) hpc hf).bind fun t ⟨hin,hr8,hend⟩ => ?_
    obtain rfl : k = 3 := by omega
    refine Reaches.step (Reaches.done ?_)
    obtain ⟨hpc,hf⟩ | ⟨hpc,hr2,hnone⟩ := hend
    · obtain ⟨hdone,hword⟩ := hin.store hbound .l081DD1B4
      rw [← hr8]
      by_cases hmore : (4 : Word).slt t.r8
      · have hone : next f t = {storeWords (nextByte .l081DD1B4 t) with r8 := t.r8-4} := by
          unfold next
          rw [hpc]
          exact (if_neg (not_not.mpr hdone)).trans (if_pos hmore)
        rw [hone]
        exact .inl ⟨hword.set _ _ _,hmore,rfl,rfl,hf⟩
      · have hone : next f t = {storeWords (nextByte .l081DD1B4 t) with
            r8 := t.r8-4, r3 := t.r3-1, pc := .l081DD228} := by
          unfold next
          rw [hpc]
          exact (if_neg (not_not.mpr hdone)).trans (if_neg hmore)
        obtain ⟨⟨p,hr3,-,-,hplace⟩,-,hr9,-⟩ := hf
        rw [hone]
        refine .inr (.inl ⟨hword.set _ _ _,hmore,rfl,hr9,?_⟩)
        show _ = some (Place.mk (t.r3-1) _)
        rw [hr3,add_sub_cancel_right]
        exact hplace
    · exact .inr (.inr ⟨4*q+3+1,by omega,hnone,hin.stop (by omega) hbound hpc hr2⟩)
  | succ n ih =>
    refine (advance hstep hloop h (by omega) hpc hf).bind fun t ⟨hin,hr8,hend⟩ => ?_
    apply Reaches.step
    obtain ⟨hpc,hf⟩ | ⟨hpc,hr2,hnone⟩ := hend
    · obtain ⟨hdone,hnext⟩ := hin.nextByte (by omega) hbound .l081DD1BC
      have hone : next f t = nextByte .l081DD1BC t := by
        unfold next
        rw [hpc]
        exact if_pos (by rw [hdone]; exact Bool.false_ne_true)
      rw [hone,← hr8]
      exact ih (by omega) hnext rfl hf
    · exact Reaches.done (.inr (.inr ⟨4*q+k+1,by omega,hnone,hin.stop (by omega) hbound hpc hr2⟩))

theorem pitchWord (hstep : (f.step c).toNat < 2^30-2^23) (hloop : f.loopLength.toNat < 2^31)
    (hbound : f.buffer.toNat+4*q+4 ≤ 2^30) (h : (pitchJob f c right left).AtWord q s)
    (hpc : s.pc = .l081DD1B4) (hf : Fetched f c (4*q) s) :
    Reaches (next f) s (PitchPlayed f c right left q s.r8) := by
  have hone : next f s = {loadWords s with pc := .l081DD1BC} := by
    unfold next
    rw [hpc]
  apply Reaches.step
  rw [hone]
  exact pitchRest hstep hloop hbound 3 rfl h.load rfl hf

theorem pitchWriteBack (h : (pitchJob f c right left).AtWord q s) (hpc : s.pc = .l081DD228)
    (hr9 : s.r9.toNat = f.fraction c (4*q))
    (hplace : (f.track c).place (f.position c (4*q)) = some ⟨s.r3,s.r2.toNat⟩) :
    Reaches (next f) s ((pitchJob f c right left).Over (4*q) (pitchAfter f c (4*q))) := by
  have hone : next f s = {s with channel := {s.channel with fw := s.r9}, pc := .l081DD22C} := by
    unfold next
    rw [hpc]
  refine Reaches.step (Reaches.step (Reaches.done ?_))
  obtain ⟨hkeeps,-,hright,hleft⟩ := h
  rw [hone,next,pitchAfter,hplace,← hr9]
  refine ⟨rfl,?_,hright,hleft⟩
  show ({s.channel with fw := s.r9, ct := s.r2, cp := s.r3} : Channel) = _
  rw [hkeeps.1]
  simp [pitchJob]

/-- The frame from one of its words on. -/
theorem pitchFrame (hstep : (f.step c).toNat < 2^30-2^23) (hloop : f.loopLength.toNat < 2^31)
    (hbound : f.buffer.toNat+4*n ≤ 2^30) (m : ℕ) (hm : n-q = m+1)
    (h : (pitchJob f c right left).AtWord q s) (hpc : s.pc = .l081DD1B4) (hf : Fetched f c (4*q) s)
    (hr8 : s.r8.toNat = 4*(n-q)) :
    Reaches (next f) s ((pitchJob f c right left).Over (4*n) (pitchAfter f c (4*n))) := by
  induction m generalizing q s with
  | zero =>
    have hslt : (4 : Word).slt s.r8 ↔ 4 < s.r8.toNat := slt_small (by decide) (by omega)
    obtain rfl : n = q+1 := by omega
    refine (pitchWord hstep hloop (by omega) h hpc hf).bind fun t ht => ?_
    obtain ⟨-,hmore,-⟩ | ⟨hword,-,hpc,hr9,hp⟩ | ⟨m,hm,hnone,hover⟩ := ht
    · have := hslt.mp hmore
      omega
    · exact pitchWriteBack hword hpc hr9 hp
    · exact Reaches.done (pitchOver_of_none hnone (by omega) hover)
  | succ m ih =>
    have hslt : (4 : Word).slt s.r8 ↔ 4 < s.r8.toNat := slt_small (by decide) (by omega)
    refine (pitchWord hstep hloop (by omega) h hpc hf).bind fun t ht => ?_
    obtain ⟨hword,-,htr8,hpc,hf⟩ | ⟨-,hstop,-⟩ | ⟨m,hm,hnone,hover⟩ := ht
    · have hsub : t.r8.toNat = s.r8.toNat-4 := by
        rw [htr8]
        exact BitVec.toNat_sub_of_le (show 4 ≤ s.r8.toNat by omega)
      exact ih (by omega) hword hpc hf (by omega)
    · exact absurd (hslt.mpr (by omega)) hstop
    · exact Reaches.done (pitchOver_of_none hnone (by omega) hover)

end Frame

section Mixing

/-- The place in `pcmBuffer` and the channel that a frame of the interpolating loop is for. -/
structure Pitched (f : Frame) (s : State) : Prop where
  start : s.pc = .l081DCF60
  on : s.channel.status &&& 0xC7 ≠ 0
  plain : s.channel.type &&& 0x30 = 0
  varies : s.channel.type &&& 0x8 = 0
  fraction : s.channel.fw.toNat < 2^23
  step : (f.step s.channel).toNat < 2^30-2^23
  some : 0 < s.channel.ct.toNat
  count : s.channel.ct.toNat < 2^31
  loop : f.loopLength.toNat < 2^31

/-- One frame: every output gets what the reference plays there. -/
theorem pitch_frame {f : Frame} {s : State} (h : Pitched f s) (hwords : 4 ∣ f.samples.toNat)
    (hsome : f.samples ≠ 0) (hbuffer : f.buffer.toNat+f.samples.toNat ≤ 2^30) :
    Reaches (next f) s ((pitchJob f s.channel s.right s.left).Over f.samples.toNat
      (pitchAfter f s.channel f.samples.toNat)) := by
  obtain ⟨n,hn⟩ := hwords
  have hpos : 0 < f.samples.toNat := Nat.pos_of_ne_zero fun h => hsome (BitVec.eq_of_toNat_eq h)
  refine (enter h.start h.on h.plain (pitchJob f s.channel s.right s.left).played).bind
    fun t ⟨hword,hr2,hr3,hr8,hr9,htpc⟩ => ?_
  rw [if_pos h.varies] at htpc
  have hposition : f.position s.channel (4*0) = 0 := by
    simp only [Frame.position,Frame.distance,Nat.mul_zero,Nat.zero_mul,Nat.add_zero]
    exact Nat.div_eq_of_lt h.fraction
  have hfraction : f.fraction s.channel (4*0) = s.channel.fw.toNat := by
    simp only [Frame.fraction,Frame.distance,Nat.mul_zero,Nat.zero_mul,Nat.add_zero]
    exact Nat.mod_eq_of_lt h.fraction
  rw [hn] at hbuffer hpos ⊢
  apply Reaches.step
  rw [fetch_first htpc]
  refine pitchFrame h.step h.loop hbuffer (n-1) (by omega) (hword.pitch _ _ _ _ _) rfl
    ⟨⟨t.r3,rfl,rfl,rfl,?_⟩,?_,?_,?_⟩ ?_
  · rw [hposition,hr3]
    show _ = some (Place.mk _ t.r2.toNat)
    rw [hr2]
    exact Track.place_zero _ h.some
  · show t.r2.toNat < 2^31
    rw [hr2]
    exact h.count
  · show t.r9.toNat = _
    rw [hr9,hfraction]
  · show f.divFreq*t.channel.freq = _
    rw [hword.1.1]
    rfl
  · show t.r8.toNat = _
    rw [hr8,hn,Nat.sub_zero]

/-- `t` is where the mixing of the channel in `s` comes to rest. -/
def Leaves (f : Frame) (s t : State) : Prop := t.pc = .l081DD240 ∧ Reaches (next f) s (· = t)

theorem next_rest {f : Frame} {t : State} (h : t.pc = .l081DD240) : next f t = t := by
  unfold next
  rw [h]

theorem Leaves.over {f : Frame} {s t : State} (h : Leaves f s t) {j : Job} {n : ℕ} {c : Channel}
    (hover : Reaches (next f) s (j.Over n c)) : j.Over n c t :=
  h.2.rest (next_rest h.1) hover fun _ hu => next_rest hu.1

/-- A channel that is off is passed over. -/
theorem Leaves.off {f : Frame} {s t : State} (h : Leaves f s t) (hpc : s.pc = .l081DCF60)
    (hoff : s.channel.status &&& 0xC7 = 0) : t = {s with pc := .l081DD240} := by
  have hone : next f s = {s with pc := .l081DD240} := by
    unfold next
    rw [hpc]
    exact if_pos hoff
  have hover : Reaches (next f) s (· = {s with pc := .l081DD240}) := Reaches.step (Reaches.done hone)
  exact h.2.rest (next_rest h.1) hover (by rintro u rfl; exact next_rest rfl)

end Mixing

section Composition

variable {f : Frame} {c : Channel} {a i : ℕ}

theorem position_add (f : Frame) (c : Channel) (a i : ℕ) :
    f.position c (a+i) = f.position c a+(f.fraction c a+i*(f.step c).toNat)/2^23 ∧
      f.fraction c (a+i) = (f.fraction c a+i*(f.step c).toNat)%2^23 := by
  have hsplit : f.distance c (a+i) = f.distance c a+i*(f.step c).toNat := by
    simp only [Frame.distance]
    ring
  simp only [Frame.position,Frame.fraction,hsplit]
  omega

/-- The channel that a frame of `a` outputs leaves goes on where they ended. -/
def Resumes (f : Frame) (c : Channel) (a : ℕ) (d : Channel) : Prop :=
  ∃ l, (f.track c).place (f.position c a) = some l ∧ f.track d = (f.track c).resume l ∧
    d.fw.toNat = f.fraction c a ∧ d.freq = c.freq

theorem Resumes.fraction {d : Channel} (h : Resumes f c a d) : d.fw.toNat = f.fraction c a := by
  obtain ⟨l,-,-,hfw,-⟩ := h
  exact hfw

theorem Resumes.position {d : Channel} (h : Resumes f c a d) (i : ℕ) :
    (f.track d).place (f.position d i) = (f.track c).place (f.position c (a+i)) ∧
      f.fraction d i = f.fraction c (a+i) := by
  obtain ⟨l,hplace,htrack,hfw,hfreq⟩ := h
  have hdistance : f.distance d i = f.fraction c a+i*(f.step c).toNat := by
    rw [Frame.distance,hfw,Frame.step,hfreq]
    rfl
  obtain ⟨hposition,hfraction⟩ := position_add f c a i
  refine ⟨?_,?_⟩
  · have hrest : f.position d i = (f.fraction c a+i*(f.step c).toNat)/2^23 := by
      rw [Frame.position,hdistance]
    rw [hposition,htrack,Track.place_resume _ hplace,hrest]
  · rw [hfraction,Frame.fraction,hdistance]

theorem pitchAfter_resumes {l : Place Word} (hplace : (f.track c).place (f.position c a) = some l)
    (hleft : l.left < 2^31) : Resumes f c a (pitchAfter f c a) := by
  have hfraction : f.fraction c a < 2^23 := Nat.mod_lt _ (by omega)
  have hafter : pitchAfter f c a = {c with
      fw := BitVec.ofNat 32 (f.fraction c a), ct := BitVec.ofNat 32 l.left, cp := l.pointer} := by
    rw [pitchAfter,hplace]
  rw [hafter]
  refine ⟨l,hplace,?_,?_,rfl⟩
  · have hcount : (BitVec.ofNat 32 l.left).toNat = l.left := by
      rw [BitVec.toNat_ofNat]
      omega
    show Track.mk _ (BitVec.ofNat 32 l.left).toNat _ _ = _
    rw [hcount]
    rfl
  · show (BitVec.ofNat 32 (f.fraction c a)).toNat = _
    rw [BitVec.toNat_ofNat]
    omega

/-- What is played after the resumption is what would have been played without it. -/
theorem Resumes.played {d : Channel} (h : Resumes f c a d) (r l r' l' : ℕ → Byte) (i : ℕ) :
    (pitchJob f d r l).played i = (pitchJob f c r' l').played (a+i) := by
  obtain ⟨hplace,hfraction⟩ := h.position i
  simp only [pitchJob,hplace,hfraction]

theorem Resumes.after {d : Channel} (h : Resumes f c a d) (hcp : d = pitchAfter f c a) (n : ℕ) :
    pitchAfter f d n = match (f.track c).place (f.position c (a+n)) with
      | some _ => pitchAfter f c (a+n)
      | none => {d with status := 0} := by
  obtain ⟨hplace,hfraction⟩ := h.position n
  obtain ⟨l,hl,-⟩ := h
  rw [pitchAfter,hplace]
  cases hend : (f.track c).place (f.position c (a+n)) with
  | none => rfl
  | some l' =>
    dsimp only
    rw [hfraction,hcp]
    simp only [pitchAfter,hend,hl]

end Composition

section Mixing

/-- The frame of `n` outputs at `m` bytes behind the place of the frame. -/
def Frame.part (f : Frame) (m n : Word) : Frame := {f with buffer := f.buffer+m, samples := n}

section Parts

variable {m a b : Word}

theorem toNat_total (h : m.toNat+(a.toNat+b.toNat) ≤ 2^30) : (a+b).toNat = a.toNat+b.toNat := by
  rw [BitVec.toNat_add]
  omega

theorem sum_ne_zero (ha : a ≠ 0) (h : m.toNat+(a.toNat+b.toNat) ≤ 2^30) : a+b ≠ 0 := by
  intro hzero
  have hsum : (a+b).toNat = 0 := congrArg BitVec.toNat hzero
  rw [toNat_total h] at hsum
  exact ha (BitVec.eq_of_toNat_eq (show a.toNat = 0 by omega))

end Parts

/-- One frame of `n` outputs, from the place `m` bytes behind. -/
theorem part_frame {f : Frame} {s : State} (h : Pitched f s) {m n : Word} (hn : 4 ∣ n.toNat)
    (hsome : n ≠ 0) (hbuffer : (f.buffer+m).toNat+n.toNat ≤ 2^30) :
    Reaches (next (f.part m n)) s ((pitchJob (f.part m n) s.channel s.right s.left).Over n.toNat
      (pitchAfter f s.channel n.toNat)) :=
  pitch_frame (f := f.part m n) ⟨h.start,h.on,h.plain,h.varies,h.fraction,h.step,h.some,h.count,h.loop⟩
    hn hsome hbuffer

/-- The sample has ended in the first of two frames: the second one passes the channel over. -/
theorem pitch_ended {f : Frame} {s : State} (h : Pitched f s) {a b : Word} (ha : 4 ∣ a.toNat)
    (hb : 4 ∣ b.toNat) (hsome : a ≠ 0) (hbuffer : f.buffer.toNat+(a.toNat+b.toNat) ≤ 2^30)
    (hend : (f.track s.channel).place (f.position s.channel a.toNat) = none) {whole first second : State}
    (hwhole : Leaves (f.part 0 (a+b)) s whole) (hfirst : Leaves (f.part 0 a) s first)
    (hsecond : Leaves (f.part a b) {first with pc := .l081DCF60} second) :
    whole.right = second.right ∧ whole.left = second.left ∧ whole.channel = second.channel := by
  have hbase : (f.buffer+0).toNat = f.buffer.toNat := by rw [add_zero]
  have hsum := toNat_total hbuffer
  have hne : a+b ≠ 0 := sum_ne_zero hsome hbuffer
  obtain ⟨-,hwc,hwr,hwl⟩ := hwhole.over (part_frame h (by rw [hsum]; exact Nat.dvd_add ha hb) hne (by omega))
  have hover := hfirst.over (part_frame h ha hsome (by omega))
  have hlater : ∀ i, a.toNat ≤ i → (pitchJob (f.part 0 a) s.channel s.right s.left).played i = none := by
    intro i hi
    show Option.map _ ((f.track s.channel).place (f.position s.channel i)) = none
    rw [Track.place_none hend (position_mono f _ hi),Option.map_none]
  have hafter : ∀ n, a.toNat ≤ n → pitchAfter f s.channel n = {s.channel with status := 0} := by
    intro n hn
    rw [pitchAfter,Track.place_none hend (position_mono f _ hn)]
  obtain ⟨-,hfc,hfr,hfl⟩ := hover.later hlater (Nat.le_add_right a.toNat b.toNat)
  rw [hafter _ le_rfl] at hfc
  rw [hsum] at hwc hwr hwl
  rw [hafter _ (Nat.le_add_right ..)] at hwc
  obtain rfl := hsecond.off rfl (show first.channel.status &&& 0xC7 = 0 by rw [hfc]; exact BitVec.zero_and)
  exact ⟨hwr.trans hfr.symm,hwl.trans hfl.symm,hwc.trans hfc.symm⟩

/-- The sample goes on into the second of two frames. -/
theorem pitch_resumed {f : Frame} {s : State} (h : Pitched f s) {a b : Word} (ha : 4 ∣ a.toNat)
    (hb : 4 ∣ b.toNat) (hsome : a ≠ 0) (hmore : b ≠ 0)
    (hbuffer : f.buffer.toNat+(a.toNat+b.toNat) ≤ 2^30) {l : Place Word}
    (hplace : (f.track s.channel).place (f.position s.channel a.toNat) = some l)
    {whole first second : State}
    (hwhole : Leaves (f.part 0 (a+b)) s whole) (hfirst : Leaves (f.part 0 a) s first)
    (hsecond : Leaves (f.part a b) {first with pc := .l081DCF60} second) :
    whole.right = second.right ∧ whole.left = second.left ∧
      first.channel.status = s.channel.status ∧
      whole.channel = pitchAfter f s.channel (a.toNat+b.toNat) ∧
      second.channel = match (f.track s.channel).place (f.position s.channel (a.toNat+b.toNat)) with
        | some _ => pitchAfter f s.channel (a.toNat+b.toNat)
        | none => {first.channel with status := 0} := by
  have hbase : (f.buffer+0).toNat = f.buffer.toNat := by rw [add_zero]
  have hsum := toNat_total hbuffer
  have hne : a+b ≠ 0 := sum_ne_zero hsome hbuffer
  obtain ⟨-,hwc,hwr,hwl⟩ := hwhole.over (part_frame h (by rw [hsum]; exact Nat.dvd_add ha hb) hne (by omega))
  obtain ⟨-,hfc,hfr,hfl⟩ := hfirst.over (part_frame h ha hsome (by omega))
  have hleft : l.left < 2^31 := by
    obtain hle | hle := Track.left_le hplace
    · exact hle.trans_lt h.count
    · exact hle.trans_lt h.loop
  have hresumes := pitchAfter_resumes hplace hleft
  rw [← hfc] at hresumes
  have hchannel : first.channel = {s.channel with
      fw := BitVec.ofNat 32 (f.fraction s.channel a.toNat), ct := BitVec.ofNat 32 l.left,
      cp := l.pointer} := by
    rw [hfc,pitchAfter,hplace]
  have hagain : Pitched f {first with pc := .l081DCF60} := by
    have hpos : 0 < l.left := Track.left_pos hplace
    have hcount : (BitVec.ofNat 32 l.left).toNat = l.left := by
      rw [BitVec.toNat_ofNat]
      omega
    refine ⟨rfl,?_,?_,?_,?_,?_,?_,?_,h.loop⟩
    all_goals dsimp only
    · rw [hchannel]
      exact h.on
    · rw [hchannel]
      exact h.plain
    · rw [hchannel]
      exact h.varies
    · rw [hresumes.fraction]
      exact Nat.mod_lt _ (by omega)
    · rw [hchannel]
      exact h.step
    · rw [hchannel]
      exact hcount.symm ▸ hpos
    · rw [hchannel]
      exact hcount.symm ▸ hleft
  have hplus : (f.buffer+a).toNat = f.buffer.toNat+a.toNat := by
    rw [BitVec.toNat_add]
    omega
  obtain ⟨-,hsc,hsr,hsl⟩ := hsecond.over (part_frame hagain hb hmore (by omega))
  obtain ⟨hright,hleft⟩ := Job.at_add (j := pitchJob (f.part 0 (a+b)) s.channel s.right s.left)
    (e := pitchJob (f.part a b) first.channel first.right first.left)
    (hresumes.played first.right first.left s.right s.left)
    (show (f.buffer+a).toNat = (f.buffer+0).toNat+a.toNat by omega)
    (show first.channel.er = s.channel.er by rw [hchannel])
    (show first.channel.el = s.channel.el by rw [hchannel]) hfr hfl b.toNat
  refine ⟨?_,?_,by rw [hchannel],by rw [hwc,hsum],hsc.trans (hresumes.after hfc b.toNat)⟩
  · rw [hwr,hsr,hsum,hright]
  · rw [hwl,hsl,hsum,hleft]

/-- Mixing at the pitch of the note is resampling: every frame adds what the reference plays, and two
frames do what one of both lengths does. Only the channel of a sample that ends in the second one
differs: it stays as the frame it ends in has found it. -/
theorem pitch_mixing (f : Frame) (s : State) (h : Pitched f s) (a b : Word) (ha : 4 ∣ a.toNat)
    (hb : 4 ∣ b.toNat) (hsome : a ≠ 0) (hbuffer : f.buffer.toNat+(a.toNat+b.toNat) ≤ 2^30) :
    Reaches (next (f.part 0 a)) s ((pitchJob (f.part 0 a) s.channel s.right s.left).Over a.toNat
        (pitchAfter f s.channel a.toNat)) ∧
    ∀ whole first second, Leaves (f.part 0 (a+b)) s whole → Leaves (f.part 0 a) s first →
      Leaves (f.part a b) {first with pc := .l081DCF60} second → b ≠ 0 →
      whole.right = second.right ∧ whole.left = second.left ∧
        whole.channel.status = second.channel.status ∧
        (whole.channel = second.channel ∨
          first.channel.status = s.channel.status ∧ whole.channel = {s.channel with status := 0} ∧
            second.channel = {first.channel with status := 0}) := by
  have hbase : (f.buffer+0).toNat = f.buffer.toNat := by rw [add_zero]
  refine ⟨part_frame h ha hsome (by omega),?_⟩
  intro whole first second hwhole hfirst hsecond hmore
  cases hplace : (f.track s.channel).place (f.position s.channel a.toNat) with
  | none =>
    obtain ⟨hright,hleft,hchannel⟩ := pitch_ended h ha hb hsome hbuffer hplace hwhole hfirst hsecond
    exact ⟨hright,hleft,by rw [hchannel],.inl hchannel⟩
  | some l =>
    obtain ⟨hright,hleft,hfirst,hwhole,hsecond⟩ :=
      pitch_resumed h ha hb hsome hmore hbuffer hplace hwhole hfirst hsecond
    cases hend : (f.track s.channel).place (f.position s.channel (a.toNat+b.toNat)) with
    | none =>
      rw [pitchAfter,hend] at hwhole
      rw [hend] at hsecond
      exact ⟨hright,hleft,by rw [hwhole,hsecond],.inr ⟨hfirst,hwhole,hsecond⟩⟩
    | some l' =>
      rw [hend] at hsecond
      have hsame : whole.channel = second.channel := hwhole.trans hsecond.symm
      exact ⟨hright,hleft,by rw [hsame],.inl hsame⟩

/-- A sample of six at the rate of the output. -/
def sixSamples : Frame where
  data a := a.setWidth 8
  buffer := 0
  loopStart := 0
  loopLength := 0
  divFreq := 0x800000
  samples := 8

def sixLeft : State where
  pc := .l081DCF60
  r0 := 0
  r1 := 0
  r2 := 0
  r3 := 0
  r4 := 0
  r5 := 0
  r6 := 0
  r7 := 0
  r8 := 0
  r9 := 0
  r10 := 0
  r11 := 0
  lr := 0
  z := false
  channel := {status := 2, type := 0, er := 0x80, el := 0x40, fw := 0, freq := 1, ct := 6, cp := 0x100}
  right _ := 0
  left _ := 0

theorem sixLeft_pitched : Pitched sixSamples sixLeft :=
  ⟨rfl,by decide,by decide,by decide,by decide,by decide,by decide,by decide,by decide⟩

theorem pitch_mixing_sixLeft :
    Reaches (next (sixSamples.part 0 4)) sixLeft
      ((pitchJob (sixSamples.part 0 4) sixLeft.channel sixLeft.right sixLeft.left).Over 4
        (pitchAfter sixSamples sixLeft.channel 4)) :=
  (pitch_mixing sixSamples sixLeft sixLeft_pitched 4 4 (by decide) (by decide) (by decide)
    (by decide)).1

def longLeft : State := {sixLeft with channel := {sixLeft.channel with ct := 0x80000000}}
def longLoop : Frame := {sixSamples with loopLength := 0x80000000}
def oneLeft : State := {sixLeft with channel := {sixLeft.channel with ct := 1}}
def noneLeft : State := {sixLeft with channel := {sixLeft.channel with ct := 0, cp := 0x110}}

/-- A loop length that is negative as a signed number is added for ever. -/
theorem longLoop_wraps {s : State} (hpc : s.pc = .l081DD148) (hr0 : s.r0 = 0x80000000) :
    (next longLoop s).pc = .l081DD148 ∧ (next longLoop s).r0 = 0x80000000 := by
  have hneg : s.r0.toInt = -2^31 := by
    rw [hr0]
    rfl
  have hr2 : s.r2.toInt < 2^31 := s.r2.toInt_lt
  have hone : next longLoop s = {s with r2 := s.r0+s.r2, lr := s.lr-s.r0} := by
    unfold next
    rw [hpc]
    exact if_neg (by omega)
  rw [hone]
  exact ⟨hpc,hr0⟩

theorem longLoop_runs (n : ℕ) : ((next longLoop)^[n+8] oneLeft).pc = .l081DD148 ∧
    ((next longLoop)^[n+8] oneLeft).r0 = 0x80000000 := by
  induction n with
  | zero => exact ⟨by decide,by decide⟩
  | succ n ih =>
    rw [show n+1+8 = (n+8)+1 by omega,Function.iterate_succ_apply']
    exact longLoop_wraps ih.1 ih.2

/-- The channel of a sample that ends in the second frame shows where its last frame began. A count
of 2^31 ends at once, a loop of that length never lets the frame end, and without a sample left one is
still played. -/
theorem pitch_mixing_stale :
    (∃ whole first second, Leaves (sixSamples.part 0 8) sixLeft whole ∧
      Leaves (sixSamples.part 0 4) sixLeft first ∧
      Leaves (sixSamples.part 4 4) {first with pc := .l081DCF60} second ∧
      whole.channel.cp ≠ second.channel.cp ∧ whole.channel.ct ≠ second.channel.ct) ∧
    (∃ t, Leaves sixSamples longLeft t ∧ t.channel.status = 0 ∧
      ((sixSamples.track longLeft.channel).place (sixSamples.position longLeft.channel 8)).isSome) ∧
    (¬∃ t, Leaves longLoop oneLeft t) ∧
    ∃ t, Leaves sixSamples noneLeft t ∧ (sixSamples.track noneLeft.channel).place 0 = none ∧
      t.right 0 ≠ noneLeft.right 0 := by
  refine ⟨⟨(next (sixSamples.part 0 8))^[30] sixLeft,(next (sixSamples.part 0 4))^[30] sixLeft,
    (next (sixSamples.part 4 4))^[30] {(next (sixSamples.part 0 4))^[30] sixLeft with pc := .l081DCF60},
    ⟨by decide,30,rfl⟩,⟨by decide,30,rfl⟩,⟨by decide,30,rfl⟩,by decide,by decide⟩,
    ⟨(next sixSamples)^[9] longLeft,⟨by decide,9,rfl⟩,by decide,by decide⟩,?_,
    ⟨(next sixSamples)^[9] noneLeft,⟨by decide,9,rfl⟩,by decide,by decide⟩⟩
  rintro ⟨t,hpc,n,hn⟩
  have hrest : (next longLoop)^[n+8] oneLeft = t := by
    rw [Nat.add_comm,Function.iterate_add_apply,hn]
    exact Function.iterate_fixed (next_rest hpc) 8
  have hwraps := (longLoop_runs n).1
  rw [hrest,hpc] at hwraps
  cases hwraps

end Mixing

end Mixer
end M4a
end AgbTools
