import AgbTools.M4aWindow
import Mathlib.Data.Finset.Lattice.Fold
import Mathlib.Order.Lattice.Nat

/-! The reverb as a feedback over the used part of the PCM buffer: no sample of it wraps, and without
channels it dies away. -/
namespace AgbTools
namespace M4a

open Runs

section Samples

/-- The scaled sum before its correction. -/
def mixedDown (r3 : Word) (a b c d : Byte) : ℤ :=
  (a.toInt+b.toInt+c.toInt+d.toInt)*r3.toNat / 512

variable {r3 : Word} {a b c d : Byte}

theorem signExtend_ofInt (a : Byte) : (a.signExtend 32 : Word) = BitVec.ofInt 32 a.toInt := rfl

theorem toInt_ofInt_small {x : ℤ} (h : -2^31 ≤ x ∧ x < 2^31) : (BitVec.ofInt 32 x).toInt = x := by
  rw [BitVec.toInt_ofInt]
  exact Int.bmod_eq_of_le (by omega) (by omega)

/-- The product of the sum and the reverb lies between those of the extreme sums. -/
theorem product_bounds {s m : ℤ} {r : ℕ} (hr : r ≤ 127) (hm : 0 ≤ m) (h : -m ≤ s ∧ s ≤ m) :
    -(m*127) ≤ s*r ∧ s*r ≤ m*127 := by
  have hr' : (r : ℤ) ≤ 127 := by exact_mod_cast hr
  have hr0 : (0 : ℤ) ≤ r := Int.natCast_nonneg _
  constructor <;> nlinarith

theorem bit7_iff : ∀ k : ℕ, k < 256 →
    (BitVec.ofInt 32 ((k : ℤ)-128) &&& 0x80 ≠ 0 ↔ k < 128) := by decide +kernel

theorem mixedDown_bounds (hr : r3.toNat ≤ 127) :
    -127 ≤ mixedDown r3 a b c d ∧ mixedDown r3 a b c d ≤ 126 := by
  have ha := byte_toInt a
  have hb := byte_toInt b
  have hc := byte_toInt c
  have hd := byte_toInt d
  have hp : (a.toInt+b.toInt+c.toInt+d.toInt)*r3.toNat ≤ 508*127 := by
    have hr' : (r3.toNat : ℤ) ≤ 127 := by exact_mod_cast hr
    nlinarith [Int.natCast_nonneg r3.toNat]
  have hn := (product_bounds (s := a.toInt+b.toInt+c.toInt+d.toInt) (m := 512) hr (by norm_num)
    ⟨by omega,by omega⟩).1
  unfold mixedDown
  omega

/-- The loop computes the scaled sum, and adds one to it when it is negative. -/
theorem reverbed_toInt (hr : r3.toNat ≤ 127) : (reverbed r3 a b c d).toInt =
    if mixedDown r3 a b c d < 0 then mixedDown r3 a b c d+1 else mixedDown r3 a b c d := by
  have ha := byte_toInt a
  have hb := byte_toInt b
  have hc := byte_toInt c
  have hd := byte_toInt d
  have hbounds := mixedDown_bounds (a := a) (b := b) (c := c) (d := d) hr
  have hp := product_bounds (s := a.toInt+b.toInt+c.toInt+d.toInt) (m := 512) hr (by norm_num)
    ⟨by omega,by omega⟩
  have hproduct : (a.signExtend 32+b.signExtend 32+c.signExtend 32+d.signExtend 32)*r3 =
      BitVec.ofInt 32 ((a.toInt+b.toInt+c.toInt+d.toInt)*r3.toNat) := by
    rw [BitVec.ofInt_mul,BitVec.ofInt_add,BitVec.ofInt_add,BitVec.ofInt_add,BitVec.ofInt_natCast,
      BitVec.ofNat_toNat]
    simp [signExtend_ofInt]
  have hshift : (((a.signExtend 32+b.signExtend 32+c.signExtend 32+d.signExtend 32)*r3).sshiftRight 9 :
      Word) = BitVec.ofInt 32 (mixedDown r3 a b c d) := by
    apply BitVec.eq_of_toInt_eq
    rw [hproduct,BitVec.toInt_sshiftRight,toInt_ofInt_small (by omega),toInt_ofInt_small (by omega),
      Int.shiftRight_eq_div_pow,mixedDown]
    rfl
  have hbit := bit7_iff (mixedDown r3 a b c d+128).toNat (by omega)
  rw [show (((mixedDown r3 a b c d+128).toNat : ℕ) : ℤ)-128 = mixedDown r3 a b c d by omega] at hbit
  unfold reverbed
  dsimp only
  rw [hshift]
  by_cases hneg : mixedDown r3 a b c d < 0
  · have hinc : BitVec.ofInt 32 (mixedDown r3 a b c d)+1 =
        BitVec.ofInt 32 (mixedDown r3 a b c d+1) := by rw [BitVec.ofInt_add]; rfl
    rw [if_pos hneg,if_pos (hbit.mpr (by omega)),hinc,toInt_ofInt_small (by omega)]
  · rw [if_neg hneg,if_neg (hbit.not.mpr (by omega)),toInt_ofInt_small (by omega)]

/-- A byte holds every reverberated sample. -/
theorem reverbed_fits (hr : r3.toNat ≤ 127) :
    ((reverbed r3 a b c d).truncate 8 : Byte).toInt = (reverbed r3 a b c d).toInt := by
  have hbounds := mixedDown_bounds (a := a) (b := b) (c := c) (d := d) hr
  have hvalue := reverbed_toInt (a := a) (b := b) (c := c) (d := d) hr
  have hrange : -128 ≤ (reverbed r3 a b c d).toInt ∧ (reverbed r3 a b c d).toInt ≤ 127 := by
    rw [hvalue]
    split <;> omega
  have hx := (reverbed r3 a b c d).isLt
  rw [BitVec.toInt_setWidth,Int.bmod_def]
  rw [BitVec.toInt_eq_toNat_cond] at hrange ⊢
  split_ifs at hrange ⊢ <;> omega

/-- A bound on the four samples becomes smaller by one. -/
theorem reverbed_lowers (hr : r3.toNat ≤ 127) {m : ℕ} (ha : a.toInt.natAbs ≤ m)
    (hb : b.toInt.natAbs ≤ m) (hc : c.toInt.natAbs ≤ m) (hd : d.toInt.natAbs ≤ m) :
    ((reverbed r3 a b c d).truncate 8 : Byte).toInt.natAbs ≤ m-1 := by
  have hp := product_bounds (s := a.toInt+b.toInt+c.toInt+d.toInt) (m := 4*m) hr (by omega)
    ⟨by omega,by omega⟩
  rw [reverbed_fits hr,reverbed_toInt hr]
  unfold mixedDown
  split <;> omega

end Samples

section Frames

/-- Both halves have at most the magnitude `m` at the offset `i`. -/
def Quiet (m : ℕ) (b : ℕ → Byte) (i : ℕ) : Prop :=
  (b i).toInt.natAbs ≤ m ∧ (b (i+pcmDmaBufSize)).toInt.natAbs ≤ m

/-- Both halves are the same at the offset `i`. -/
def SameAt (b b' : ℕ → Byte) (i : ℕ) : Prop :=
  b' i = b i ∧ b' (i+pcmDmaBufSize) = b (i+pcmDmaBufSize)

theorem Quiet.mono {m m' : ℕ} {b : ℕ → Byte} {i : ℕ} (h : Quiet m b i) (hm : m ≤ m') :
    Quiet m' b i := ⟨h.1.trans hm,h.2.trans hm⟩

theorem Quiet.same {m : ℕ} {b b' : ℕ → Byte} {i : ℕ} (h : Quiet m b i) (hs : SameAt b b' i) :
    Quiet m b' i := by
  unfold Quiet
  rw [hs.1,hs.2]
  exact h

/-- The passes of the reverb loop: `k` samples are replaced by lower ones, the others are as before. -/
structure Lowered (m o q u k : ℕ) (b : ℕ → Byte) (s : Pass) : Prop where
  r5 : s.r5 = o+k
  r7 : s.r7 = q+k
  bound : ∀ i < u, Quiet m s.buffer i
  done : ∀ i, o ≤ i → i < o+k → Quiet (m-1) s.buffer i
  rest : ∀ i < pcmDmaBufSize, ¬(o ≤ i ∧ i < o+k) → SameAt b s.buffer i

variable {m o q u k n : ℕ} {b : ℕ → Byte} {s : Pass} {r3 : Word}

theorem Lowered.pass (h : Lowered m o q u k b s) (hr : r3.toNat ≤ 127) (hu : u ≤ pcmDmaBufSize)
    (ho : o+k < u) (hq : q+k < u) : Lowered m o q u (k+1) b (applyReverb r3 s) := by
  have hfirst := h.bound (o+k) ho
  have hsecond := h.bound (q+k) hq
  rw [← h.r5] at hfirst
  rw [← h.r7] at hsecond
  have hlow := reverbed_lowers hr hfirst.2 hfirst.1 hsecond.2 hsecond.1
  have hat (i : ℕ) (hi : i < pcmDmaBufSize) :
      if i = o+k then Quiet (m-1) (applyReverb r3 s).buffer i
      else SameAt s.buffer (applyReverb r3 s).buffer i := by
    have hr5 := h.r5
    split_ifs with hik
    · have hne : s.r5+pcmDmaBufSize ≠ s.r5 := by omega
      rw [hik,← hr5]
      constructor
      · simp only [applyReverb,Function.update_self]
        exact hlow
      · simp only [applyReverb,Function.update_of_ne hne,Function.update_self]
        exact hlow
    · have h1 : i ≠ s.r5 := by omega
      have h2 : i ≠ s.r5+pcmDmaBufSize := by omega
      have h3 : i+pcmDmaBufSize ≠ s.r5 := by omega
      have h4 : i+pcmDmaBufSize ≠ s.r5+pcmDmaBufSize := by omega
      constructor
      · simp only [applyReverb,Function.update_of_ne h1,Function.update_of_ne h2]
      · simp only [applyReverb,Function.update_of_ne h3,Function.update_of_ne h4]
  refine ⟨?_,?_,fun i hi => ?_,fun i hi hik => ?_,fun i hi hik => ?_⟩
  · show s.r5+1 = o+(k+1)
    rw [h.r5,Nat.add_assoc]
  · show s.r7+1 = q+(k+1)
    rw [h.r7,Nat.add_assoc]
  · have hi' := hat i (by omega)
    split_ifs at hi' with heq
    · exact hi'.mono (Nat.sub_le ..)
    · exact (h.bound i hi).same hi'
  · have hi' := hat i (by omega)
    split_ifs at hi' with heq
    · exact hi'
    · exact (h.done i hi (by omega)).same hi'
  · have hi' := hat i hi
    rw [if_neg (by omega)] at hi'
    obtain ⟨hsame,hsame'⟩ := h.rest i hi (by omega)
    exact ⟨hi'.1.trans hsame,hi'.2.trans hsame'⟩

theorem lowered_iterate (hr : r3.toNat ≤ 127) (hu : u ≤ pcmDmaBufSize) (ho : o+n ≤ u) (hq : q+n ≤ u)
    (hb : ∀ i < u, Quiet m b i) (k : ℕ) (hk : k ≤ n) :
    Lowered m o q u k b ((applyReverb r3)^[k] ⟨o,q,b⟩) := by
  induction k with
  | zero => exact ⟨rfl,rfl,hb,fun i _ _ => by omega,fun i _ _ => ⟨rfl,rfl⟩⟩
  | succ k ih =>
    rw [Function.iterate_succ_apply']
    exact (ih (by omega)).pass hr hu (by omega) (by omega)

/-- The used part of each half. -/
def used (x : Rest) : ℕ := x.pcmSamplesPerVBlank*x.pcmDmaPeriod

/-- The offset lies in the frame `w`. -/
def InFrame (x : Rest) (w i : ℕ) : Prop :=
  x.pcmSamplesPerVBlank*w ≤ i ∧ i < x.pcmSamplesPerVBlank*w+x.pcmSamplesPerVBlank

/-- A frame lowers the bound of its window by one and leaves the rest of the used part alone. -/
theorem soundMainRAM_lowers {x : Rest} (hx : Rate x) (hc : x.pcmDmaCounter ≤ x.pcmDmaPeriod)
    (hr : x.reverb.toNat ≤ 127) (hb : ∀ i < used x, Quiet m x.pcmBuffer i) :
    ∀ i < used x, (InFrame x (windowFrame x) i → Quiet (m-1) (soundMainRAM x).pcmBuffer i) ∧
      (¬InFrame x (windowFrame x) i → SameAt x.pcmBuffer (soundMainRAM x).pcmBuffer i) := by
  obtain ⟨h4,h16,-⟩ := table_bounds _ hx.samples
  have hframe := windowFrame_lt hx hc
  have hwindow : (windowOffset x).toNat = x.pcmSamplesPerVBlank*windowFrame x := by
    rw [windowOffset_eq hc,Int.toNat_natCast]
  have hsecond : (reverbOffset x).toNat =
      x.pcmSamplesPerVBlank*((windowFrame x+1) % x.pcmDmaPeriod) := by
    rw [reverbOffset_eq hx hc,Int.toNat_natCast]
  have hfits (w : ℕ) (hw : w < x.pcmDmaPeriod) :
      x.pcmSamplesPerVBlank*w+x.pcmSamplesPerVBlank ≤ used x := by
    rw [← Nat.mul_succ]
    exact Nat.mul_le_mul_left _ hw
  have husedle : used x ≤ pcmDmaBufSize := hx.used
  intro i hi
  unfold InFrame soundMainRAM
  split_ifs with hoff
  · have hcleared := (cleared_noReverb h4 h16 ⟨(windowOffset x).toNat,(reverbOffset x).toNat,
      x.pcmBuffer⟩).2
    have hbound := hfits _ hframe
    simp only [hwindow] at hcleared ⊢
    constructor
    · intro hin
      constructor
      · rw [hcleared,if_pos (.inl hin)]
        simp
      · rw [hcleared,if_pos (.inr (by omega))]
        simp
    · intro hout
      constructor
      · rw [hcleared,if_neg]
        unfold InHalves
        omega
      · rw [hcleared,if_neg]
        unfold InHalves
        omega
  · have hlowered := lowered_iterate (n := x.pcmSamplesPerVBlank) hr husedle
      (hfits _ hframe) (hfits _ (Nat.mod_lt (windowFrame x+1) (by omega))) hb _ le_rfl
    simp only [hwindow,hsecond,show max 1 x.pcmSamplesPerVBlank = x.pcmSamplesPerVBlank by omega]
    exact ⟨fun hin => hlowered.done i hin.1 hin.2,fun hout => hlowered.rest i (by omega) hout⟩

end Frames

section Rounds

/-- The frame adds no samples to the buffer, and the reverb remains a value of the engine. -/
structure Quietly (f : Rest → Rest) : Prop where
  buffer : ∀ x, (f x).pcmBuffer = x.pcmBuffer
  reverb : ∀ x, x.reverb.toNat ≤ 127 → (f x).reverb.toNat ≤ 127

/-- No channel is active. -/
structure Silent (h : Handlers) : Prop where
  callbacks : Quietly h.callbacks
  channels : Quietly h.channels

/-- A frame: `SoundMain` and the interrupt after it. -/
def frame (e : Engine) (h : Handlers) (s : Sound) : Sound :=
  m4aSoundVSync (complete (start (windowEngine e h) s .soundMain))

variable {e : Engine} {h : Handlers} {s : Sound} {x₀ : Rest} {m j : ℕ}

/-- The interrupt goes on to the next window of the ring. -/
theorem windowFrame_vSync (hs : InStep s) (hon : s.off = false) :
    windowFrame (m4aSoundVSync s).rest = (windowFrame s.rest+1) % s.rest.pcmDmaPeriod := by
  have htwo := hs.rate.two_le
  have hcounter := hs.counter
  have hperiod : s.rest.pcmDmaPeriod < 256 := by
    rw [hs.rate.period]
    exact (table_bounds _ hs.rate.samples).2.2.2
  have hid : s.ident-idNumber ≤ 1 := by
    rw [hs.ident,hon]
    decide
  rw [m4aSoundVSync,if_pos hid]
  dsimp only
  by_cases hmore : (0 : ℤ) < s.rest.pcmDmaCounter-1
  · rw [if_pos hmore]
    have hpred : (s.rest.pcmDmaCounter+255) % 256 = s.rest.pcmDmaCounter-1 := by omega
    by_cases hlast : s.rest.pcmDmaCounter = 2
    · have hframe : windowFrame s.rest+1 = s.rest.pcmDmaPeriod := by
        rw [windowFrame,if_neg (by omega)]
        omega
      rw [hframe,Nat.mod_self,windowFrame,if_pos (by dsimp only; omega)]
    · have hframe : windowFrame s.rest = s.rest.pcmDmaPeriod+1-s.rest.pcmDmaCounter := by
        rw [windowFrame,if_neg (by omega)]
      rw [windowFrame,if_neg (by dsimp only; omega),hpred,Nat.mod_eq_of_lt (by omega)]
      dsimp only
      omega
  · have hframe : windowFrame s.rest = 0 := if_pos (by omega)
    rw [if_neg hmore,hframe,windowFrame,if_neg (by dsimp only; omega),Nat.mod_eq_of_lt (by omega)]
    dsimp only
    omega

theorem vSync_keeps (s : Sound) : (m4aSoundVSync s).off = s.off ∧
    (m4aSoundVSync s).rest.pcmBuffer = s.rest.pcmBuffer ∧
    (m4aSoundVSync s).rest.reverb = s.rest.reverb ∧
    (m4aSoundVSync s).rest.pcmDmaPeriod = s.rest.pcmDmaPeriod ∧
    (m4aSoundVSync s).rest.pcmSamplesPerVBlank = s.rest.pcmSamplesPerVBlank := by
  unfold m4aSoundVSync
  dsimp only
  split_ifs <;> exact ⟨rfl,rfl,rfl,rfl,rfl⟩

theorem complete_soundMain (hs : InStep s) (hon : s.off = false) :
    complete (start (windowEngine e h) s .soundMain) =
      ⟨idNumber,false,h.channels (soundMainRAM (h.callbacks s.rest))⟩ := by
  have hid : s.ident = idNumber := by rw [hs.ident,hon]; rfl
  have hstart : start (windowEngine e h) s .soundMain =
      ⟨{ s with ident := s.ident+1 },[.edit (windowEngine e h).mix,.release]⟩ :=
    if_neg (not_not.mpr hid)
  rw [hstart,complete]
  simp only [List.foldl_cons,List.foldl_nil,Micro.exec,windowEngine,hon]

theorem soundMainRAM_reverb (x : Rest) : (soundMainRAM x).reverb = x.reverb := by
  unfold soundMainRAM
  dsimp only
  split_ifs <;> rfl

/-- A round after `j` of its frames: the windows that they prepared are lower. -/
structure Going (x₀ : Rest) (m j : ℕ) (s : Sound) : Prop where
  step : InStep s
  on : s.off = false
  samples : s.rest.pcmSamplesPerVBlank = x₀.pcmSamplesPerVBlank
  period : s.rest.pcmDmaPeriod = x₀.pcmDmaPeriod
  reverb : s.rest.reverb.toNat ≤ 127
  frame : windowFrame s.rest = (windowFrame x₀+j) % x₀.pcmDmaPeriod
  bound : ∀ i < used x₀, Quiet m s.rest.pcmBuffer i
  done : ∀ j' < j, ∀ i < used x₀, InFrame x₀ ((windowFrame x₀+j') % x₀.pcmDmaPeriod) i →
    Quiet (m-1) s.rest.pcmBuffer i

theorem Going.next (hsilent : Silent h) (hg : Going x₀ m j s) :
    Going x₀ m (j+1) (M4a.frame e h s) := by
  let y := h.callbacks s.rest
  let z := h.channels (soundMainRAM y)
  obtain ⟨hyc,hyp,hyn⟩ := h.callbacks_keep s.rest
  have hybuffer := hsilent.callbacks.buffer s.rest
  have hyreverb := hsilent.callbacks.reverb s.rest hg.reverb
  obtain ⟨hzc,hzp,hzn⟩ := (h.channels_keep.comp soundMainRAM_keeps) y
  have hzbuffer := hsilent.channels.buffer (soundMainRAM y)
  have hzreverb := hsilent.channels.reverb (soundMainRAM y) (by rwa [soundMainRAM_reverb])
  obtain ⟨_,hrate,hcounter⟩ := hg.step.edit h.callbacks_keep
  have hmain : InStep ⟨idNumber,false,z⟩ := by
    have hstep := hg.step.soundMain e h
    rwa [complete_soundMain hg.step hg.on] at hstep
  obtain ⟨hoff,hbuffer,hreverb,hperiod,hsamples⟩ := vSync_keeps ⟨idNumber,false,z⟩
  have hframe := windowFrame_vSync hmain rfl
  have hwindow : windowFrame z = windowFrame s.rest := by
    unfold windowFrame
    rw [show z.pcmDmaCounter = s.rest.pcmDmaCounter from hzc.trans hyc,
      show z.pcmDmaPeriod = s.rest.pcmDmaPeriod from hzp.trans hyp]
  have hwindowy : windowFrame y = windowFrame s.rest := by
    unfold windowFrame
    rw [hyc,hyp]
  have husedy : used y = used x₀ := by
    unfold used
    rw [hyn,hyp,hg.samples,hg.period]
  have hlowers := soundMainRAM_lowers (m := m) hrate hcounter hyreverb
    (by rw [show used (h.callbacks s.rest) = used x₀ from husedy,hybuffer]; exact hg.bound)
  have hin (i : ℕ) : InFrame y (windowFrame y) i ↔
      InFrame x₀ ((windowFrame x₀+j) % x₀.pcmDmaPeriod) i := by
    unfold InFrame
    rw [hwindowy,hg.frame,hyn,hg.samples]
  have hsame : ∀ i < used x₀, ¬InFrame x₀ ((windowFrame x₀+j) % x₀.pcmDmaPeriod) i →
      SameAt s.rest.pcmBuffer z.pcmBuffer i := by
    intro i hi hout
    have hi' := (hlowers i (by rwa [← husedy] at hi)).2 ((hin i).not.mpr hout)
    rw [hybuffer] at hi'
    rwa [show z.pcmBuffer = (soundMainRAM y).pcmBuffer from hzbuffer]
  have hlower : ∀ i < used x₀, InFrame x₀ ((windowFrame x₀+j) % x₀.pcmDmaPeriod) i →
      Quiet (m-1) z.pcmBuffer i := by
    intro i hi hin'
    have hi' := (hlowers i (by rwa [← husedy] at hi)).1 ((hin i).mpr hin')
    rwa [show z.pcmBuffer = (soundMainRAM y).pcmBuffer from hzbuffer]
  have hnext : M4a.frame e h s = m4aSoundVSync ⟨idNumber,false,z⟩ := by
    rw [M4a.frame,complete_soundMain hg.step hg.on]
  rw [hnext]
  refine ⟨hmain.vSync,hoff,?_,?_,?_,?_,fun i hi => ?_,fun j' hj' i hi hin' => ?_⟩
  · rw [hsamples]
    exact (hzn.trans hyn).trans hg.samples
  · rw [hperiod]
    exact (hzp.trans hyp).trans hg.period
  · rw [hreverb]
    exact hzreverb
  · rw [hframe,hwindow,show z.pcmDmaPeriod = x₀.pcmDmaPeriod from (hzp.trans hyp).trans hg.period,
      hg.frame,Nat.mod_add_mod,Nat.add_assoc]
  · rw [hbuffer]
    by_cases hnow : InFrame x₀ ((windowFrame x₀+j) % x₀.pcmDmaPeriod) i
    · exact (hlower i hi hnow).mono (Nat.sub_le ..)
    · exact (hg.bound i hi).same (hsame i hi hnow)
  · rw [hbuffer]
    by_cases hnow : InFrame x₀ ((windowFrame x₀+j) % x₀.pcmDmaPeriod) i
    · exact hlower i hi hnow
    · have hbefore : j' < j := by
        rcases Nat.lt_succ_iff_lt_or_eq.mp hj' with hlt | rfl
        · exact hlt
        · exact absurd hin' hnow
      exact (hg.done j' hbefore i hi hin').same (hsame i hi hnow)

theorem Going.frames (hsilent : Silent h) (hg : Going x₀ m 0 s) (j : ℕ) :
    Going x₀ m j ((M4a.frame e h)^[j] s) := by
  induction j with
  | zero => exact hg
  | succ j ih =>
    rw [Function.iterate_succ_apply']
    exact ih.next hsilent

/-- After a full round every window of the used part was prepared. -/
theorem Going.round (hx : Rate x₀) (hc : x₀.pcmDmaCounter ≤ x₀.pcmDmaPeriod)
    (hg : Going x₀ m x₀.pcmDmaPeriod s) : ∀ i < used x₀, Quiet (m-1) s.rest.pcmBuffer i := by
  intro i hi
  have hn : 0 < x₀.pcmSamplesPerVBlank := by
    have := (table_bounds _ hx.samples).2.1
    omega
  have hframe := windowFrame_lt hx hc
  obtain ⟨w,hdef⟩ : ∃ w, i / x₀.pcmSamplesPerVBlank = w := ⟨_,rfl⟩
  have hw : w < x₀.pcmDmaPeriod := hdef ▸ Nat.div_lt_of_lt_mul hi
  have hin : InFrame x₀ w i := by
    have hmod := Nat.mod_lt i hn
    have hdiv := Nat.div_add_mod i x₀.pcmSamplesPerVBlank
    rw [hdef] at hdiv
    constructor <;> omega
  by_cases hle : windowFrame x₀ ≤ w
  · refine hg.done (w-windowFrame x₀) (by omega) i hi ?_
    rwa [Nat.add_sub_cancel' hle,Nat.mod_eq_of_lt hw]
  · refine hg.done (w+x₀.pcmDmaPeriod-windowFrame x₀) (by omega) i hi ?_
    rw [show windowFrame x₀+(w+x₀.pcmDmaPeriod-windowFrame x₀) = w+x₀.pcmDmaPeriod by omega,
      Nat.add_mod_right,Nat.mod_eq_of_lt hw]
    exact hin

/-- The largest magnitude over both halves of the used part. -/
def peak (x : Rest) : ℕ :=
  (Finset.range (used x)).sup fun i =>
    max (x.pcmBuffer i).toInt.natAbs (x.pcmBuffer (i+pcmDmaBufSize)).toInt.natAbs

theorem peak_le {x : Rest} : peak x ≤ m ↔ ∀ i < used x, Quiet m x.pcmBuffer i := by
  simp only [peak,Finset.sup_le_iff,Finset.mem_range,max_le_iff,Quiet]

/-- As many frames as the buffer holds. -/
def round (e : Engine) (h : Handlers) (s : Sound) : Sound :=
  (frame e h)^[s.rest.pcmDmaPeriod] s

/-- The output is on, with a reverb of the engine. -/
structure Idle (s : Sound) : Prop where
  step : InStep s
  on : s.off = false
  reverb : s.rest.reverb.toNat ≤ 127

theorem round_lowers (hsilent : Silent h) (hs : Idle s) :
    Idle (round e h s) ∧ peak (round e h s).rest ≤ peak s.rest-1 := by
  have hframe := windowFrame_lt hs.step.rate hs.step.counter
  have hstart : Going s.rest (peak s.rest) 0 s :=
    ⟨hs.step,hs.on,rfl,rfl,hs.reverb,by rw [Nat.add_zero,Nat.mod_eq_of_lt hframe],peak_le.mp le_rfl,
      fun _ hj => absurd hj (Nat.not_lt_zero _)⟩
  have hend := hstart.frames (e := e) hsilent s.rest.pcmDmaPeriod
  have hquiet := hend.round hs.step.rate hs.step.counter
  constructor
  · exact ⟨hend.step,hend.on,hend.reverb⟩
  · have hused : used (round e h s).rest = used s.rest := by
      unfold used
      rw [round,hend.samples,hend.period]
    rw [peak_le,hused]
    exact hquiet

theorem rounds_lower (hsilent : Silent h) (hs : Idle s) (k : ℕ) :
    Idle ((round e h)^[k] s) ∧ peak ((round e h)^[k] s).rest ≤ peak s.rest-k := by
  induction k with
  | zero => exact ⟨hs,le_rfl⟩
  | succ k ih =>
    rw [Function.iterate_succ_apply']
    obtain ⟨hidle,hpeak⟩ := round_lowers (e := e) hsilent ih.1
    exact ⟨hidle,by omega⟩

end Rounds

/-- Every reverberated sample fits its byte; without channels every round of frames lowers the
largest magnitude until all samples of the used part are 0. -/
theorem reverb_stable :
    (∀ (r3 : Word) (a b c d : Byte), r3.toNat ≤ 127 →
      ((reverbed r3 a b c d).truncate 8 : Byte).toInt = (reverbed r3 a b c d).toInt) ∧
    ∀ (e : Engine) (h : Handlers) (s : Sound), Silent h → Idle s →
      (0 < peak s.rest → peak (round e h s).rest < peak s.rest) ∧
      ∀ k, peak s.rest ≤ k → peak ((round e h)^[k] s).rest = 0 := by
  refine ⟨fun _ _ _ _ _ hr => reverbed_fits hr,fun e h s hsilent hs => ⟨fun hpos => ?_,fun k hk => ?_⟩⟩
  · have hlow := (round_lowers (e := e) hsilent hs).2
    omega
  · have hlow := (rounds_lower (e := e) hsilent hs k).2
    omega

/-- The largest sum of samples, and a silent engine after its start. -/
theorem reverb_stable_start :
    ((reverbed 127 0x80 0x80 0x80 0x80).truncate 8 : Byte).toInt =
      (reverbed 127 0x80 0x80 0x80 0x80).toInt ∧
    peak ((round idleEngine idleHandlers)^[peak (soundInit idleEngine blankRest).rest]
      (soundInit idleEngine blankRest)).rest = 0 :=
  ⟨reverb_stable.1 127 0x80 0x80 0x80 0x80 (by decide),
    (reverb_stable.2 idleEngine idleHandlers (soundInit idleEngine blankRest)
      ⟨⟨fun _ => rfl,fun _ h => h⟩,⟨fun _ => rfl,fun _ h => h⟩⟩
      ⟨inStep_soundInit _ _,rfl,by decide⟩).2 _ le_rfl⟩

end M4a
end AgbTools
