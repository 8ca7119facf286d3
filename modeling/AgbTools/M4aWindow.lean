import AgbTools.M4aLock
import Mathlib.Tactic.Linarith
import Mathlib.Tactic.Ring

/-! The window of the PCM buffer that a frame is mixed into: the counter of `m4aSoundVSync` that
chooses it, and the two loops that prepare it, with reverb and without. -/
namespace AgbTools
namespace M4a

open Runs

section Model

/-- `m4aSoundVSync`, with the restart of the DMA channels. -/
def m4aSoundVSync (s : Sound) : Sound :=
  if s.ident-idNumber ≤ 1 then
    let x := s.rest
    let r1 : ℤ := x.pcmDmaCounter-1
    let x := { x with pcmDmaCounter := (x.pcmDmaCounter+255) % 256 }
    if 0 < r1 then { s with rest := x }
    else
      { s with rest := { x with
        pcmDmaCounter := x.pcmDmaPeriod
        dma1cnt := startDma (stopDma x.dma1cnt)
        dma2cnt := startDma (stopDma x.dma2cnt) } }
  else s

/-- r5 of `SoundMain`, from the start of the buffer. -/
def windowOffset (x : Rest) : ℤ :=
  if x.pcmDmaCounter ≤ 1 then 0
  else x.pcmSamplesPerVBlank*((x.pcmDmaPeriod : ℤ)-(x.pcmDmaCounter-1))

/-- r7 of the reverb loop. -/
def reverbOffset (x : Rest) : ℤ :=
  if x.pcmDmaCounter = 2 then 0 else windowOffset x+x.pcmSamplesPerVBlank

/-- The sum of the four samples, scaled by the reverb. -/
def reverbed (r3 : Word) (a b c d : Byte) : Word :=
  let r0 : Word := a.signExtend 32+b.signExtend 32+c.signExtend 32+d.signExtend 32
  let r0 := (r0*r3).sshiftRight 9
  if r0 &&& 0x80 ≠ 0 then r0+1 else r0

/-- The registers of the loops and the buffer. -/
structure Pass where
  r5 : ℕ
  r7 : ℕ
  buffer : ℕ → Byte

/-- The body of `.applyReverbLoop`. -/
def applyReverb (r3 : Word) (s : Pass) : Pass :=
  let r0 := (reverbed r3 (s.buffer (s.r5+pcmDmaBufSize)) (s.buffer s.r5)
    (s.buffer (s.r7+pcmDmaBufSize)) (s.buffer s.r7)).truncate 8
  { r5 := s.r5+1
    r7 := s.r7+1
    buffer := Function.update (Function.update s.buffer (s.r5+pcmDmaBufSize) r0) s.r5 r0 }

def storeZero (a : ℕ) (b : ℕ → Byte) : ℕ → Byte := fun i => if a ≤ i ∧ i < a+4 then 0 else b i

/-- `stm` of a zero word to each half; r6 is `r5+pcmDmaBufSize` throughout. -/
def stm (s : Pass) : Pass :=
  { s with r5 := s.r5+4, buffer := storeZero (s.r5+pcmDmaBufSize) (storeZero s.r5 s.buffer) }

/-- `.noReverb`: the size shifted right, where the bits that fall out clear one word or two. -/
def noReverb (n : ℕ) (s : Pass) : Pass :=
  let r1 := n >>> 3
  let s := if n.testBit 2 then stm s else s
  let s := if r1.testBit 0 then stm (stm s) else s
  (fun s => stm (stm (stm (stm s))))^[max 1 (r1 >>> 1)] s

/-- The window before the channels are mixed into it. Both loops test behind their bodies. The
offsets are natural numbers here: no state that is reached gives others. -/
def soundMainRAM (x : Rest) : Rest :=
  let s : Pass := ⟨(windowOffset x).toNat,(reverbOffset x).toNat,x.pcmBuffer⟩
  let n := x.pcmSamplesPerVBlank
  if x.reverb = 0 then { x with pcmBuffer := (noReverb n s).buffer }
  else { x with pcmBuffer := ((applyReverb x.reverb)^[max 1 n] s).buffer }

/-- An operation that leaves alone what the window is computed from. -/
def KeepsWindow (f : Rest → Rest) : Prop :=
  ∀ x, (f x).pcmDmaCounter = x.pcmDmaCounter ∧ (f x).pcmDmaPeriod = x.pcmDmaPeriod ∧
    (f x).pcmSamplesPerVBlank = x.pcmSamplesPerVBlank

/-- What `SoundMain` calls before the window is chosen (the players and `CgbSound`), and the channels
that are mixed afterwards. -/
structure Handlers where
  callbacks : Rest → Rest
  channels : Rest → Rest
  callbacks_keep : KeepsWindow callbacks
  channels_keep : KeepsWindow channels

/-- The engine whose `SoundMain` prepares the window. -/
def windowEngine (e : Engine) (h : Handlers) : Engine :=
  { e with mix := fun x => h.channels (soundMainRAM (h.callbacks x)) }

inductive WindowCall
  | vSync
  | soundMain
  | soundMode (mode : Word)
  | vSyncOff
  | vSyncOn

/-- A call runs to its end. -/
def complete (c : Config) : Sound := c.pending.foldl Micro.exec c.sound

def windowStep (e : Engine) (s : Sound) : WindowCall → Sound
  | .vSync => m4aSoundVSync s
  | .soundMain => complete (start e s .soundMain)
  | .soundMode mode => complete (start e s (.soundMode mode))
  | .vSyncOff => complete (start e s .vSyncOff)
  | .vSyncOn => complete (start e s .vSyncOn)

/-- A mode selects no sample rate, or one of the table. -/
def WindowCall.TableRate : WindowCall → Prop
  | .soundMode mode => ((mode &&& 0xF0000) >>> 16).toNat ≤ pcmSamplesPerVBlankTable.length
  | _ => True

end Model

section Clear

variable {s : Pass} {n : ℕ}

/-- The offsets that the clearing of `n` bytes from `a` on writes, in both halves. -/
def InHalves (a n i : ℕ) : Prop :=
  a ≤ i ∧ i < a+n ∨ a+pcmDmaBufSize ≤ i ∧ i < a+pcmDmaBufSize+n

instance (a n i : ℕ) : Decidable (InHalves a n i) := inferInstanceAs (Decidable (_ ∨ _))

/-- `n` bytes are cleared. -/
def Cleared (n : ℕ) (s s' : Pass) : Prop :=
  s'.r5 = s.r5+n ∧ ∀ i, s'.buffer i = if InHalves s.r5 n i then 0 else s.buffer i

theorem cleared_zero (s : Pass) : Cleared 0 s s := by
  refine ⟨rfl,fun i => ?_⟩
  rw [if_neg]
  unfold InHalves
  omega

theorem cleared_stm (s : Pass) : Cleared 4 s (stm s) := by
  refine ⟨rfl,fun i => ?_⟩
  simp only [stm,storeZero]
  by_cases hi : InHalves s.r5 4 i
  · rw [if_pos hi]
    unfold InHalves at hi
    split_ifs <;> first | rfl | omega
  · rw [if_neg hi]
    unfold InHalves at hi
    split_ifs <;> first | rfl | omega

theorem Cleared.trans {s' s'' : Pass} {m : ℕ} (h : Cleared n s s') (h' : Cleared m s' s'') :
    Cleared (n+m) s s'' := by
  refine ⟨by rw [h'.1,h.1,Nat.add_assoc],fun i => ?_⟩
  have hsplit : InHalves s.r5 (n+m) i ↔ InHalves (s.r5+n) m i ∨ InHalves s.r5 n i := by
    unfold InHalves
    omega
  rw [h'.2,h.2,h.1]
  by_cases hm : InHalves (s.r5+n) m i
  · rw [if_pos hm,if_pos (hsplit.mpr (.inl hm))]
  by_cases hn : InHalves s.r5 n i
  · rw [if_neg hm,if_pos hn,if_pos (hsplit.mpr (.inr hn))]
  · rw [if_neg hm,if_neg hn,if_neg fun h => (hsplit.mp h).elim hm hn]

theorem cleared_iterate {f : Pass → Pass} {k : ℕ} (hf : ∀ s, Cleared k s (f s)) (m : ℕ) (s : Pass) :
    Cleared (k*m) s (f^[m] s) := by
  induction m with
  | zero => exact cleared_zero s
  | succ m ih =>
    rw [Function.iterate_succ_apply',Nat.mul_succ]
    exact ih.trans (hf _)

theorem cleared_four (s : Pass) : Cleared 16 s (stm (stm (stm (stm s)))) :=
  (((cleared_stm s).trans (cleared_stm _)).trans (cleared_stm _)).trans (cleared_stm _)

/-- The unrolled loop clears exactly its size, when this is a multiple of a word and not below one
pass. -/
theorem cleared_noReverb (h4 : n % 4 = 0) (h16 : 16 ≤ n) (s : Pass) : Cleared n s (noReverb n s) := by
  have hword : Cleared (if n.testBit 2 then 4 else 0) s (if n.testBit 2 then stm s else s) := by
    split
    · exact cleared_stm s
    · exact cleared_zero s
  have hdouble (s : Pass) : Cleared (if (n >>> 3).testBit 0 then 8 else 0) s
      (if (n >>> 3).testBit 0 then stm (stm s) else s) := by
    split
    · exact (cleared_stm s).trans (cleared_stm _)
    · exact cleared_zero s
  have hrest (s : Pass) := cleared_iterate cleared_four (max 1 (n >>> 3 >>> 1)) s
  have hall := (hword.trans (hdouble _)).trans (hrest _)
  have hsize : (if n.testBit 2 then 4 else 0)+(if (n >>> 3).testBit 0 then 8 else 0)+
      16*max 1 (n >>> 3 >>> 1) = n := by
    simp only [Nat.testBit_eq_decide_div_mod_eq,Nat.shiftRight_eq_div_pow,decide_eq_true_eq]
    split_ifs <;> omega
  rwa [hsize] at hall

end Clear

section Rate

/-- The sample rates of the table: whole words of samples, and at least two frames in the buffer. -/
structure Rate (x : Rest) : Prop where
  samples : x.pcmSamplesPerVBlank ∈ pcmSamplesPerVBlankTable
  period : x.pcmDmaPeriod = pcmDmaBufSize / x.pcmSamplesPerVBlank

theorem table_bounds : ∀ n ∈ pcmSamplesPerVBlankTable, n % 4 = 0 ∧ 16 ≤ n ∧
    2 ≤ pcmDmaBufSize / n ∧ pcmDmaBufSize / n < 256 := by decide

theorem Rate.used {x : Rest} (h : Rate x) :
    x.pcmSamplesPerVBlank*x.pcmDmaPeriod ≤ pcmDmaBufSize := by
  rw [h.period]
  exact Nat.mul_div_le ..

theorem Rate.two_le {x : Rest} (h : Rate x) : 2 ≤ x.pcmDmaPeriod := by
  rw [h.period]
  exact (table_bounds _ h.samples).2.2.1

/-- The number of frames before the window. -/
def windowFrame (x : Rest) : ℕ :=
  if x.pcmDmaCounter ≤ 1 then 0 else x.pcmDmaPeriod+1-x.pcmDmaCounter

theorem windowFrame_lt {x : Rest} (h : Rate x) (hc : x.pcmDmaCounter ≤ x.pcmDmaPeriod) :
    windowFrame x < x.pcmDmaPeriod := by
  have htwo := h.two_le
  unfold windowFrame
  split <;> omega

theorem windowOffset_eq {x : Rest} (hc : x.pcmDmaCounter ≤ x.pcmDmaPeriod) :
    windowOffset x = (x.pcmSamplesPerVBlank*windowFrame x : ℕ) := by
  unfold windowOffset windowFrame
  split_ifs
  · simp
  · rw [Nat.cast_mul]
    congr 1
    omega

/-- The second window is the next one, round the used part of the buffer. -/
theorem reverbOffset_eq {x : Rest} (h : Rate x) (hc : x.pcmDmaCounter ≤ x.pcmDmaPeriod) :
    reverbOffset x = (x.pcmSamplesPerVBlank*((windowFrame x+1) % x.pcmDmaPeriod) : ℕ) := by
  have htwo := h.two_le
  unfold reverbOffset
  split_ifs with hlast
  · have hframe : windowFrame x+1 = x.pcmDmaPeriod := by
      rw [windowFrame,if_neg (by omega)]
      omega
    rw [hframe,Nat.mod_self]
    simp
  · have hframe : windowFrame x+1 < x.pcmDmaPeriod := by
      unfold windowFrame
      split_ifs <;> omega
    rw [windowOffset_eq hc,Nat.mod_eq_of_lt hframe]
    push_cast
    ring

/-- A frame of the used part lies inside the buffer. -/
theorem Rate.frame_le {x : Rest} (h : Rate x) {k : ℕ} (hk : k < x.pcmDmaPeriod) :
    x.pcmSamplesPerVBlank*k+x.pcmSamplesPerVBlank ≤ pcmDmaBufSize := by
  have hmul : x.pcmSamplesPerVBlank*(k+1) ≤ x.pcmSamplesPerVBlank*x.pcmDmaPeriod :=
    Nat.mul_le_mul_left _ hk
  have hused := h.used
  rw [Nat.mul_succ] at hmul
  omega

end Rate

section Runs

variable {s : Sound}

/-- Between two calls: the lock word is free, the rate is one of the table, and the counter does not
exceed the period. -/
structure InStep (s : Sound) : Prop where
  ident : s.ident = freeIdent s.off
  rate : Rate s.rest
  counter : s.rest.pcmDmaCounter ≤ s.rest.pcmDmaPeriod

theorem InStep.edit (h : InStep s) {f : Rest → Rest} (hf : KeepsWindow f) :
    InStep { s with rest := f s.rest } := by
  obtain ⟨hc,hp,hn⟩ := hf s.rest
  refine ⟨h.ident,⟨?_,?_⟩,?_⟩
  · rw [hn]
    exact h.rate.samples
  · rw [hp,hn]
    exact h.rate.period
  · rw [hc,hp]
    exact h.counter

theorem InStep.vSync (h : InStep s) : InStep (m4aSoundVSync s) := by
  have hc := h.counter
  have htwo := h.rate.two_le
  have hperiod : s.rest.pcmDmaPeriod < 256 := by
    rw [h.rate.period]
    exact (table_bounds _ h.rate.samples).2.2.2
  unfold m4aSoundVSync
  split
  · dsimp only
    split
    · exact ⟨h.ident,⟨h.rate.samples,h.rate.period⟩,by dsimp only; omega⟩
    · exact ⟨h.ident,⟨h.rate.samples,h.rate.period⟩,le_rfl⟩
  · exact h

/-- A selection of a rate of the table, from a state in which `m4aSoundVSyncOn` does not return at
once. -/
theorem sampleFreqSet_rate (e : Engine) (freq : Word)
    (hlow : 1 ≤ ((freq &&& 0xF0000) >>> 16).toNat)
    (hhigh : ((freq &&& 0xF0000) >>> 16).toNat ≤ pcmSamplesPerVBlankTable.length)
    (hid : s.ident ≠ idNumber) :
    let s' := (sampleFreqSet e freq).foldl Micro.exec s
    Rate s'.rest ∧ s'.rest.pcmDmaCounter = 0 ∧ s'.off = false := by
  have hindex : ((freq &&& 0xF0000) >>> 16).toNat-1 < pcmSamplesPerVBlankTable.length := by omega
  have hmem := List.getElem_mem hindex
  have hsamples : (sampleFreq e freq s.rest).pcmSamplesPerVBlank =
      pcmSamplesPerVBlankTable[((freq &&& 0xF0000) >>> 16).toNat-1] := by
    simp only [sampleFreq,setReg,List.getElem?_eq_getElem hindex,Option.getD_some]
  have hperiod : (sampleFreq e freq s.rest).pcmDmaPeriod =
      pcmDmaBufSize / (sampleFreq e freq s.rest).pcmSamplesPerVBlank % 256 := rfl
  have hrate : Rate (sampleFreq e freq s.rest) := by
    rw [hsamples] at hperiod
    refine ⟨by rwa [hsamples],?_⟩
    rw [hsamples,hperiod,Nat.mod_eq_of_lt (table_bounds _ hmem).2.2.2]
  dsimp only [sampleFreqSet,List.foldl,Micro.exec,m4aSoundVSyncOn]
  rw [if_neg hid]
  exact ⟨⟨hrate.samples,hrate.period⟩,rfl,rfl⟩

theorem inStep_soundInit (e : Engine) (x : Rest) : InStep (soundInit e x) := by
  have hid : (0 : Word) ≠ idNumber := by decide
  refine ⟨rfl,?_,?_⟩
  · exact (sampleFreqSet_rate e 0x40000 (by decide) (by decide) (s := ⟨0,false,_⟩) hid).1
  · exact Nat.zero_le _

theorem freqIndex_pos {mode : Word} (h : mode &&& 0xF0000 ≠ 0) :
    1 ≤ ((mode &&& 0xF0000) >>> 16).toNat := by
  have hmask : ∀ j < 16, (0xF0000 : Word).getLsbD j = false := by decide
  by_contra hzero
  have hnone : ((mode &&& 0xF0000) >>> 16).toNat = 0 := by omega
  have hshift : (mode &&& 0xF0000) >>> 16 = 0 := BitVec.eq_of_toNat_eq hnone
  apply h
  apply BitVec.eq_of_getLsbD_eq
  intro j hj
  by_cases hlow : j < 16
  · rw [BitVec.getLsbD_and,hmask j hlow,Bool.and_false]
    simp
  · have hbit : ((mode &&& 0xF0000) >>> 16).getLsbD (j-16) = false := by rw [hshift]; simp
    rw [BitVec.getLsbD_ushiftRight,show 16+(j-16) = j by omega] at hbit
    rw [hbit]
    simp

theorem soundMode_keeps (mode : Word) : KeepsWindow fun x =>
    soundModeDaBit mode (soundModeVolume mode (soundModeMaxChans mode (soundModeReverb mode x))) := by
  intro x
  unfold soundModeDaBit soundModeVolume soundModeMaxChans soundModeReverb setReg
  dsimp only
  split_ifs <;> exact ⟨rfl,rfl,rfl⟩

theorem InStep.soundMode (h : InStep s) (e : Engine) {mode : Word}
    (hmode : (WindowCall.soundMode mode).TableRate) : InStep (complete (start e s (.soundMode mode))) := by
  unfold complete start locking
  split_ifs with hid
  · exact h
  have hid' : s.ident = idNumber := by simpa using hid
  have hoff := freeIdent_eq_idNumber h.ident hid'
  have hedit := h.edit (soundMode_keeps mode)
  by_cases hfreq : mode &&& 0xF0000 = 0
  · simp only [M4a.soundMode,hfreq,ne_eq,not_true_eq_false,if_false,List.append_nil,List.foldl_append,
      List.foldl_cons,List.foldl_nil,Micro.exec]
    exact ⟨by rw [hoff]; rfl,hedit.rate,hedit.counter⟩
  · let x := soundModeDaBit mode (soundModeVolume mode (soundModeMaxChans mode
      (soundModeReverb mode s.rest)))
    have hlock : idNumber ≤ s.ident+1 ∧ s.ident+1 ≤ idNumber+1 := by rw [hid']; decide
    have hne : s.ident+1+10 ≠ idNumber := by rw [hid']; decide
    have hoffStep : m4aSoundVSyncOff ⟨s.ident+1,s.off,x⟩ =
        ⟨s.ident+1+10,true,{ x with
          dma1cnt := stopDma x.dma1cnt, dma2cnt := stopDma x.dma2cnt, pcmBuffer := fun _ => 0 }⟩ := by
      rw [m4aSoundVSyncOff,if_pos hlock]
    have hself : mode &&& 0xF0000 &&& 0xF0000 = mode &&& 0xF0000 := by
      rw [BitVec.and_assoc,BitVec.and_self]
    obtain ⟨hrate,hcounter,hoff'⟩ := sampleFreqSet_rate e (mode &&& 0xF0000)
      (by rw [hself]; exact freqIndex_pos hfreq) (by rw [hself]; exact hmode)
      (s := m4aSoundVSyncOff ⟨s.ident+1,s.off,x⟩) (by rw [hoffStep]; exact hne)
    simp only [M4a.soundMode,hfreq,ne_eq,not_false_eq_true,if_true,List.foldl_append,List.foldl_cons,
      List.foldl_nil,Micro.exec,List.cons_append,List.nil_append]
    exact ⟨by rw [hoff']; rfl,hrate,hcounter.trans_le (Nat.zero_le _)⟩

theorem soundMainRAM_keeps : KeepsWindow soundMainRAM := by
  intro x
  unfold soundMainRAM
  dsimp only
  split_ifs <;> exact ⟨rfl,rfl,rfl⟩

theorem KeepsWindow.comp {f g : Rest → Rest} (hf : KeepsWindow f) (hg : KeepsWindow g) :
    KeepsWindow fun x => f (g x) := by
  intro x
  obtain ⟨hc,hp,hn⟩ := hf (g x)
  obtain ⟨hc',hp',hn'⟩ := hg x
  exact ⟨hc.trans hc',hp.trans hp',hn.trans hn'⟩

theorem InStep.soundMain (h : InStep s) (e : Engine) (handlers : Handlers) :
    InStep (complete (start (windowEngine e handlers) s .soundMain)) := by
  unfold complete start locking
  split_ifs with hid
  · exact h
  have hid' : s.ident = idNumber := by simpa using hid
  have hoff := freeIdent_eq_idNumber h.ident hid'
  have hmix := h.edit (handlers.channels_keep.comp (soundMainRAM_keeps.comp handlers.callbacks_keep))
  exact ⟨by rw [hoff]; rfl,hmix.rate,hmix.counter⟩

theorem InStep.vSyncOff (h : InStep s) : InStep (m4aSoundVSyncOff s) := by
  obtain ⟨hid,hoff⟩ := vSyncOff_free h.ident
  refine ⟨by rw [hid,hoff],?_,?_⟩ <;> unfold m4aSoundVSyncOff <;> split
  · exact ⟨h.rate.samples,h.rate.period⟩
  · exact h.rate
  · exact h.counter
  · exact h.counter

theorem InStep.vSyncOn (h : InStep s) : InStep (m4aSoundVSyncOn s) := by
  obtain ⟨hid,hoff⟩ := vSyncOn_free h.ident
  refine ⟨by rw [hid,hoff],?_,?_⟩ <;> unfold m4aSoundVSyncOn <;> split
  · exact h.rate
  · exact ⟨h.rate.samples,h.rate.period⟩
  · exact h.counter
  · exact Nat.zero_le _

theorem InStep.step (h : InStep s) (e : Engine) (handlers : Handlers) {c : WindowCall}
    (hc : c.TableRate) : InStep (windowStep (windowEngine e handlers) s c) := by
  cases c with
  | vSync => exact h.vSync
  | soundMain => exact h.soundMain e handlers
  | soundMode mode => exact h.soundMode _ hc
  | vSyncOff => exact h.vSyncOff
  | vSyncOn => exact h.vSyncOn

end Runs

/-- In every state after `SoundInit` and any calls, what `SoundMain` reads is in step: the counter is
at most the period, both windows lie inside the buffer, and without reverb exactly the window is
cleared in both halves. -/
theorem window_inside (e : Engine) (handlers : Handlers) (x : Rest) (cs : List WindowCall)
    (hcs : ∀ c ∈ cs, c.TableRate) :
    let s := run (windowStep (windowEngine e handlers)) (soundInit (windowEngine e handlers) x) cs
    let y := handlers.callbacks s.rest
    y.pcmDmaCounter ≤ y.pcmDmaPeriod ∧
    (0 ≤ windowOffset y ∧ windowOffset y+y.pcmSamplesPerVBlank ≤ pcmDmaBufSize) ∧
    (0 ≤ reverbOffset y ∧ reverbOffset y+y.pcmSamplesPerVBlank ≤ pcmDmaBufSize) ∧
    (y.reverb = 0 → ∀ i, (soundMainRAM y).pcmBuffer i =
      if InHalves (windowOffset y).toNat y.pcmSamplesPerVBlank i then 0 else y.pcmBuffer i) := by
  intro s y
  have hok : ∀ s c, InStep s → WindowCall.TableRate c → InStep (windowStep (windowEngine e handlers) s c) :=
    fun _ _ h hc => h.step e handlers hc
  have hin : InStep s := Along.invariant hok (inStep_soundInit _ x) (along_of_forall hcs)
  obtain ⟨-,hrate,hcounter⟩ := hin.edit handlers.callbacks_keep
  have hframe := windowFrame_lt hrate hcounter
  have hwindow := windowOffset_eq hcounter
  have hsecond := reverbOffset_eq hrate hcounter
  have hinside := hrate.frame_le hframe
  have hinside' := hrate.frame_le (Nat.mod_lt (windowFrame y+1) (by omega))
  refine ⟨hcounter,⟨?_,?_⟩,⟨?_,?_⟩,fun hoff i => ?_⟩
  · rw [hwindow]
    exact Int.natCast_nonneg _
  · rw [hwindow]
    exact_mod_cast hinside
  · rw [hsecond]
    exact Int.natCast_nonneg _
  · rw [hsecond]
    exact_mod_cast hinside'
  · obtain ⟨h4,h16,-⟩ := table_bounds _ hrate.samples
    have hcleared := (cleared_noReverb h4 h16 ⟨(windowOffset y).toNat,(reverbOffset y).toNat,
      y.pcmBuffer⟩).2 i
    rw [soundMainRAM,if_pos hoff]
    exact hcleared

def idleHandlers : Handlers := ⟨id,id,fun _ => ⟨rfl,rfl,rfl⟩,fun _ => ⟨rfl,rfl,rfl⟩⟩

def rateChange : List WindowCall :=
  [.vSync,.soundMain,.soundMode 0xC0000,.vSync,.vSyncOff,.vSyncOn]

theorem rateChange_tableRate : ∀ c ∈ rateChange, c.TableRate := by
  intro c hc
  simp only [rateChange,List.mem_cons,List.not_mem_nil,or_false] at hc
  obtain rfl | rfl | rfl | rfl | rfl | rfl := hc
  · trivial
  · trivial
  · change ((0xC0000 &&& 0xF0000 : Word) >>> 16).toNat ≤ 12
    decide
  · trivial
  · trivial
  · trivial

/-- A change of the rate between frames. -/
theorem window_inside_changed :
    let s := run (windowStep (windowEngine idleEngine idleHandlers))
      (soundInit (windowEngine idleEngine idleHandlers) blankRest) rateChange
    let y := idleHandlers.callbacks s.rest
    y.pcmDmaCounter ≤ y.pcmDmaPeriod :=
  (window_inside idleEngine idleHandlers blankRest rateChange rateChange_tableRate).1

end M4a
end AgbTools
