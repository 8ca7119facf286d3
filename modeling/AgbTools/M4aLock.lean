import Mathlib.Data.BitVec
import Mathlib.Logic.Function.Basic
import Mathlib.Tactic.Common
import AgbTools.Runs

/-! The lock of the sound engine: one word that is at once a lock and the on/off state of the PCM
output, taken and given back by the entry points of the library. -/
namespace AgbTools
namespace M4a

abbrev Byte := BitVec 8
abbrev Word := BitVec 32

/-- Numerals of oscillators, of their registers and of channel counts share one proof each that there
are any. -/
scoped instance osc_neZero : NeZero 4 := ⟨by decide⟩
scoped instance port_neZero : NeZero 5 := ⟨by decide⟩
scoped instance count_neZero : NeZero 13 := ⟨by decide⟩

theorem byte_toInt (b : Byte) : -128 ≤ b.toInt ∧ b.toInt ≤ 127 := by
  have h := b.isLt
  rw [BitVec.toInt_eq_toNat_cond]
  split <;> omega

def idNumber : Word := 0x68736D53

def dmaEnable : Word := 0x8000
def dmaStartSpecial : Word := 0x3000
def dmaRepeat : Word := 0x0200
def dma32Bit : Word := 0x0400
def dmaDestFixed : Word := 0x0040

/-- The sound registers that the modelled routines write. -/
inductive Reg
  | soundcntX | soundcntL | soundbiasH | tm0cntL | tm0cntH
  | nr12 | nr14 | nr22 | nr24 | nr30 | nr42 | nr44 | nr50
deriving DecidableEq, Repr

/-- The callbacks that `MPlayExtender` installs in place of `DummyFunc`. -/
inductive Callback
  | dummy
  | cgb
deriving DecidableEq, Repr

/-- A music player as `MPlayOpen` sets it up. -/
structure Player where
  ident : Word
  tracks : ℕ
  trackCount : ℕ
  status : Word
  func : ℕ
  intp : ℕ

/-- The sound state besides the lock word: `SoundInfo`, the channels, the players and the
hardware registers. -/
structure Rest where
  pcmDmaCounter : ℕ
  reverb : Word
  maxChans : Word
  masterVolume : Word
  freq : ℕ
  pcmDmaPeriod : ℕ
  maxLines : ℕ
  pcmSamplesPerVBlank : ℕ
  pcmFreq : ℕ
  divFreq : ℕ
  cgbChans : ℕ
  func : ℕ
  intp : ℕ
  callbacks : Callback
  chanStatus : Fin 12 → Byte
  cgbSf : Fin 4 → Byte
  cgbPanMask : Fin 4 → Byte
  pcmBuffer : ℕ → Byte
  jumpTable : ℕ → ℕ
  trackFlags : ℕ → Byte
  player : ℕ → Player
  dma1cnt : Word
  dma2cnt : Word
  reg : Reg → Word

/-- The lock word, the rest, and which of the on/off calls took effect last. -/
structure Sound where
  ident : Word
  off : Bool
  rest : Rest

/-- What lies outside the routines: the words behind the sample table, the addresses of the
routines put into tables, the scanline limit, and the work of `SoundMain` between taking and
giving back the lock (player callbacks, Game Boy channels and mixing). -/
structure Engine where
  behindTable : ℕ → ℕ
  routine : ℕ → ℕ
  maxLines : ℕ
  mix : Rest → Rest

def pcmSamplesPerVBlankTable : List ℕ := [96,132,176,224,264,304,352,448,528,608,672,704]

def pcmDmaBufSize : ℕ := 1584

section Pieces

/-- A DMA channel is run once more if it repeats, and then stopped. -/
def stopDma (cnt : Word) : Word :=
  let cnt := if cnt &&& (dmaRepeat <<< 16) ≠ 0 then ((dmaEnable ||| dma32Bit ||| dmaDestFixed) <<< 16) ||| 4
    else cnt
  (cnt &&& 0xFFFF) ||| (dma32Bit <<< 16)

def startDma (cnt : Word) : Word :=
  (cnt &&& 0xFFFF) ||| ((dmaEnable ||| dmaStartSpecial ||| dma32Bit ||| dmaRepeat) <<< 16)

def setReg (r : Reg) (v : Word) (x : Rest) : Rest := { x with reg := Function.update x.reg r v }

def m4aSoundVSyncOff (s : Sound) : Sound :=
  if idNumber ≤ s.ident ∧ s.ident ≤ idNumber+1 then
    { ident := s.ident+10, off := true,
      rest := { s.rest with dma1cnt := stopDma s.rest.dma1cnt, dma2cnt := stopDma s.rest.dma2cnt,
                            pcmBuffer := fun _ => 0 } }
  else s

def m4aSoundVSyncOn (s : Sound) : Sound :=
  if s.ident = idNumber then s
  else
    { ident := s.ident-10, off := false,
      rest := { s.rest with dma1cnt := startDma s.rest.dma1cnt, dma2cnt := startDma s.rest.dma2cnt,
                            pcmDmaCounter := 0 } }

variable (e : Engine)

/-- `SampleFreqSet` up to its call of `m4aSoundVSyncOn`. -/
def sampleFreq (freq : Word) (x : Rest) : Rest :=
  let n := ((freq &&& 0xF0000) >>> 16).toNat
  let samples := (pcmSamplesPerVBlankTable[n-1]?).getD (e.behindTable n)
  let pcmFreq := (597275*samples+5000) / 10000
  let x := { x with freq := n, pcmSamplesPerVBlank := samples,
                    pcmDmaPeriod := pcmDmaBufSize / samples % 256, pcmFreq := pcmFreq,
                    divFreq := (16777216 / pcmFreq+1) / 2 }
  setReg .tm0cntL (BitVec.ofInt 32 (-(280896 / samples : ℕ))) (setReg .tm0cntH 0 x)

/-- The end of `SampleFreqSet`: the timer starts at scanline 159. -/
def startTimer (x : Rest) : Rest := setReg .tm0cntH 0x80 x

/-- One step of a routine that holds the lock, between two points where an interrupt can come. -/
inductive Micro
  | edit (f : Rest → Rest)
  | vSyncOff
  | vSyncOn
  | release

def Micro.isOn : Micro → Bool
  | .vSyncOn => true
  | _ => false

def Micro.exec (s : Sound) : Micro → Sound
  | .edit f => { s with rest := f s.rest }
  | .vSyncOff => m4aSoundVSyncOff s
  | .vSyncOn => m4aSoundVSyncOn s
  | .release => { s with ident := idNumber }

/-- `SampleFreqSet`. -/
def sampleFreqSet (freq : Word) : List Micro :=
  [.edit (sampleFreq e freq),.vSyncOn,.edit startTimer]

def soundModeReverb (mode : Word) (x : Rest) : Rest :=
  let temp := mode &&& 0xFF
  if temp ≠ 0 then { x with reverb := temp &&& 0x7F } else x

def soundModeMaxChans (mode : Word) (x : Rest) : Rest :=
  let temp := mode &&& 0xF00
  if temp ≠ 0 then { x with maxChans := temp >>> 8, chanStatus := fun _ => 0 } else x

def soundModeVolume (mode : Word) (x : Rest) : Rest :=
  let temp := mode &&& 0xF000
  if temp ≠ 0 then { x with masterVolume := temp >>> 12 } else x

def soundModeDaBit (mode : Word) (x : Rest) : Rest :=
  let temp := mode &&& 0xB00000
  if temp ≠ 0 then setReg .soundbiasH ((x.reg .soundbiasH &&& 0x3F) ||| ((temp &&& 0x300000) >>> 14)) x
  else x

/-- `m4aSoundMode` behind its lock. -/
def soundMode (mode : Word) : List Micro :=
  let freq := mode &&& 0xF0000
  [.edit (soundModeReverb mode),.edit (soundModeMaxChans mode),.edit (soundModeVolume mode),
    .edit (soundModeDaBit mode)] ++
    (if freq ≠ 0 then .vSyncOff :: sampleFreqSet e freq else []) ++ [.release]

/-- The real `CgbOscOff`. -/
def cgbOscOff (chanNum : Fin 4) (x : Rest) : Rest :=
  match chanNum with
  | 0 => setReg .nr14 0x80 (setReg .nr12 8 x)
  | 1 => setReg .nr24 0x80 (setReg .nr22 8 x)
  | 2 => setReg .nr30 0 x
  | 3 => setReg .nr44 0x80 (setReg .nr42 8 x)

def clearCgb (i : Fin 4) (x : Rest) : Rest :=
  let x := if x.callbacks = .cgb then cgbOscOff i x else x
  { x with cgbSf := Function.update x.cgbSf i 0 }

/-- `SoundClear` behind its lock. -/
def soundClear : List Micro :=
  [.edit fun x => { x with chanStatus := fun _ => 0 },
    .edit fun x => if x.cgbChans ≠ 0 then clearCgb 3 (clearCgb 2 (clearCgb 1 (clearCgb 0 x))) else x,
    .release]

def setPlayer (player : ℕ) (p : Player) (x : Rest) : Rest :=
  { x with player := Function.update x.player player p }

/-- The player takes over the callback of the engine, if there is one. -/
def chainPlayer (player : ℕ) (x : Rest) : Rest :=
  if x.func ≠ 0 then
    { setPlayer player { x.player player with func := x.func, intp := x.intp } x with func := 0 }
  else x

/-- `MPlayOpen` behind its lock. -/
def mPlayOpen (player tracks count : ℕ) : List Micro :=
  [.edit (setPlayer player ⟨0,tracks,count,0x80000000,0,0⟩),
    .edit fun x => { x with trackFlags :=
      fun t => if tracks ≤ t ∧ t < tracks+count then 0 else x.trackFlags t },
    .edit (chainPlayer player),
    .edit fun x => { x with intp := player, func := e.routine 0 },
    .release,
    .edit fun x => setPlayer player { x.player player with ident := idNumber } x]

/-- The registers that `MPlayExtender` writes before it looks at the lock. -/
def extenderRegs (x : Rest) : Rest :=
  [(Reg.soundcntX,(0x8F : Word)),(.soundcntL,0),(.nr12,8),(.nr22,8),(.nr42,8),(.nr14,0x80),
    (.nr24,0x80),(.nr44,0x80),(.nr30,0),(.nr50,0x77)].foldl (fun x p => setReg p.1 p.2 x) x

/-- `MPlayExtender` behind its lock. -/
def mPlayExtender (cgbChans : ℕ) : List Micro :=
  [.edit fun x => { x with jumpTable :=
      fun n => if n ∈ [8,17,19,28,29,30,31,32,33] then e.routine n else x.jumpTable n },
    .edit fun x => { x with cgbChans := cgbChans, callbacks := .cgb, maxLines := e.maxLines },
    .edit fun x => { x with cgbSf := fun _ => 0, cgbPanMask := fun i => 0x11 <<< (i : ℕ) },
    .release]

/-- Calls of the library. -/
inductive LockCall
  | soundMode (mode : Word)
  | soundClear
  | mPlayOpen (player tracks : ℕ) (trackCount : Byte)
  | mPlayExtender (cgbChans : ℕ)
  | soundMain
  | vSyncOff
  | vSyncOn
deriving DecidableEq

/-- The engine and what the call that runs still has to do. -/
structure Config where
  sound : Sound
  pending : List Micro

/-- A routine that only runs when it gets the lock. -/
def locking (s : Sound) (body : List Micro) : Config :=
  if s.ident ≠ idNumber then ⟨s,[]⟩ else ⟨{ s with ident := s.ident+1 },body⟩

/-- A call starts. -/
def start (s : Sound) : LockCall → Config
  | .soundMode mode => locking s (soundMode e mode)
  | .soundClear => locking s soundClear
  | .mPlayOpen player tracks trackCount =>
    if trackCount = 0 then ⟨s,[]⟩ else locking s (mPlayOpen e player tracks (min trackCount.toNat 16))
  | .mPlayExtender cgbChans =>
    locking { s with rest := extenderRegs s.rest } (mPlayExtender e cgbChans)
  | .soundMain => locking s [.edit e.mix,.release]
  | .vSyncOff => ⟨m4aSoundVSyncOff s,[]⟩
  | .vSyncOn => ⟨m4aSoundVSyncOn s,[]⟩

/-- A call is made when no other is under way; the running call moves on by a step; an interrupt
handler calls `m4aSoundVSyncOff` while a call is under way. -/
inductive LockEvent
  | call (c : LockCall)
  | tick
  | interruptOff

def lockStep (c : Config) : LockEvent → Config
  | .call k => if c.pending = [] then start e c.sound k else c
  | .tick =>
    match c.pending with
    | [] => c
    | m::rest => ⟨m.exec c.sound,rest⟩
  | .interruptOff =>
    match c.pending with
    | [] => c
    | m::rest => ⟨m4aSoundVSyncOff c.sound,m::rest⟩

/-- `SoundInit`, as far as the model goes. -/
def soundInit (x : Rest) : Sound :=
  let x := setReg .soundbiasH ((x.reg .soundbiasH &&& 0x3F) ||| 0x40) (setReg .soundcntX 0x8F x)
  let cleared : Rest := { x with
    pcmDmaCounter := 0, reverb := 0, freq := 0, pcmDmaPeriod := 0, maxLines := 0,
    pcmSamplesPerVBlank := 0, pcmFreq := 0, divFreq := 0, cgbChans := 0, func := 0, intp := 0,
    chanStatus := fun _ => 0, pcmBuffer := fun _ => 0, maxChans := 8, masterVolume := 15,
    callbacks := .dummy, jumpTable := e.routine, dma1cnt := stopDma x.dma1cnt,
    dma2cnt := stopDma x.dma2cnt }
  let s := (sampleFreqSet e 0x40000).foldl Micro.exec ⟨0,false,cleared⟩
  { s with ident := idNumber }

end Pieces

section Lock
variable {e : Engine} {s : Sound} {c : Config} {b : Bool} {l : List Micro}

def Micro.isEdit : Micro → Bool
  | .edit _ => true
  | _ => false

/-- What a routine that holds the lock can still have before it; `b` tells whether the output is
off at this point. -/
def Holding : Bool → List Micro → Prop
  | _, [] => False
  | b, .edit _::l => Holding b l
  | _, .vSyncOff::l => Holding true l
  | b, .vSyncOn::l => b = true ∧ Holding false l
  | b, .release::l => b = false ∧ l.all Micro.isEdit = true

/-- The word while the lock is held. -/
def heldIdent (b : Bool) : Word := if b then idNumber+11 else idNumber+1

/-- The word while it is not. -/
def freeIdent (b : Bool) : Word := if b then idNumber+10 else idNumber

/-- The lock word fits what is under way. -/
def Fits (c : Config) : Prop :=
  (c.pending.all Micro.isEdit = true ∧ c.sound.ident = freeIdent c.sound.off) ∨
    (Holding c.sound.off c.pending ∧ c.sound.ident = heldIdent c.sound.off)

theorem holding_soundMode (e : Engine) (mode : Word) : Holding false (soundMode e mode) := by
  unfold soundMode
  dsimp only
  split_ifs <;> simp [Holding,sampleFreqSet]

theorem holding_soundClear : Holding false soundClear := by simp [Holding,soundClear]

theorem holding_mPlayOpen (e : Engine) (player tracks count : ℕ) :
    Holding false (mPlayOpen e player tracks count) := by
  simp [Holding,mPlayOpen,Micro.isEdit]

theorem holding_mPlayExtender (e : Engine) (cgbChans : ℕ) :
    Holding false (mPlayExtender e cgbChans) := by
  simp [Holding,mPlayExtender]

/-- Turning the output off goes unnoticed as long as the routine turns it on again. -/
theorem Holding.turnOff (h : Holding false l) (hon : l.any Micro.isOn = true) : Holding true l := by
  induction l with
  | nil => exact h
  | cons m l ih =>
    cases m with
    | edit f => exact ih h (by simpa [Micro.isOn] using hon)
    | vSyncOff => exact h
    | vSyncOn => exact absurd h.1 (by decide)
    | release =>
      have hnone : ∀ l : List Micro, l.all Micro.isEdit = true → l.any Micro.isOn = false := by
        intro l hl
        rw [List.any_eq_false]
        intro m hm
        have hedit := List.all_eq_true.mp hl m hm
        cases m <;> simp_all [Micro.isEdit,Micro.isOn]
      have hl := hnone l h.2
      simp [Micro.isOn,hl] at hon

theorem vSyncOff_free (h : s.ident = freeIdent s.off) :
    (m4aSoundVSyncOff s).ident = freeIdent true ∧ (m4aSoundVSyncOff s).off = true := by
  cases hoff : s.off <;> simp [m4aSoundVSyncOff,h,hoff,freeIdent,idNumber]

theorem vSyncOff_held (h : s.ident = heldIdent s.off) :
    (m4aSoundVSyncOff s).ident = heldIdent true ∧ (m4aSoundVSyncOff s).off = true := by
  cases hoff : s.off <;> simp [m4aSoundVSyncOff,h,hoff,heldIdent,idNumber]

theorem vSyncOn_free (h : s.ident = freeIdent s.off) :
    (m4aSoundVSyncOn s).ident = freeIdent false ∧ (m4aSoundVSyncOn s).off = false := by
  cases hoff : s.off <;> simp [m4aSoundVSyncOn,h,hoff,freeIdent,idNumber]

theorem vSyncOn_held (h : s.ident = heldIdent true) :
    (m4aSoundVSyncOn s).ident = heldIdent false ∧ (m4aSoundVSyncOn s).off = false := by
  simp [m4aSoundVSyncOn,h,heldIdent,idNumber]

theorem freeIdent_eq_idNumber (h : s.ident = freeIdent s.off) (hid : s.ident = idNumber) :
    s.off = false := by
  cases hoff : s.off with
  | false => rfl
  | true =>
    rw [h,hoff] at hid
    exact absurd hid (by decide)

theorem fits_locking (h : s.ident = freeIdent s.off) {body : List Micro}
    (hbody : Holding false body) : Fits (locking s body) := by
  unfold locking
  split_ifs with hid
  · exact .inl ⟨rfl,h⟩
  · have hid' : s.ident = idNumber := by simpa using hid
    have hoff := freeIdent_eq_idNumber h hid'
    refine .inr ⟨?_,?_⟩
    · show Holding s.off body
      rw [hoff]
      exact hbody
    · show s.ident+1 = heldIdent s.off
      rw [hoff,hid']
      rfl

theorem fits_start (e : Engine) (k : LockCall) (h : s.ident = freeIdent s.off) :
    Fits (start e s k) := by
  cases k with
  | soundMode mode => exact fits_locking h (holding_soundMode e mode)
  | soundClear => exact fits_locking h holding_soundClear
  | mPlayOpen player tracks trackCount =>
    unfold start
    dsimp only
    split_ifs
    · exact .inl ⟨rfl,h⟩
    · exact fits_locking h (holding_mPlayOpen e player tracks _)
  | mPlayExtender cgbChans =>
    exact @fits_locking { s with rest := extenderRegs s.rest } h _ (holding_mPlayExtender e cgbChans)
  | soundMain => exact fits_locking h (by simp [Holding])
  | vSyncOff =>
    have hoff := vSyncOff_free h
    refine .inl ⟨rfl,?_⟩
    show (m4aSoundVSyncOff s).ident = freeIdent (m4aSoundVSyncOff s).off
    rw [hoff.1,hoff.2]
  | vSyncOn =>
    have hon := vSyncOn_free h
    refine .inl ⟨rfl,?_⟩
    show (m4aSoundVSyncOn s).ident = freeIdent (m4aSoundVSyncOn s).off
    rw [hon.1,hon.2]

/-- One step of a routine keeps the word in line with what is left to do. -/
theorem fits_tick (e : Engine) (h : Fits c) : Fits (lockStep e c .tick) := by
  obtain ⟨s,pending⟩ := c
  cases pending with
  | nil => exact h
  | cons m l =>
    obtain ⟨hall,hid⟩ | ⟨hhold,hid⟩ := h
    · have hm := List.all_cons.symm.trans hall
      simp only [Bool.and_eq_true] at hm
      cases m with
      | edit f => exact .inl ⟨hm.2,hid⟩
      | vSyncOff => exact absurd hm.1 (by simp [Micro.isEdit])
      | vSyncOn => exact absurd hm.1 (by simp [Micro.isEdit])
      | release => exact absurd hm.1 (by simp [Micro.isEdit])
    · cases m with
      | edit f => exact .inr ⟨hhold,hid⟩
      | vSyncOff =>
        have hoff := vSyncOff_held hid
        refine .inr ⟨?_,?_⟩
        · show Holding (m4aSoundVSyncOff s).off l
          rw [hoff.2]
          exact hhold
        · show (m4aSoundVSyncOff s).ident = heldIdent (m4aSoundVSyncOff s).off
          rw [hoff.1,hoff.2]
      | vSyncOn =>
        have htrue : s.off = true := hhold.1
        have hon : (m4aSoundVSyncOn s).ident = heldIdent false ∧ (m4aSoundVSyncOn s).off = false :=
          vSyncOn_held (by rw [← htrue]; exact hid)
        refine .inr ⟨?_,?_⟩
        · show Holding (m4aSoundVSyncOn s).off l
          rw [hon.2]
          exact hhold.2
        · show (m4aSoundVSyncOn s).ident = heldIdent (m4aSoundVSyncOn s).off
          rw [hon.1,hon.2]
      | release =>
        have hfalse : s.off = false := hhold.1
        refine .inl ⟨hhold.2,?_⟩
        show idNumber = freeIdent s.off
        rw [hfalse]
        rfl

/-- Where an event does what the lock is meant to bear: an interrupt only turns the output off
under a routine that is going to turn it on again, and `MPlayExtender` is only called while the
lock is free and the output on. -/
def Orderly (c : Config) : LockEvent → Prop
  | .interruptOff => c.sound.ident = idNumber+1 → c.pending.any Micro.isOn = true
  | .call (.mPlayExtender _) => c.sound.ident = idNumber
  | _ => True

theorem fits_interrupt (e : Engine) (h : Fits c) (hok : Orderly c .interruptOff) :
    Fits (lockStep e c .interruptOff) := by
  obtain ⟨s,pending⟩ := c
  cases pending with
  | nil => exact h
  | cons m l =>
    obtain ⟨hall,hid⟩ | ⟨hhold,hid⟩ := h
    · have hoff := vSyncOff_free hid
      refine .inl ⟨hall,?_⟩
      show (m4aSoundVSyncOff s).ident = freeIdent (m4aSoundVSyncOff s).off
      rw [hoff.1,hoff.2]
    · have hoff := vSyncOff_held hid
      have htrue : Holding true (m::l) := by
        cases hs : s.off with
        | true => exact hs ▸ hhold
        | false =>
          have hlock : s.ident = idNumber+1 := by
            have hheld : s.ident = heldIdent s.off := hid
            rw [hheld,hs]
            rfl
          exact (hs ▸ hhold : Holding false (m::l)).turnOff (hok hlock)
      refine .inr ⟨?_,?_⟩
      · show Holding (m4aSoundVSyncOff s).off (m::l)
        rw [hoff.2]
        exact htrue
      · show (m4aSoundVSyncOff s).ident = heldIdent (m4aSoundVSyncOff s).off
        rw [hoff.1,hoff.2]

theorem fits_step (e : Engine) (c : Config) (ev : LockEvent) (h : Fits c) (hok : Orderly c ev) :
    Fits (lockStep e c ev) := by
  cases ev with
  | tick => exact fits_tick e h
  | interruptOff => exact fits_interrupt e h hok
  | call k =>
    unfold lockStep
    dsimp only
    split_ifs with hp
    · obtain ⟨-,hid⟩ | ⟨hhold,-⟩ := h
      · exact fits_start e k hid
      · rw [hp] at hhold
        exact hhold.elim
    · exact h

/-- A call made while the lock is taken or the output is off changes nothing. -/
theorem start_refused (e : Engine) (k : LockCall) (hon : k ≠ .vSyncOn)
    (hext : ∀ n, k ≠ .mPlayExtender n) (hid : s.ident ≠ idNumber)
    (hoff : k = .vSyncOff → s.ident ≠ idNumber+1) : start e s k = ⟨s,[]⟩ := by
  cases k with
  | soundMode mode => exact if_pos hid
  | soundClear => exact if_pos hid
  | mPlayOpen player tracks trackCount =>
    unfold start
    dsimp only
    split_ifs
    · rfl
    · exact if_pos hid
  | mPlayExtender n => exact absurd rfl (hext n)
  | soundMain => exact if_pos hid
  | vSyncOff =>
    have hne := hoff rfl
    have hrange : ¬ (idNumber ≤ s.ident ∧ s.ident ≤ idNumber+1) := by
      rintro ⟨hlo,hhi⟩
      have hlo' : idNumber.toNat ≤ s.ident.toNat := hlo
      have hhi' : s.ident.toNat ≤ (idNumber+1).toNat := hhi
      have h0 : idNumber.toNat = 0x68736D53 := rfl
      have h1 : (idNumber+1).toNat = 0x68736D54 := rfl
      have hcases : s.ident.toNat = 0x68736D53 ∨ s.ident.toNat = 0x68736D54 := by omega
      obtain hc | hc := hcases
      · exact hid (BitVec.eq_of_toNat_eq (hc.trans h0.symm))
      · exact hne (BitVec.eq_of_toNat_eq (hc.trans h1.symm))
    show Config.mk (m4aSoundVSyncOff s) [] = ⟨s,[]⟩
    rw [m4aSoundVSyncOff,if_neg hrange]
  | vSyncOn => exact absurd rfl hon

instance (c : Config) : (ev : LockEvent) → Decidable (Orderly c ev)
  | .interruptOff =>
    inferInstanceAs (Decidable (c.sound.ident = idNumber+1 → c.pending.any Micro.isOn = true))
  | .call (.mPlayExtender _) => inferInstanceAs (Decidable (c.sound.ident = idNumber))
  | .call (.soundMode _) => .isTrue trivial
  | .call .soundClear => .isTrue trivial
  | .call (.mPlayOpen _ _ _) => .isTrue trivial
  | .call .soundMain => .isTrue trivial
  | .call .vSyncOff => .isTrue trivial
  | .call .vSyncOn => .isTrue trivial
  | .tick => .isTrue trivial

theorem fits_soundInit (e : Engine) (x : Rest) : Fits ⟨soundInit e x,[]⟩ := .inl ⟨rfl,rfl⟩

/-- What the lock word promises in a state of a run. -/
structure LockKept (e : Engine) (c : Config) : Prop where
  ident : c.pending = [] → c.sound.ident = if c.sound.off then idNumber+10 else idNumber
  refused : c.pending = [] → ∀ k, Orderly c (.call k) → k ≠ .vSyncOn → c.sound.ident ≠ idNumber →
    (k = .vSyncOff → c.sound.ident ≠ idNumber+1) → lockStep e c (.call k) = c
  interrupt : c.sound.ident ≠ idNumber → c.sound.ident ≠ idNumber+1 →
    lockStep e c .interruptOff = c
  twiceOff : c.pending = [] →
    (m4aSoundVSyncOff (m4aSoundVSyncOff c.sound)).ident = (m4aSoundVSyncOff c.sound).ident
  twiceOn : c.pending = [] →
    (m4aSoundVSyncOn (m4aSoundVSyncOn c.sound)).ident = (m4aSoundVSyncOn c.sound).ident

theorem Fits.free (h : Fits c) (hp : c.pending = []) : c.sound.ident = freeIdent c.sound.off := by
  obtain ⟨-,hid⟩ | ⟨hhold,-⟩ := h
  · exact hid
  · rw [hp] at hhold
    exact hhold.elim

theorem lockKept_of_fits (e : Engine) (h : Fits c) : LockKept e c where
  ident hp := h.free hp
  refused hp k hok hon hid hoff := by
    have hext : ∀ n, k ≠ .mPlayExtender n := by
      rintro n rfl
      exact hid hok
    have hstart := start_refused e k hon hext hid hoff
    unfold lockStep
    dsimp only
    rw [if_pos hp,hstart,← hp]
  interrupt hid hlock := by
    have hstart := start_refused (s := c.sound) e .vSyncOff (by decide) (by simp) hid fun _ => hlock
    have hsame : m4aSoundVSyncOff c.sound = c.sound := congrArg Config.sound hstart
    unfold lockStep
    obtain ⟨s,pending⟩ := c
    cases pending with
    | nil => rfl
    | cons m l =>
      dsimp only at hsame ⊢
      rw [hsame]
  twiceOff hp := by
    have hoff := vSyncOff_free (h.free hp)
    have htwice := vSyncOff_free (s := m4aSoundVSyncOff c.sound) (by rw [hoff.1,hoff.2])
    rw [htwice.1,hoff.1]
  twiceOn hp := by
    have hon := vSyncOn_free (h.free hp)
    have htwice := vSyncOn_free (s := m4aSoundVSyncOn c.sound) (by rw [hon.1,hon.2])
    rw [htwice.1,hon.1]

/-- From `SoundInit` on, in every orderly run, the lock word keeps what it promises. -/
theorem sound_lock (e : Engine) (x : Rest) (evs : List LockEvent)
    (h : Runs.Along (lockStep e) Orderly ⟨soundInit e x,[]⟩ evs) :
    LockKept e (Runs.run (lockStep e) ⟨soundInit e x,[]⟩ evs) :=
  lockKept_of_fits e (Runs.Along.invariant (fits_step e) (fits_soundInit e x) h)

/-- An engine and a memory with nothing in them. -/
def idleEngine : Engine := ⟨fun _ => 1,fun _ => 1,0,fun x => x⟩

def blankRest : Rest where
  pcmDmaCounter := 0
  reverb := 0
  maxChans := 0
  masterVolume := 0
  freq := 0
  pcmDmaPeriod := 0
  maxLines := 0
  pcmSamplesPerVBlank := 0
  pcmFreq := 0
  divFreq := 0
  cgbChans := 0
  func := 0
  intp := 0
  callbacks := .dummy
  chanStatus _ := 0
  cgbSf _ := 0
  cgbPanMask _ := 0
  pcmBuffer _ := 0
  jumpTable _ := 0
  trackFlags _ := 0
  player _ := ⟨0,0,0,0,0,0⟩
  dma1cnt := 0
  dma2cnt := 0
  reg _ := 0

/-- `SoundClear`, interrupted by `m4aSoundVSyncOff`: the output is off, and the word says it is
on. -/
theorem interrupted_soundClear :
    ¬ ∀ (e : Engine) (x : Rest) (evs : List LockEvent),
      LockKept e (Runs.run (lockStep e) ⟨soundInit e x,[]⟩ evs) := by
  intro hall
  have hkept := (hall idleEngine blankRest
    [.call .soundClear,.tick,.interruptOff,.tick,.tick]).ident rfl
  exact absurd hkept (by decide)

/-- `m4aSoundMode` with a new frequency, interrupted at its first step, and then the output turned
off and off again. -/
theorem sound_lock_interruptedMode :
    (Runs.run (lockStep idleEngine) ⟨soundInit idleEngine blankRest,[]⟩
      ([.call (.soundMode 0x40000),.interruptOff] ++ List.replicate 9 .tick ++
        [.call .vSyncOff,.call .soundClear,.call .vSyncOff])).sound.ident = idNumber+10 :=
  (sound_lock idleEngine blankRest
    ([.call (.soundMode 0x40000),.interruptOff] ++ List.replicate 9 .tick ++
      [.call .vSyncOff,.call .soundClear,.call .vSyncOff]) (by decide +kernel)).ident rfl

end Lock

end M4a
end AgbTools
