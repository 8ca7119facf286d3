import Mathlib.Tactic.Ring
import Mathlib.Tactic.Linarith
import AgbTools.M4aLock

/-! The Game Boy channels of the sound engine: the envelope machine of `CgbSound`, the goals that
`CgbModVol` derives from the stored volumes, and the volumes that `ChnVolSetAsm` stores. -/
namespace AgbTools
namespace M4a
namespace Cgb

/-- The four oscillators, in the order in which `CgbSound` visits them. -/
inductive Osc
  | one | two | three | four
deriving DecidableEq, Repr

structure CgbChannel where
  sf : Byte
  ty : Byte
  rightVolume : Byte
  leftVolume : Byte
  att : Byte
  de : Byte
  su : Byte
  re : Byte
  ky : Byte
  ev : Byte
  eg : Byte
  ec : Byte
  echoVolume : Byte
  echoLength : Byte
  gt : Byte
  midiKey : Byte
  ve : Byte
  pr : Byte
  rp : Byte
  sg : Byte
  n4 : Byte
  pan : Byte
  panMask : Byte
  mo : Byte
  le : Byte
  sw : Byte
  fr : Word
  wp : Word
  cp : Word

/-- A use of the envelope volume: as an index into `gCgb3Vol`, or in the byte written to the
volume register of another oscillator. -/
inductive VolumeUse
  | index (ev : Byte)
  | nibble (ev value : Byte)
deriving DecidableEq, Repr

/-- The registers `NRx0` to `NRx4`, `NR51`, the wave memory, the high byte of `SOUNDBIAS`, and
a record of how the envelope volumes were used. -/
structure Oscillators where
  nr : Osc → Fin 5 → Byte
  nr51 : Byte
  waveRam : Fin 4 → Word
  soundBias : Byte
  uses : List VolumeUse

structure State where
  c15 : Byte
  mode : Byte
  chan : Osc → CgbChannel
  hw : Oscillators

/-- The memory that is read: the wave data of a note, and what lies behind `gCgb3Vol`. -/
structure CgbRom where
  wave : Word → Fin 4 → Word
  behindTable : ℕ → Byte

def gCgb3Vol : List Byte :=
  [0x00,0x00,0x60,0x60,0x60,0x60,0x40,0x40,0x40,0x40,0x80,0x80,0x80,0x80,0x20,0x20]

section Volumes

/-- The fields of a track that its volumes are computed from. -/
structure TrackVolume where
  vol : Byte
  volX : Byte
  modT : Byte
  modM : Byte
  pan : Byte
  panX : Byte
  vol_le : vol ≤ 127

/-- The volume half of `TrkVolPitSet`. -/
def TrackVolume.level (t : TrackVolume) : Word :=
  let x : Word := (t.vol.zeroExtend 32*t.volX.zeroExtend 32) >>> 5
  if t.modT = 1 then (x*(t.modM.signExtend 32+128)) >>> 7 else x

def TrackVolume.side (t : TrackVolume) : ℤ :=
  let y := 2*t.pan.toInt+t.panX.toInt+(if t.modT = 2 then t.modM.toInt else 0)
  if y < -128 then -128 else if y > 127 then 127 else y

def TrackVolume.volMR (t : TrackVolume) : Byte :=
  ((BitVec.ofInt 32 (t.side+128)*t.level) >>> 8).truncate 8

def TrackVolume.volML (t : TrackVolume) : Byte :=
  ((BitVec.ofInt 32 (127-t.side)*t.level) >>> 8).truncate 8

/-- A product of at most 255 in the unsigned comparison is kept, any other becomes 255. -/
def clipVolume (x : ℤ) : Byte := if 0 ≤ x ∧ x ≤ 255 then BitVec.ofInt 8 x else 255

def chnVolSetAsm (t : TrackVolume) (c : CgbChannel) : CgbChannel :=
  { c with
    rightVolume := clipVolume ((128+c.rp.toInt)*c.ve.toNat*t.volMR.toNat / 2^14)
    leftVolume := clipVolume ((127-c.rp.toInt)*c.ve.toNat*t.volML.toNat / 2^14) }

/-- The pan that `CgbPan` chooses when one volume is at least twice the other. -/
def cgbPan (c : CgbChannel) : Option Byte :=
  if c.leftVolume ≤ c.rightVolume then
    if c.leftVolume.toNat ≤ c.rightVolume.toNat / 2 then some 0x0F else none
  else
    if c.rightVolume.toNat ≤ c.leftVolume.toNat / 2 then some 0xF0 else none

def cgbGoal (c : CgbChannel) : ℕ := (c.rightVolume.toNat+c.leftVolume.toNat) / 16

/-- The pan and the envelope goal; only the branch for one side limits the goal. -/
def cgbPanGoal (mode : Byte) (c : CgbChannel) : Byte × Byte :=
  if mode &&& 1 ≠ 0 then (0xFF,BitVec.ofNat 8 (cgbGoal c))
  else
    match cgbPan c with
    | none => (0xFF,BitVec.ofNat 8 (cgbGoal c))
    | some pan => (pan,if 15 < cgbGoal c then 15 else BitVec.ofNat 8 (cgbGoal c))

def cgbModVol (mode : Byte) (c : CgbChannel) : CgbChannel :=
  let p := cgbPanGoal mode c
  { c with
    eg := p.2
    sg := BitVec.ofNat 8 ((p.2.toNat*c.su.toNat+15) / 16)
    pan := p.1 &&& c.panMask }

end Volumes

section Registers

def Oscillators.set (hw : Oscillators) (n : Osc) (k : Fin 5) (v : Byte) : Oscillators :=
  { hw with nr := Function.update hw.nr n (Function.update (hw.nr n) k v) }

def cgbOscOff (n : Osc) (hw : Oscillators) : Oscillators :=
  match n with
  | .three => hw.set .three 0 0
  | n => (hw.set n 2 8).set n 4 0x80

end Registers

/-- A channel while `CgbSound` works on it; `r8` is the low part of the volume register. -/
structure Voice where
  chan : CgbChannel
  hw : Oscillators
  r8 : Byte

/-- Where the envelope code goes on: to the countdown, to the register writes, or to the end of
the note. -/
inductive Goto
  | count | write | off
deriving DecidableEq, Repr

section Envelope

variable (n : Osc) (v : Voice)

/-- The oscillators other than the wave channel take a new envelope step. -/
def Voice.step (n : Osc) (r8 : Byte) (v : Voice) : Voice :=
  if n = .three then v else { v with r8 := r8 }

def echoStart : Goto × Voice :=
  let ev := BitVec.ofNat 8 ((v.chan.echoVolume.toNat*v.chan.eg.toNat+255) / 256)
  let c := { v.chan with ev := ev }
  if ev = 0 then (.off,{ v with chan := c })
  else
    let c := { c with sf := c.sf ||| 4, mo := c.mo ||| 1 }
    (.write,{ v with chan := c }.step n 8)

def toSustain : Goto × Voice :=
  let c := v.chan
  if c.su = 0 then echoStart n { v with chan := { c with sf := c.sf &&& 0xFC } }
  else
    let c := { c with sf := c.sf-1, mo := c.mo ||| 1, ev := c.sg, ec := 7 }
    (.count,{ v with chan := c }.step n 8)

def decayStart : Goto × Voice :=
  let c := { v.chan with sf := v.chan.sf-1, ec := v.chan.de }
  if c.de = 0 then toSustain n { v with chan := c }
  else
    let c := { c with mo := c.mo ||| 1, ev := c.eg }
    (.count,{ v with chan := c }.step n c.de)

/-- One step of the envelope, when its counter has run out. -/
def envelopeStep (mode : Byte) : Goto × Voice :=
  let c := v.chan
  let c := if n = .three then { c with mo := c.mo ||| 1 } else c
  let c := cgbModVol mode c
  if c.sf &&& 3 = 0 then
    let c := { c with ev := c.ev-1 }
    if 0 < c.ev.toInt then (.count,{ v with chan := { c with ec := c.re } })
    else echoStart n { v with chan := c }
  else if c.sf &&& 3 = 1 then (.count,{ v with chan := { c with ev := c.sg, ec := 7 } })
  else if c.sf &&& 3 = 2 then
    let c := { c with ev := c.ev-1 }
    if c.sg.toInt < c.ev.toInt then (.count,{ v with chan := { c with ec := c.de } })
    else toSustain n { v with chan := c }
  else
    let c := { c with ev := c.ev+1 }
    if c.ev < c.eg then (.count,{ v with chan := { c with ec := c.att } })
    else decayStart n { v with chan := c }

/-- The label where the envelope is continued: a step if the counter is at zero. -/
def envelope (mode : Byte) : Goto × Voice :=
  if v.chan.ec ≠ 0 then (.count,v) else envelopeStep n v mode

def countDown : Voice := { v with chan := { v.chan with ec := v.chan.ec-1 } }

/-- The countdown; in every fifteenth frame the envelope is continued a second time. -/
def counted (mode : Byte) (twice : Bool) : Goto × Voice → Goto × Voice
  | (.count,v) =>
    if twice then
      match envelope n (countDown v) mode with
      | (.count,v) => (.write,countDown v)
      | r => r
    else (.write,countDown v)
  | r => r

/-- The registers of a note that begins; `r8` and `n4` follow from attack and length. -/
def startRegisters (rom : CgbRom) : Voice :=
  let c := v.chan
  let plain (hw : Oscillators) : Voice :=
    { chan := { c with n4 := if c.le ≠ 0 then 0x40 else 0 }, hw := hw, r8 := c.att+8 }
  match n with
  | .one => plain ((v.hw.set .one 0 c.sw).set .one 1 ((c.wp <<< 6).truncate 8+c.le))
  | .two => plain (v.hw.set .two 1 ((c.wp <<< 6).truncate 8+c.le))
  | .three =>
    let hw := if c.wp ≠ c.cp then { v.hw.set .three 0 0x40 with waveRam := rom.wave c.wp } else v.hw
    { v with
      chan := { c with cp := c.wp, n4 := if c.le ≠ 0 then 0xC0 else 0x80 }
      hw := (hw.set .three 0 0).set .three 1 c.le }
  | .four => plain ((v.hw.set .four 1 c.le).set .four 3 ((c.wp <<< 3).truncate 8))

def startNote (rom : CgbRom) (mode : Byte) : Goto × Voice :=
  let c := cgbModVol mode { v.chan with sf := 3, mo := 3 }
  let v := startRegisters n { v with chan := c } rom
  let v := { v with chan := { v.chan with ec := v.chan.att } }
  if v.chan.ec = 0 then decayStart n v else (.count,{ v with chan := { v.chan with ev := 0 } })

def startRelease : Goto × Voice :=
  let c := { v.chan with sf := v.chan.sf &&& 0xFC, ec := v.chan.re }
  if c.ec = 0 then echoStart n { v with chan := c }
  else (.count,{ v with chan := { c with mo := c.mo ||| 1 } }.step n c.re)

/-- The part of `CgbSound` up to the first countdown. -/
def enter (rom : CgbRom) (mode : Byte) : Goto × Voice :=
  let c := v.chan
  if c.sf &&& 0x80 ≠ 0 then
    if c.sf &&& 0x40 ≠ 0 then (.off,v) else startNote n v rom mode
  else if c.sf &&& 4 ≠ 0 then
    let c := { c with echoLength := c.echoLength-1 }
    (if 0 < c.echoLength.toInt then .write else .off,{ v with chan := c })
  else if c.sf &&& 0x40 ≠ 0 ∧ c.sf &&& 3 ≠ 0 then startRelease n v
  else envelope n v mode

end Envelope

section Writes

variable (n : Osc)

/-- The pitch registers of a channel whose frequency changed. -/
def writePitch (v : Voice) : Voice :=
  let c := v.chan
  let fr : Word :=
    if n ≠ .four ∧ c.ty &&& 8 ≠ 0 then
      if v.hw.soundBias ≤ 0x3F then (c.fr+2) &&& 0x7FC
      else if v.hw.soundBias ≤ 0x7F then (c.fr+1) &&& 0x7FE
      else c.fr
    else c.fr
  let low : Byte := if n = .four then fr.truncate 8 ||| (v.hw.nr .four 3 &&& 8) else fr.truncate 8
  let n4 := (c.n4 &&& 0xC0)+(fr >>> 8).truncate 8
  { v with chan := { c with fr := fr, n4 := n4 }, hw := (v.hw.set n 3 low).set n 4 n4 }

def cgb3Vol (rom : CgbRom) (ev : Byte) : Byte :=
  (gCgb3Vol[ev.toNat]?).getD (rom.behindTable ev.toNat)

/-- The volume registers: the wave channel looks its volume up, the others shift it. -/
def writeVolume (rom : CgbRom) (v : Voice) : Voice :=
  let c := v.chan
  let hw := { v.hw with nr51 := (v.hw.nr51 &&& ~~~c.panMask) ||| c.pan }
  if n = .three then
    let hw := { hw.set .three 2 (cgb3Vol rom c.ev) with uses := .index c.ev::hw.uses }
    if c.n4 &&& 0x80 ≠ 0 then
      { v with chan := { c with n4 := c.n4 &&& 0x7F }, hw := (hw.set .three 0 0x80).set .three 4 c.n4 }
    else { v with hw := hw }
  else
    let value := (c.ev <<< 4)+(v.r8 &&& 0xF)
    let hw := { hw.set n 2 value with uses := .nibble c.ev value::hw.uses }
    let hw := hw.set n 4 (c.n4 ||| 0x80)
    -- the first oscillator is triggered again unless its sweep goes down
    { v with hw := if n = .one ∧ hw.nr .one 0 &&& 8 = 0 then hw.set .one 4 (c.n4 ||| 0x80) else hw }

def writeRegisters (rom : CgbRom) (v : Voice) : Voice :=
  let v := if v.chan.mo &&& 2 ≠ 0 then writePitch n v else v
  if v.chan.mo &&& 1 ≠ 0 then writeVolume n rom v else v

/-- The end of the loop body of `CgbSound`. -/
def finish (rom : CgbRom) : Goto × Voice → CgbChannel × Oscillators
  | (.off,v) => ({ v.chan with sf := 0, mo := 0 },cgbOscOff n v.hw)
  | (_,v) =>
    let v := writeRegisters n rom v
    ({ v.chan with mo := 0 },v.hw)

end Writes

def CgbChannel.Active (c : CgbChannel) : Prop := c.sf &&& 0xC7 ≠ 0

instance (c : CgbChannel) : Decidable c.Active := inferInstanceAs (Decidable (_ ≠ _))

/-- The loop body of `CgbSound` for one channel. -/
def cgbSoundChannel (rom : CgbRom) (s : State) (n : Osc) : State :=
  if (s.chan n).Active then
    let v : Voice := { chan := s.chan n, hw := s.hw, r8 := s.hw.nr n 2 }
    let r := finish n rom (counted n s.mode (s.c15 = 0) (enter n v rom s.mode))
    { s with chan := Function.update s.chan n r.1, hw := r.2 }
  else s

def cgbFrame (s : State) : State := { s with c15 := if s.c15 = 0 then 14 else s.c15-1 }

def cgbSound (rom : CgbRom) (s : State) : State :=
  [Osc.one,.two,.three,.four].foldl (cgbSoundChannel rom) (cgbFrame s)

/-- What `ply_note` stores in a Game Boy channel that it has taken. -/
structure Note where
  gateTime : Byte
  key : Byte
  velocity : Byte
  priority : Byte
  ky : Byte
  rhythmPan : Byte
  type : Byte
  length : Byte
  panSweep : Byte
  wav : Word
  attack : Byte
  decay : Byte
  sustain : Byte
  release : Byte
  echoVolume : Byte
  echoLength : Byte
  freq : Word
  track : TrackVolume
  velocity_le : velocity ≤ 127
  sustain_le : sustain ≤ 15

/-- The part of `ply_note` that fills a Game Boy channel. -/
def plyNoteCgb (x : Note) (c : CgbChannel) : CgbChannel :=
  let c := { c with
    gt := x.gateTime, midiKey := x.key, ve := x.velocity, pr := x.priority, ky := x.ky
    rp := x.rhythmPan, ty := x.type, wp := x.wav, att := x.attack, de := x.decay
    su := x.sustain, re := x.release, echoVolume := x.echoVolume, echoLength := x.echoLength }
  let c := chnVolSetAsm x.track c
  let sw := if x.panSweep &&& 0x80 ≠ 0 ∨ x.panSweep &&& 0x70 = 0 then 8 else x.panSweep
  { c with le := x.length, sw := sw, fr := x.freq, sf := 0x80 }

/-- What the players and the game do to the channels, and the frames of `CgbSound`. -/
inductive CgbEvent
  | note (n : Osc) (x : Note)
  | volume (n : Osc) (t : TrackVolume)
  | pitch (n : Osc) (freq : Word)
  | keyOff (n : Osc)
  | stop (n : Osc)
  | port (n : Osc) (k : Fin 5) (v : Byte)
  | portNr51 (v : Byte)
  | bias (v : Byte)
  | mono (on : Bool)
  | frame

def State.edit (s : State) (n : Osc) (f : CgbChannel → CgbChannel) : State :=
  { s with chan := Function.update s.chan n (f (s.chan n)) }

def cgbStep (rom : CgbRom) (s : State) : CgbEvent → State
  | .note n x => s.edit n (plyNoteCgb x)
  | .volume n t => s.edit n fun c => let c := chnVolSetAsm t c; { c with mo := c.mo ||| 1 }
  | .pitch n freq => s.edit n fun c => { c with fr := freq, mo := c.mo ||| 2 }
  | .keyOff n => s.edit n fun c => { c with sf := c.sf ||| 0x40 }
  | .stop n => { s.edit n fun c => { c with sf := 0 } with hw := cgbOscOff n s.hw }
  | .port n k v => { s with hw := s.hw.set n k v }
  | .portNr51 v => { s with hw := { s.hw with nr51 := v } }
  | .bias v => { s with hw := { s.hw with soundBias := v } }
  | .mono on => { s with mode := if on then s.mode ||| 1 else s.mode &&& ~~~1 }
  | .frame => cgbSound rom s

def emptyChannel (ty panMask : Byte) : CgbChannel :=
  ⟨0,ty,0,0,0,0,0,0,0,0,0,0,0,0,0,0,0,0,0,0,0,0,panMask,0,0,0,0,0,0⟩

/-- The channels as `MPlayExtender` leaves them. -/
def extended : Osc → CgbChannel
  | .one => emptyChannel 1 0x11
  | .two => emptyChannel 2 0x22
  | .three => emptyChannel 3 0x44
  | .four => emptyChannel 4 0x88

/-- The state from which runs begin: cleared channels, any mode and any registers. -/
def State.initial (mode : Byte) (nr : Osc → Fin 5 → Byte) (nr51 bias : Byte) : State :=
  { c15 := 0, mode := mode, chan := extended,
    hw := { nr := nr, nr51 := nr51, waveRam := fun _ => 0, soundBias := bias, uses := [] } }

section Range

/-- The goals of a channel and its sustain level are in the range of the hardware volume. -/
structure Goals (c : CgbChannel) : Prop where
  eg_le : c.eg.toNat ≤ 15
  sg_le : c.sg.toNat ≤ 15
  su_le : c.su.toNat ≤ 15

structure InRange (c : CgbChannel) : Prop extends Goals c where
  ev_le : c.ev.toNat ≤ 15

/-- The goal of `CgbModVol` needs no limit, or is computed in the branch that has one. -/
def Unclipped (mode : Byte) (c : CgbChannel) : Prop :=
  c.rightVolume.toNat+c.leftVolume.toNat ≤ 255 ∨ mode &&& 1 = 0 ∧ cgbPan c ≠ none

instance (mode : Byte) (c : CgbChannel) : Decidable (Unclipped mode c) :=
  inferInstanceAs (Decidable (_ ∨ _))

theorem cgbGoal_lt (c : CgbChannel) : cgbGoal c < 32 := by
  have hr := c.rightVolume.isLt
  have hl := c.leftVolume.isLt
  unfold cgbGoal
  omega

theorem cgbPanGoal_le {mode : Byte} {c : CgbChannel} (h : Unclipped mode c) :
    (cgbPanGoal mode c).2.toNat ≤ 15 := by
  have hlt := cgbGoal_lt c
  have hsmall : c.rightVolume.toNat+c.leftVolume.toNat ≤ 255 → cgbGoal c ≤ 15 := by
    unfold cgbGoal
    omega
  unfold cgbPanGoal
  split
  · rename_i hm
    have hg := hsmall (h.resolve_right fun h' => hm h'.1)
    simp only [BitVec.toNat_ofNat]
    omega
  · split
    · rename_i hp
      have hg := hsmall (h.resolve_right fun h' => h'.2 hp)
      simp only [BitVec.toNat_ofNat]
      omega
    · split
      · simp
      · simp only [BitVec.toNat_ofNat]
        omega

theorem sustainGoal_le {eg su : ℕ} (he : eg ≤ 15) (hs : su ≤ 15) : (eg*su+15) / 16 ≤ 15 := by
  have := Nat.mul_le_mul he hs
  omega

theorem cgbModVol_goals {mode : Byte} {c : CgbChannel} (h : Unclipped mode c)
    (hs : c.su.toNat ≤ 15) : Goals (cgbModVol mode c) := by
  have he := cgbPanGoal_le h
  have hg := sustainGoal_le he hs
  refine ⟨he,?_,hs⟩
  simp only [cgbModVol,BitVec.toNat_ofNat]
  omega

/-- What a piece of the envelope code does to a voice: the channel stays in range, and neither
the stored volumes nor the record of uses change. -/
structure Keeps (v v' : Voice) : Prop where
  inRange : InRange v'.chan
  right : v'.chan.rightVolume = v.chan.rightVolume
  left : v'.chan.leftVolume = v.chan.leftVolume
  uses : v'.hw.uses = v.hw.uses

variable {n : Osc} {v v' v'' : Voice} {mode : Byte}

theorem Unclipped.of_keeps (h : Unclipped mode v.chan) (hk : Keeps v v') :
    Unclipped mode v'.chan := by
  unfold Unclipped cgbPan at h ⊢
  rw [hk.right,hk.left]
  exact h

/-- Only the volumes and the record of the state before matter. -/
theorem Keeps.of_same (h : Keeps v' v'') (hr : v'.chan.rightVolume = v.chan.rightVolume)
    (hl : v'.chan.leftVolume = v.chan.leftVolume) (hu : v'.hw.uses = v.hw.uses) : Keeps v v'' :=
  ⟨h.inRange,h.right.trans hr,h.left.trans hl,h.uses.trans hu⟩

theorem Keeps.trans (h : Keeps v v') (h' : Keeps v' v'') : Keeps v v'' :=
  h'.of_same h.right h.left h.uses

@[simp] theorem step_chan (r8 : Byte) : (v.step n r8).chan = v.chan := by
  unfold Voice.step
  split <;> rfl

@[simp] theorem step_hw (r8 : Byte) : (v.step n r8).hw = v.hw := by
  unfold Voice.step
  split <;> rfl

theorem echoVolume_le {echo eg : ℕ} (he : echo < 256) (hg : eg ≤ 15) :
    (echo*eg+255) / 256 ≤ 15 := by
  have := Nat.mul_le_mul (Nat.le_of_lt_succ he) hg
  omega

theorem echoStart_keeps (h : Goals v.chan) : Keeps v (echoStart n v).2 := by
  have hev : (BitVec.ofNat 8 ((v.chan.echoVolume.toNat*v.chan.eg.toNat+255) / 256)).toNat ≤ 15 := by
    have := echoVolume_le v.chan.echoVolume.isLt h.eg_le
    simp only [BitVec.toNat_ofNat]
    omega
  simp only [echoStart]
  split
  · exact ⟨⟨⟨h.eg_le,h.sg_le,h.su_le⟩,hev⟩,rfl,rfl,rfl⟩
  · constructor
    · simp only [step_chan]
      exact ⟨⟨h.eg_le,h.sg_le,h.su_le⟩,hev⟩
    all_goals simp

theorem toSustain_keeps (h : Goals v.chan) : Keeps v (toSustain n v).2 := by
  simp only [toSustain]
  split
  · have hk := @echoStart_keeps n { v with chan := { v.chan with sf := v.chan.sf &&& 0xFC } }
      ⟨h.eg_le,h.sg_le,h.su_le⟩
    exact hk.of_same rfl rfl rfl
  · constructor
    · simp only [step_chan]
      exact ⟨⟨h.eg_le,h.sg_le,h.su_le⟩,h.sg_le⟩
    all_goals simp

theorem decayStart_keeps (h : Goals v.chan) : Keeps v (decayStart n v).2 := by
  simp only [decayStart]
  split
  · have hk := @toSustain_keeps n
      { v with chan := { v.chan with sf := v.chan.sf-1, ec := v.chan.de } }
      ⟨h.eg_le,h.sg_le,h.su_le⟩
    exact hk.of_same rfl rfl rfl
  · constructor
    · simp only [step_chan]
      exact ⟨⟨h.eg_le,h.sg_le,h.su_le⟩,h.eg_le⟩
    all_goals simp

/-- A byte that is positive after a decrement was not wrapped. -/
theorem toNat_sub_one_le {x : Byte} {y : ℤ} (hx : x.toNat ≤ 15) (hy : 0 ≤ y)
    (h : y < (x-1).toInt) : (x-1).toNat ≤ 15 := by
  rw [BitVec.toInt_eq_toNat_cond] at h
  have := (x-1).isLt
  split at h <;> bv_omega

theorem Goals.sg_nonneg {c : CgbChannel} (h : Goals c) : 0 ≤ c.sg.toInt := by
  have := h.sg_le
  rw [BitVec.toInt_eq_toNat_cond]
  split <;> omega

/-- The channel of an envelope step after its goals are recomputed. -/
def stepChannel (n : Osc) (mode : Byte) (c : CgbChannel) : CgbChannel :=
  cgbModVol mode (if n = .three then { c with mo := c.mo ||| 1 } else c)

theorem stepChannel_goals (h : InRange v.chan) (hu : Unclipped mode v.chan) :
    Goals (stepChannel n mode v.chan) := by
  unfold stepChannel
  split
  · exact cgbModVol_goals hu h.su_le
  · exact cgbModVol_goals hu h.su_le

theorem stepChannel_same (c : CgbChannel) :
    (stepChannel n mode c).ev = c.ev ∧ (stepChannel n mode c).rightVolume = c.rightVolume ∧
    (stepChannel n mode c).leftVolume = c.leftVolume := by
  unfold stepChannel
  split <;> exact ⟨rfl,rfl,rfl⟩

theorem envelopeStep_eq : envelopeStep n v mode =
    let c := stepChannel n mode v.chan
    if c.sf &&& 3 = 0 then
      if 0 < (c.ev-1).toInt then (.count,{ v with chan := { c with ev := c.ev-1, ec := c.re } })
      else echoStart n { v with chan := { c with ev := c.ev-1 } }
    else if c.sf &&& 3 = 1 then (.count,{ v with chan := { c with ev := c.sg, ec := 7 } })
    else if c.sf &&& 3 = 2 then
      if c.sg.toInt < (c.ev-1).toInt then
        (.count,{ v with chan := { c with ev := c.ev-1, ec := c.de } })
      else toSustain n { v with chan := { c with ev := c.ev-1 } }
    else
      if c.ev+1 < c.eg then (.count,{ v with chan := { c with ev := c.ev+1, ec := c.att } })
      else decayStart n { v with chan := { c with ev := c.ev+1 } } := rfl

theorem envelopeStep_keeps (h : InRange v.chan) (hu : Unclipped mode v.chan) :
    Keeps v (envelopeStep n v mode).2 := by
  have hg := @stepChannel_goals n v mode h hu
  obtain ⟨hev,hr,hl⟩ := @stepChannel_same n mode v.chan
  have hle : (stepChannel n mode v.chan).ev.toNat ≤ 15 := by
    rw [hev]
    exact h.ev_le
  rw [envelopeStep_eq]
  generalize stepChannel n mode v.chan = c at *
  dsimp only
  split
  · split
    · rename_i hpos
      exact ⟨⟨⟨hg.eg_le,hg.sg_le,hg.su_le⟩,toNat_sub_one_le hle le_rfl hpos⟩,hr,hl,rfl⟩
    · exact Keeps.of_same (echoStart_keeps ⟨hg.eg_le,hg.sg_le,hg.su_le⟩) hr hl rfl
  · split
    · exact ⟨⟨⟨hg.eg_le,hg.sg_le,hg.su_le⟩,hg.sg_le⟩,hr,hl,rfl⟩
    · split
      · split
        · rename_i hpos
          exact ⟨⟨⟨hg.eg_le,hg.sg_le,hg.su_le⟩,toNat_sub_one_le hle hg.sg_nonneg hpos⟩,hr,hl,rfl⟩
        · exact Keeps.of_same (toSustain_keeps ⟨hg.eg_le,hg.sg_le,hg.su_le⟩) hr hl rfl
      · split
        · rename_i hlt
          have hev' : (c.ev+1).toNat ≤ 15 := (Nat.le_of_lt hlt).trans hg.eg_le
          exact ⟨⟨⟨hg.eg_le,hg.sg_le,hg.su_le⟩,hev'⟩,hr,hl,rfl⟩
        · exact Keeps.of_same (decayStart_keeps ⟨hg.eg_le,hg.sg_le,hg.su_le⟩) hr hl rfl

theorem envelope_keeps (h : InRange v.chan) (hu : v.chan.ec = 0 → Unclipped mode v.chan) :
    Keeps v (envelope n v mode).2 := by
  unfold envelope
  by_cases hec : v.chan.ec = 0
  · simp only [hec,ne_eq,not_true_eq_false,ite_false]
    exact envelopeStep_keeps h (hu hec)
  · simp only [ne_eq,hec,not_false_eq_true,ite_true]
    exact ⟨h,rfl,rfl,rfl⟩

theorem countDown_keeps (h : InRange v.chan) : Keeps v (countDown v) :=
  ⟨⟨⟨h.eg_le,h.sg_le,h.su_le⟩,h.ev_le⟩,rfl,rfl,rfl⟩

theorem counted_keeps {twice : Bool} {r : Goto × Voice} (h : InRange r.2.chan)
    (hu : r.1 = .count → twice = true → r.2.chan.ec = 1 → Unclipped mode r.2.chan) :
    Keeps r.2 (counted n mode twice r).2 := by
  obtain ⟨g,v⟩ := r
  cases g with
  | write => exact ⟨h,rfl,rfl,rfl⟩
  | off => exact ⟨h,rfl,rfl,rfl⟩
  | count =>
    have hd := countDown_keeps h
    cases twice with
    | false => exact hd
    | true =>
      have he : Keeps (countDown v) (envelope n (countDown v) mode).2 := by
        refine envelope_keeps hd.inRange fun hec => ?_
        have hone : v.chan.ec = 1 := by
          have hec' : v.chan.ec-1 = 0 := hec
          bv_omega
        exact (hu rfl rfl hone).of_keeps hd
      simp only [counted,ite_true]
      split
      · rename_i v' heq
        rw [heq] at he
        exact (hd.trans he).trans (countDown_keeps he.inRange)
      · exact hd.trans he

@[simp] theorem set_uses (hw : Oscillators) (k : Fin 5) (x : Byte) :
    (hw.set n k x).uses = hw.uses := rfl

/-- The registers of a new note leave the envelope of the channel alone. -/
theorem startRegisters_same (rom : CgbRom) :
    let v' := startRegisters n v rom
    v'.chan = { v.chan with cp := v'.chan.cp, n4 := v'.chan.n4 } ∧ v'.hw.uses = v.hw.uses := by
  cases n with
  | three =>
    simp only [startRegisters]
    refine ⟨trivial,?_⟩
    split <;> rfl
  | one => exact ⟨rfl,rfl⟩
  | two => exact ⟨rfl,rfl⟩
  | four => exact ⟨rfl,rfl⟩

theorem startNote_keeps (rom : CgbRom) (h : InRange v.chan) (hu : Unclipped mode v.chan) :
    Keeps v (startNote n v rom mode).2 := by
  have hg : Goals (cgbModVol mode { v.chan with sf := 3, mo := 3 }) := cgbModVol_goals hu h.su_le
  obtain ⟨hc,huses⟩ := @startRegisters_same n
    { v with chan := cgbModVol mode { v.chan with sf := 3, mo := 3 } } rom
  simp only [startNote]
  generalize startRegisters n { v with chan := cgbModVol mode { v.chan with sf := 3, mo := 3 } } rom
    = w at *
  have hr : w.chan.rightVolume = v.chan.rightVolume := by rw [hc]; rfl
  have hl : w.chan.leftVolume = v.chan.leftVolume := by rw [hc]; rfl
  have hw : Goals w.chan := by
    rw [hc]
    exact ⟨hg.eg_le,hg.sg_le,hg.su_le⟩
  split
  · exact Keeps.of_same (decayStart_keeps ⟨hw.eg_le,hw.sg_le,hw.su_le⟩) hr hl huses
  · exact ⟨⟨⟨hw.eg_le,hw.sg_le,hw.su_le⟩,Nat.zero_le _⟩,hr,hl,huses⟩

theorem startRelease_keeps (h : InRange v.chan) : Keeps v (startRelease n v).2 := by
  simp only [startRelease]
  split
  · have hk := @echoStart_keeps n
      { v with chan := { v.chan with sf := v.chan.sf &&& 0xFC, ec := v.chan.re } }
      ⟨h.eg_le,h.sg_le,h.su_le⟩
    exact hk.of_same rfl rfl rfl
  · constructor
    · simp only [step_chan]
      exact ⟨⟨h.eg_le,h.sg_le,h.su_le⟩,h.ev_le⟩
    all_goals simp

theorem echoStart_ne_count : (echoStart n v).1 ≠ .count := by
  simp only [echoStart]
  split <;> simp

theorem startRelease_ec (h : (startRelease n v).1 = .count) :
    (startRelease n v).2.chan.ec = v.chan.re := by
  simp only [startRelease] at h ⊢
  by_cases hre : v.chan.re = 0
  · rw [if_pos hre] at h
    exact absurd h echoStart_ne_count
  · rw [if_neg hre]
    simp

/-- The frame recomputes the goals of the channel: a note that begins, or an envelope whose
counter runs out, in a doubled frame also after its first countdown. -/
def Recomputes (twice : Bool) (c : CgbChannel) : Prop :=
  if c.sf &&& 0x80 ≠ 0 then c.sf &&& 0x40 = 0
  else if c.sf &&& 4 ≠ 0 then False
  else if c.sf &&& 0x40 ≠ 0 ∧ c.sf &&& 3 ≠ 0 then c.re = 1 ∧ twice = true
  else c.ec = 0 ∨ c.ec = 1 ∧ twice = true

instance (twice : Bool) (c : CgbChannel) : Decidable (Recomputes twice c) := by
  unfold Recomputes
  infer_instance

/-- The envelope code of one frame, under the guard that a recomputed goal fits. -/
theorem counted_enter_keeps (rom : CgbRom) {twice : Bool} (h : InRange v.chan)
    (hu : Recomputes twice v.chan → Unclipped mode v.chan) :
    Keeps v (counted n mode twice (enter n v rom mode)).2 := by
  have compose : ∀ r : Goto × Voice, Keeps v r.2 →
      (r.1 = .count → twice = true → r.2.chan.ec = 1 → Unclipped mode v.chan) →
      Keeps v (counted n mode twice r).2 := by
    intro r hk hc
    exact hk.trans (counted_keeps hk.inRange fun h₁ h₂ h₃ => (hc h₁ h₂ h₃).of_keeps hk)
  simp only [enter]
  split
  · rename_i hs
    split
    · exact compose _ ⟨h,rfl,rfl,rfl⟩ (by simp)
    · rename_i hk
      have hun : Unclipped mode v.chan := by
        apply hu
        rw [Recomputes,if_pos hs]
        exact not_not.mp hk
      exact compose _ (startNote_keeps rom h hun) fun _ _ _ => hun
  · rename_i hs
    split
    · refine compose _ ⟨⟨⟨h.eg_le,h.sg_le,h.su_le⟩,h.ev_le⟩,rfl,rfl,rfl⟩ ?_
      dsimp only
      split <;> simp
    · rename_i he
      split
      · rename_i hrel
        refine compose _ (startRelease_keeps h) fun h₁ h₂ h₃ => hu ?_
        rw [startRelease_ec h₁] at h₃
        rw [Recomputes,if_neg hs,if_neg he,if_pos hrel]
        exact ⟨h₃,h₂⟩
      · rename_i hrel
        have hun : v.chan.ec = 0 ∨ v.chan.ec = 1 ∧ twice = true → Unclipped mode v.chan := by
          intro hec
          apply hu
          rw [Recomputes,if_neg hs,if_neg he,if_neg hrel]
          exact hec
        by_cases hec : v.chan.ec = 0
        · exact compose _ (envelope_keeps h fun _ => hun (.inl hec)) fun _ _ _ => hun (.inl hec)
        · have heq : envelope n v mode = (.count,v) := if_pos hec
          rw [heq]
          exact compose _ ⟨h,rfl,rfl,rfl⟩ fun _ h₂ h₃ => hun (.inr ⟨h₃,h₂⟩)

end Range

section Frames

variable {n : Osc} {v : Voice} {rom : CgbRom} {s : State}

/-- The volume indexes the table, or fills the upper half of the byte written. -/
def VolumeUse.Fits : VolumeUse → Prop
  | .index ev => ev.toNat < gCgb3Vol.length
  | .nibble ev value => ev.toNat < 16 ∧ value.toNat / 16 = ev.toNat

instance : (u : VolumeUse) → Decidable u.Fits
  | .index _ => inferInstanceAs (Decidable (_ < _))
  | .nibble _ _ => inferInstanceAs (Decidable (_ ∧ _))

theorem nibble_fits {ev r8 : Byte} (h : ev.toNat ≤ 15) :
    (VolumeUse.nibble ev ((ev <<< 4)+(r8 &&& 0xF))).Fits := by
  have hr : (r8 &&& 0xF).toNat < 16 := by
    rw [BitVec.toNat_and]
    exact Nat.lt_succ_of_le Nat.and_le_right
  have hs : (ev <<< 4).toNat = ev.toNat*16 := by
    rw [BitVec.toNat_shiftLeft,Nat.shiftLeft_eq]
    omega
  refine ⟨by omega,?_⟩
  rw [BitVec.toNat_add,hs]
  omega

theorem writeVolume_same : (writeVolume n rom v).chan =
    { v.chan with n4 := (writeVolume n rom v).chan.n4 } := by
  simp only [writeVolume]
  split
  · split <;> rfl
  · rfl

theorem writeVolume_uses (h : v.chan.ev.toNat ≤ 15) (hu : ∀ u ∈ v.hw.uses, u.Fits) :
    ∀ u ∈ (writeVolume n rom v).hw.uses, u.Fits := by
  by_cases hn : n = .three
  · have huses : (writeVolume n rom v).hw.uses = .index v.chan.ev::v.hw.uses := by
      simp only [writeVolume,hn,ite_true]
      split <;> rfl
    rw [huses]
    exact List.forall_mem_cons.mpr ⟨Nat.lt_succ_of_le h,hu⟩
  · have huses : (writeVolume n rom v).hw.uses =
        .nibble v.chan.ev ((v.chan.ev <<< 4)+(v.r8 &&& 0xF))::v.hw.uses := by
      simp only [writeVolume,hn,ite_false]
      split <;> rfl
    rw [huses]
    exact List.forall_mem_cons.mpr ⟨nibble_fits h,hu⟩

theorem writeRegisters_inRange (h : InRange v.chan) (hu : ∀ u ∈ v.hw.uses, u.Fits) :
    InRange (writeRegisters n rom v).chan ∧ ∀ u ∈ (writeRegisters n rom v).hw.uses, u.Fits := by
  have hp : InRange (if v.chan.mo &&& 2 ≠ 0 then writePitch n v else v).chan ∧
      ∀ u ∈ (if v.chan.mo &&& 2 ≠ 0 then writePitch n v else v).hw.uses, u.Fits := by
    split
    · exact ⟨⟨⟨h.eg_le,h.sg_le,h.su_le⟩,h.ev_le⟩,hu⟩
    · exact ⟨h,hu⟩
  simp only [writeRegisters]
  generalize (if v.chan.mo &&& 2 ≠ 0 then writePitch n v else v) = w at *
  split
  · refine ⟨?_,writeVolume_uses hp.1.ev_le hp.2⟩
    rw [writeVolume_same]
    exact ⟨⟨hp.1.eg_le,hp.1.sg_le,hp.1.su_le⟩,hp.1.ev_le⟩
  · exact hp

theorem finish_inRange (r : Goto × Voice) (h : InRange r.2.chan) (hu : ∀ u ∈ r.2.hw.uses, u.Fits) :
    InRange (finish n rom r).1 ∧ ∀ u ∈ (finish n rom r).2.uses, u.Fits := by
  obtain ⟨g,v⟩ := r
  have hw := @writeRegisters_inRange n v rom h hu
  have hw' : InRange { (writeRegisters n rom v).chan with mo := 0 } :=
    ⟨⟨hw.1.eg_le,hw.1.sg_le,hw.1.su_le⟩,hw.1.ev_le⟩
  cases g with
  | count => exact ⟨hw',hw.2⟩
  | write => exact ⟨hw',hw.2⟩
  | off =>
    refine ⟨⟨⟨h.eg_le,h.sg_le,h.su_le⟩,h.ev_le⟩,?_⟩
    cases n <;> exact hu

/-- Every channel is in range, and so was every volume that was used. -/
structure Ranged (s : State) : Prop where
  chan : ∀ n, InRange (s.chan n)
  uses : ∀ u ∈ s.hw.uses, u.Fits

/-- The guard of a frame at one channel. -/
def FrameFits (s : State) (n : Osc) : Prop :=
  (s.chan n).Active → Recomputes (s.c15 = 0) (s.chan n) → Unclipped s.mode (s.chan n)

instance (s : State) (n : Osc) : Decidable (FrameFits s n) :=
  inferInstanceAs (Decidable (_ → _ → _))

theorem cgbSoundChannel_ranged (h : Ranged s) (hf : FrameFits s n) :
    Ranged (cgbSoundChannel rom s n) := by
  unfold cgbSoundChannel
  split
  · rename_i hact
    have hk := @counted_enter_keeps n { chan := s.chan n, hw := s.hw, r8 := s.hw.nr n 2 } s.mode
      rom (s.c15 = 0) (h.chan n) (hf hact)
    have hr := @finish_inRange n rom _ hk.inRange (by rw [hk.uses]; exact h.uses)
    refine ⟨fun m => ?_,hr.2⟩
    by_cases hm : m = n
    · subst hm
      simpa using hr.1
    · simpa [hm] using h.chan m
  · exact h

theorem cgbSoundChannel_frame {m : Osc} (hm : m ≠ n) (hf : FrameFits s m) :
    FrameFits (cgbSoundChannel rom s n) m := by
  unfold cgbSoundChannel
  split
  · simpa [FrameFits,hm] using hf
  · exact hf

theorem foldl_ranged {ns : List Osc} (hns : ns.Nodup) (h : Ranged s)
    (hf : ∀ n ∈ ns, FrameFits s n) : Ranged (ns.foldl (cgbSoundChannel rom) s) := by
  induction ns generalizing s with
  | nil => exact h
  | cons n ns ih =>
    obtain ⟨hn,hns⟩ := List.nodup_cons.mp hns
    refine ih hns (cgbSoundChannel_ranged h (hf n List.mem_cons_self)) fun m hm => ?_
    have hne : m ≠ n := fun heq => hn (heq ▸ hm)
    exact cgbSoundChannel_frame hne (hf m (List.mem_cons_of_mem n hm))

/-- The guard of the steps: a frame only recomputes goals that fit. -/
def GoalsFit (s : State) : CgbEvent → Prop
  | .frame => ∀ n ∈ [Osc.one,.two,.three,.four], FrameFits (cgbFrame s) n
  | _ => True

instance (s : State) : (e : CgbEvent) → Decidable (GoalsFit s e)
  | .frame => inferInstanceAs (Decidable (∀ n ∈ _, _))
  | .note _ _ => .isTrue trivial
  | .volume _ _ => .isTrue trivial
  | .pitch _ _ => .isTrue trivial
  | .keyOff _ => .isTrue trivial
  | .stop _ => .isTrue trivial
  | .port _ _ _ => .isTrue trivial
  | .portNr51 _ => .isTrue trivial
  | .bias _ => .isTrue trivial
  | .mono _ => .isTrue trivial

theorem edit_ranged (h : Ranged s) {f : CgbChannel → CgbChannel}
    (hf : InRange (f (s.chan n))) : Ranged (s.edit n f) := by
  refine ⟨fun m => ?_,h.uses⟩
  by_cases hm : m = n
  · subst hm
    simpa [State.edit] using hf
  · simpa [State.edit,hm] using h.chan m

theorem cgbStep_ranged (s : State) (e : CgbEvent) (h : Ranged s) (hg : GoalsFit s e) :
    Ranged (cgbStep rom s e) := by
  have same (n : Osc) : InRange (s.chan n) := h.chan n
  cases e with
  | note n x =>
    exact edit_ranged h ⟨⟨(same n).eg_le,(same n).sg_le,x.sustain_le⟩,(same n).ev_le⟩
  | volume n t =>
    simp only [cgbStep]
    apply edit_ranged h
    exact ⟨⟨(same n).eg_le,(same n).sg_le,(same n).su_le⟩,(same n).ev_le⟩
  | pitch n freq =>
    simp only [cgbStep]
    apply edit_ranged h
    exact ⟨⟨(same n).eg_le,(same n).sg_le,(same n).su_le⟩,(same n).ev_le⟩
  | keyOff n =>
    simp only [cgbStep]
    apply edit_ranged h
    exact ⟨⟨(same n).eg_le,(same n).sg_le,(same n).su_le⟩,(same n).ev_le⟩
  | stop n =>
    have he := edit_ranged h (f := fun c => { c with sf := 0 })
      ⟨⟨(same n).eg_le,(same n).sg_le,(same n).su_le⟩,(same n).ev_le⟩
    refine ⟨he.chan,?_⟩
    cases n <;> exact h.uses
  | port n k v => exact ⟨h.chan,h.uses⟩
  | portNr51 v => exact ⟨h.chan,h.uses⟩
  | bias v => exact ⟨h.chan,h.uses⟩
  | mono on => exact ⟨h.chan,h.uses⟩
  | frame => exact foldl_ranged (by decide) ⟨h.chan,h.uses⟩ hg

/-- In every run in which a recomputed goal always fits, the goals and the volume of every
channel stay within the hardware range, and every use of a volume is in range. -/
theorem envelope_in_range (rom : CgbRom) (mode : Byte) (nr : Osc → Fin 5 → Byte) (nr51 bias : Byte)
    (es : List CgbEvent)
    (h : Runs.Along (cgbStep rom) GoalsFit (State.initial mode nr nr51 bias) es) :
    let s := Runs.run (cgbStep rom) (State.initial mode nr nr51 bias) es
    (∀ n, (s.chan n).Active →
      (s.chan n).eg ≤ 15 ∧ (s.chan n).sg ≤ 15 ∧ (s.chan n).ev ≤ 15) ∧
    ∀ u ∈ s.hw.uses, u.Fits := by
  have hinit : Ranged (State.initial mode nr nr51 bias) := by
    refine ⟨fun n => ?_,by simp [State.initial]⟩
    cases n <;> exact ⟨⟨Nat.zero_le _,Nat.zero_le _,Nat.zero_le _⟩,Nat.zero_le _⟩
  have hs := Runs.Along.invariant cgbStep_ranged hinit h
  refine ⟨fun n _ => ?_,hs.uses⟩
  exact ⟨(hs.chan n).eg_le,(hs.chan n).sg_le,(hs.chan n).ev_le⟩

/-- A note at full velocity on the wave channel, whose track and rhythm pan lean to the right. -/
def rightNote (pan rhythmPan : Byte) : Note where
  gateTime := 24
  key := 60
  velocity := 127
  priority := 0
  ky := 60
  rhythmPan := rhythmPan
  type := 3
  length := 0
  panSweep := 0
  wav := 0x08001000
  attack := 0
  decay := 1
  sustain := 15
  release := 0
  echoVolume := 0
  echoLength := 0
  freq := 0x400
  track := { vol := 127, volX := 64, modT := 0, modM := 0, pan := pan, panX := 0, vol_le := by decide }
  velocity_le := by decide
  sustain_le := by decide

def quietRom : CgbRom := { wave := fun _ _ => 0, behindTable := fun _ => 0 }

def silentRegisters : Osc → Fin 5 → Byte := fun _ _ => 0

theorem envelope_in_range_centre :
    let es : List CgbEvent := [.mono true,.note .three (rightNote 0 0),.frame,.keyOff .three,.frame]
    let s := Runs.run (cgbStep quietRom) (State.initial 0 silentRegisters 0 0) es
    Runs.Along (cgbStep quietRom) GoalsFit (State.initial 0 silentRegisters 0 0) es ∧
    (∀ n, (s.chan n).Active →
      (s.chan n).eg ≤ 15 ∧ (s.chan n).sg ≤ 15 ∧ (s.chan n).ev ≤ 15) ∧
    ∀ u ∈ s.hw.uses, u.Fits := by
  intro es s
  have hal : Runs.Along (cgbStep quietRom) GoalsFit (State.initial 0 silentRegisters 0 0) es := by
    decide +kernel
  exact ⟨hal,envelope_in_range quietRom 0 silentRegisters 0 0 es hal⟩

/-- In mono mode the goal is not limited: right volume 255 and left volume 31 give 17. -/
theorem envelope_exceeds_mono :
    ¬ ∀ es : List CgbEvent,
      let s := Runs.run (cgbStep quietRom) (State.initial 0 silentRegisters 0 0) es
      (∀ n, (s.chan n).Active →
        (s.chan n).eg ≤ 15 ∧ (s.chan n).sg ≤ 15 ∧ (s.chan n).ev ≤ 15) ∧
      ∀ u ∈ s.hw.uses, u.Fits := by
  intro h
  have hrun := (h [.mono true,.note .three (rightNote 32 62),.frame]).2 (.index 17) (by decide +kernel)
  exact absurd hrun (by decide)

end Frames

end Cgb
end M4a
end AgbTools
