import AgbTools.M4aControl
import AgbTools.M4aTempo
import Mathlib.Logic.Relation

/-! The commands of a song, byte by byte, as `MPlayMain` executes them on a track with all its fields.
What a note does to the channels belongs to the sequencer; here it is given whether it gets one. -/
namespace AgbTools
namespace M4a
namespace Song

section Fields

structure Tone where
  type : Byte
  key : Byte
  length : Byte
  panSweep : Byte
  wav : Word
  attack : Byte
  decay : Byte
  sustain : Byte
  release : Byte
deriving DecidableEq, Repr

/-- `MusicPlayerTrack`, its list of channels apart. -/
structure Track extends Control.Track where
  wait : Byte
  gateTime : Byte
  key : Byte
  velocity : Byte
  keyM : Byte
  pitM : Byte
  keyShift : Byte
  keyShiftX : Byte
  tune : Byte
  pitX : Byte
  bend : Byte
  bendRange : Byte
  volMR : Byte
  volML : Byte
  vol : Byte
  volX : Byte
  pan : Byte
  panX : Byte
  modM : Byte
  mod : Byte
  modT : Byte
  lfoSpeed : Byte
  lfoSpeedC : Byte
  lfoDelay : Byte
  lfoDelayC : Byte
  priority : Byte
  echoVolume : Byte
  echoLength : Byte
  tone : Tone
  unk3A : BitVec 16
  unk3C : Word

/-- The fields of a player that its commands work with. -/
structure Player where
  memAccArea : Byte → Byte
  tempo : Sequencer.Tempo
  tone : Word

/-- What a command does outside of its track: a note with the fields that its channel gets, the end of
a tie, the end of the track, and a byte for a sound register. -/
inductive Sound
  | note (gateTime key velocity : Byte) (tone : Tone)
  | endtie (key : Byte)
  | fine
  | port (reg data : Byte)
deriving DecidableEq, Repr

/-- A track and its player, and what was done so far, the last first. -/
structure State where
  track : Track
  player : Player
  out : List Sound

/-- A track of a player behind `MPlayStart`, with its first command at `c`. -/
def Track.opened (c : Word) : Track where
  flags := 0xC0
  patternLevel := 0
  repN := 0
  runningStatus := 0
  cmdPtr := c
  patternStack _ := 0
  wait := 0
  gateTime := 0
  key := 0
  velocity := 0
  keyM := 0
  pitM := 0
  keyShift := 0
  keyShiftX := 0
  tune := 0
  pitX := 0
  bend := 0
  bendRange := 0
  volMR := 0
  volML := 0
  vol := 0
  volX := 0
  pan := 0
  panX := 0
  modM := 0
  mod := 0
  modT := 0
  lfoSpeed := 0
  lfoSpeedC := 0
  lfoDelay := 0
  lfoDelayC := 0
  priority := 0
  echoVolume := 0
  echoLength := 0
  tone := ⟨0,0,0,0,0,0,0,0,0⟩
  unk3A := 0
  unk3C := 0

def State.edit (f : Track → Track) (s : State) : State := { s with track := f s.track }

def Track.mark (m : Byte) (s : Track) : Track := { s with flags := s.flags ||| m }

def Track.skip (n : Word) (s : Track) : Track := { s with cmdPtr := s.cmdPtr+n }

def Track.steer (f : Control.Track → Control.Track) (s : Track) : Track :=
  { s with toTrack := f s.toTrack }

def gClockTable : List Byte :=
  [0x00,0x01,0x02,0x03,0x04,0x05,0x06,0x07,0x08,0x09,0x0A,0x0B,0x0C,0x0D,0x0E,0x0F,0x10,0x11,0x12,0x13,
    0x14,0x15,0x16,0x17,0x18,0x1C,0x1E,0x20,0x24,0x28,0x2A,0x2C,0x30,0x34,0x36,0x38,0x3C,0x40,0x42,0x44,
    0x48,0x4C,0x4E,0x50,0x54,0x58,0x5A,0x5C,0x60]

end Fields

section Derived

/-- The level that `TrkVolPitSet` computes from the volumes and, for a tremolo, from the LFO. -/
def Track.level (s : Track) : Word :=
  let x : Word := (s.vol.zeroExtend 32*s.volX.zeroExtend 32) >>> 5
  if s.modT = 1 then (x*(s.modM.signExtend 32+128)) >>> 7 else x

def Track.side (s : Track) : ℤ :=
  let y := 2*s.pan.toInt+s.panX.toInt+(if s.modT = 2 then s.modM.toInt else 0)
  if y < -128 then -128 else if y > 127 then 127 else y

def Track.levelRight (s : Track) : Byte :=
  ((BitVec.ofInt 32 (s.side+128)*s.level) >>> 8).truncate 8

def Track.levelLeft (s : Track) : Byte :=
  ((BitVec.ofInt 32 (127-s.side)*s.level) >>> 8).truncate 8

/-- The pitch in 256ths of a key that `TrkVolPitSet` adds to the key of a note. -/
def Track.pitch (s : Track) : ℤ :=
  (s.tune.toInt+s.bend.toInt*s.bendRange.toNat)*4+s.keyShift.toInt*256+s.keyShiftX.toInt*256+
    s.pitX.toNat+(if s.modT = 0 then 16*s.modM.toInt else 0)

/-- The volume half of `TrkVolPitSet`. -/
def setVolume (s : Track) : Track :=
  if s.flags &&& 0x01 ≠ 0 then { s with volMR := s.levelRight, volML := s.levelLeft } else s

/-- The pitch half. -/
def setPitch (s : Track) : Track :=
  if s.flags &&& 0x04 ≠ 0 then
    { s with keyM := BitVec.ofInt 8 (s.pitch / 256), pitM := BitVec.ofInt 8 s.pitch }
  else s

def trkVolPitSet (s : Track) : Track :=
  let s := setPitch (setVolume s)
  { s with flags := s.flags &&& 0xFA }

/-- `clear_modM`, and `ClearModM` of the C sources. -/
def clearModM (s : Track) : Track :=
  ({ s with modM := 0, lfoSpeedC := 0 }).mark (if s.modT = 0 then 0x0C else 0x03)

end Derived

section Code

variable (template : Word) (mem : Word → Byte)

def wordAt (a : Word) : Word := mem (a+3)++mem (a+2)++mem (a+1)++mem a

/-- `chk_adr_r2` on a word. -/
def chkWord (r2 r3 : Word) : Word :=
  if r2 >>> 25 ≠ 0 then r3
  else if r2 < template then 0
  else if r2 >>> 14 = 0 then r3
  else 0

/-- A command with an operand that is read by `ld_r3_tp_adr_i`. -/
def withOperand (f : Byte → Track → Track) (s : Track) : Track :=
  f (Control.ldrbR3R2 template mem s.cmdPtr) (s.skip 1)

/-- A command with an operand that is not checked. -/
def withUnchecked (f : Byte → Track → Track) (s : Track) : Track := f (mem s.cmdPtr) (s.skip 1)

def plyPrio : Track → Track := withOperand template mem fun x s => { s with priority := x }
def plyKeysh : Track → Track :=
  withOperand template mem fun x s => ({ s with keyShift := x }).mark 0x0C
def plyVol : Track → Track := withOperand template mem fun x s => ({ s with vol := x }).mark 0x03
def plyPan : Track → Track :=
  withOperand template mem fun x s => ({ s with pan := x-0x40 }).mark 0x03
def plyBend : Track → Track :=
  withOperand template mem fun x s => ({ s with bend := x-0x40 }).mark 0x0C
def plyBendr : Track → Track :=
  withOperand template mem fun x s => ({ s with bendRange := x }).mark 0x0C
def plyLfodl : Track → Track := withOperand template mem fun x s => { s with lfoDelay := x }
def plyModt : Track → Track :=
  withOperand template mem fun x s => if s.modT = x then s else ({ s with modT := x }).mark 0x0F
def plyTune : Track → Track :=
  withOperand template mem fun x s => ({ s with tune := x-0x40 }).mark 0x0C

def plyLfos : Track → Track :=
  withUnchecked mem fun x s =>
    if x = 0 then clearModM { s with lfoSpeed := x } else { s with lfoSpeed := x }
def plyMod : Track → Track :=
  withUnchecked mem fun x s => if x = 0 then clearModM { s with mod := x } else { s with mod := x }

def toneAt (a : Word) : Tone :=
  let w := chkWord template a (wordAt mem a)
  let v := chkWord template a (wordAt mem (a+8))
  { type := w.truncate 8
    key := (w >>> 8).truncate 8
    length := (w >>> 16).truncate 8
    panSweep := (w >>> 24).truncate 8
    wav := chkWord template a (wordAt mem (a+4))
    attack := v.truncate 8
    decay := (v >>> 8).truncate 8
    sustain := (v >>> 16).truncate 8
    release := (v >>> 24).truncate 8 }

def plyVoice (tone : Word) : Track → Track :=
  withUnchecked mem fun x s => { s with tone := toneAt template mem (tone+12*x.zeroExtend 32) }

def plyFine (s : State) : State := { s.edit (Track.steer Control.plyFine) with out := .fine::s.out }

def plyGoto : Track → Track := Track.steer (Control.plyGoto template mem)

def plyPatt (s : State) : State :=
  if 3 ≤ s.track.patternLevel then plyFine s
  else s.edit (Track.steer (Control.plyPatt template mem))

def plyTempo (s : State) : State :=
  { s.edit (Track.skip 1) with
    player := { s.player with
      tempo := Sequencer.plyTempo s.player.tempo (Control.ldrbR3R2 template mem s.track.cmdPtr) } }

/-- The first operand is the register, the second one, which is checked, the value. -/
def plyPort (s : State) : State :=
  { s.edit (Track.skip 2) with
    out := .port (mem s.track.cmdPtr) (Control.ldrbR3R2 template mem (s.track.cmdPtr+1))::s.out }

/-- A jump of `ply_memacc`: the target is read as `ply_goto` does, or its four bytes are skipped. -/
def condJump (cond : Bool) (s : State) : State :=
  if cond then s.edit (plyGoto template mem) else s.edit (Track.skip 4)

/-- What the first cases of `ply_memacc` store. -/
def memaccValue (area : Byte → Byte) (addr data : Byte) : ℕ → Option Byte
  | 0 => some data
  | 1 => some (area addr+data)
  | 2 => some (area addr-data)
  | 3 => some (area data)
  | 4 => some (area addr+area data)
  | 5 => some (area addr-area data)
  | _ => none

/-- The conditions of the others. -/
def memaccCond (area : Byte → Byte) (addr data : Byte) : ℕ → Option Bool
  | 6 => some (area addr = data)
  | 7 => some (area addr ≠ data)
  | 8 => some (area addr > data)
  | 9 => some (area addr ≥ data)
  | 10 => some (area addr ≤ data)
  | 11 => some (area addr < data)
  | 12 => some (area addr = area data)
  | 13 => some (area addr ≠ area data)
  | 14 => some (area addr > area data)
  | 15 => some (area addr ≥ area data)
  | 16 => some (area addr ≤ area data)
  | 17 => some (area addr < area data)
  | _ => none

def plyMemacc (s : State) : State :=
  let op := (mem s.track.cmdPtr).toNat
  let addr := mem (s.track.cmdPtr+1)
  let data := mem (s.track.cmdPtr+2)
  let s := s.edit (Track.skip 3)
  let area := s.player.memAccArea
  match memaccValue area addr data op,memaccCond area addr data op with
  | some x,_ => { s with player := { s.player with memAccArea := Function.update area addr x } }
  | none,some cond => condJump template mem cond s
  | none,none => s

/-- A command of `gXcmdTable` that stores one byte. -/
def storeByte (f : Byte → Tone → Tone) : Track → Track :=
  withUnchecked mem fun x s => { s with tone := f x s.tone }

def plyXwave (s : Track) : Track :=
  ({ s with tone := { s.tone with wav := wordAt mem s.cmdPtr } }).skip 4
def plyXtype : Track → Track := storeByte mem fun x t => { t with type := x }
def plyXatta : Track → Track := storeByte mem fun x t => { t with attack := x }
def plyXdeca : Track → Track := storeByte mem fun x t => { t with decay := x }
def plyXsust : Track → Track := storeByte mem fun x t => { t with sustain := x }
def plyXrele : Track → Track := storeByte mem fun x t => { t with release := x }
def plyXiecv : Track → Track := withUnchecked mem fun x s => { s with echoVolume := x }
def plyXiecl : Track → Track := withUnchecked mem fun x s => { s with echoLength := x }
def plyXleng : Track → Track := storeByte mem fun x t => { t with length := x }
def plyXswee : Track → Track := storeByte mem fun x t => { t with panSweep := x }

/-- Waits as many ticks as its operand says: it counts them and goes back to its own command byte. -/
def plyXcmd0C (s : Track) : Track :=
  if s.unk3A < mem (s.cmdPtr+1)++mem s.cmdPtr then
    { s with cmdPtr := s.cmdPtr-2, unk3A := s.unk3A+1, wait := 1 }
  else { s.skip 2 with unk3A := 0 }

def plyXcmd0D (s : Track) : Track := ({ s with unk3C := wordAt mem s.cmdPtr }).skip 4

def gXcmdTable : ℕ → Option (State → State)
  | 0 => some plyFine
  | 1 => some (State.edit (plyXwave mem))
  | 2 => some (State.edit (plyXtype mem))
  | 3 => some plyFine
  | 4 => some (State.edit (plyXatta mem))
  | 5 => some (State.edit (plyXdeca mem))
  | 6 => some (State.edit (plyXsust mem))
  | 7 => some (State.edit (plyXrele mem))
  | 8 => some (State.edit (plyXiecv mem))
  | 9 => some (State.edit (plyXiecl mem))
  | 10 => some (State.edit (plyXleng mem))
  | 11 => some (State.edit (plyXswee mem))
  | 12 => some (State.edit (plyXcmd0C mem))
  | 13 => some (State.edit (plyXcmd0D mem))
  | _ => none

/-- `ply_xcmd`; there is nothing behind the end of its table. -/
def plyXcmd (s : State) : Option State :=
  (gXcmdTable mem (mem s.track.cmdPtr).toNat).map fun f => f (s.edit (Track.skip 1))

/-- The operands of a note; a byte from 0x80 on is none. -/
def noteOperands (clock : Byte) (s : Track) : Track :=
  let s := { s with gateTime := clock }
  if 0x80 ≤ mem s.cmdPtr then s
  else
    let s := { s with key := mem s.cmdPtr }
    if 0x80 ≤ mem (s.cmdPtr+1) then s.skip 1
    else
      let s := { s with velocity := mem (s.cmdPtr+1) }
      if 0x80 ≤ mem (s.cmdPtr+2) then s.skip 2
      else ({ s with gateTime := s.gateTime+mem (s.cmdPtr+2) }).skip 3

/-- The LFO waits again, if it has a delay. -/
def delayLfo (s : Track) : Track :=
  let s := { s with lfoDelayC := s.lfoDelay }
  if s.lfoDelay = 0 then s else clearModM s

/-- What a note that gets a channel leaves in its track. -/
def noteStarted (s : Track) : Track :=
  let s := trkVolPitSet (delayLfo s)
  { s with flags := s.flags &&& 0xF0 }

def plyNote (got : Bool) (clock : Byte) (s : State) : State :=
  let s := s.edit (noteOperands mem clock)
  if got then
    { s.edit noteStarted with
      out := .note s.track.gateTime s.track.key s.track.velocity s.track.tone::s.out }
  else s

def plyEndtie (s : State) : State :=
  let s := if mem s.track.cmdPtr < 0x80 then
      s.edit fun r => ({ r with key := mem r.cmdPtr }).skip 1
    else s
  { s with out := .endtie s.track.key::s.out }

/-- `gMPlayJumpTable` after `MPlayExtender`, as far as commands reach into it. -/
def jumpTable (n : ℕ) (s : State) : Option State :=
  match n with
  | 0 => some (plyFine s)
  | 1 => some (s.edit (plyGoto template mem))
  | 2 => some (plyPatt template mem s)
  | 3 => some (s.edit (Track.steer Control.plyPend))
  | 4 => some (s.edit (Track.steer (Control.plyRept template mem)))
  | 8 => some (plyMemacc template mem s)
  | 9 => some (s.edit (plyPrio template mem))
  | 10 => some (plyTempo template mem s)
  | 11 => some (s.edit (plyKeysh template mem))
  | 12 => some (s.edit (plyVoice template mem s.player.tone))
  | 13 => some (s.edit (plyVol template mem))
  | 14 => some (s.edit (plyPan template mem))
  | 15 => some (s.edit (plyBend template mem))
  | 16 => some (s.edit (plyBendr template mem))
  | 17 => some (s.edit (plyLfos mem))
  | 18 => some (s.edit (plyLfodl template mem))
  | 19 => some (s.edit (plyMod mem))
  | 20 => some (s.edit (plyModt template mem))
  | 23 => some (s.edit (plyTune template mem))
  | 27 => some (plyPort template mem s)
  | 28 => plyXcmd mem s
  | 29 => some (plyEndtie mem s)
  -- the entries that are left are `ply_fine`
  | _ => some (plyFine s)

/-- The command `r1`, from its operands on. A byte below 0x80 that no command went before is looked
up in front of the clock table. -/
def perform (got : Bool) (r1 : Byte) (s : State) : Option State :=
  if 0xCF ≤ r1 then some (plyNote mem got (gClockTable.getD (r1.toNat-0xCF) 0) s)
  else if 0xB0 < r1 then jumpTable template mem (r1.toNat-0xB1) s
  else if 0x80 ≤ r1 then some (s.edit fun r => { r with wait := gClockTable.getD (r1.toNat-0x80) 0 })
  else none

/-- One command of the track. -/
def execute (s : State) (got : Bool) : Option State :=
  if s.track.flags = 0 then some s
  else
    let (r1,c) := Control.fetch mem s.track.toTrack
    perform template mem got r1 (s.edit fun r => { r with toTrack := c })

/-- The loop at _081DD938: commands are executed until the track has to wait, or has ended. The
function says which notes get a channel. -/
def commandLoop (got : ℕ → Bool) : ℕ → State → Option State
  | 0, _ => none
  | fuel+1, s =>
    if s.track.flags = 0 ∨ s.track.wait ≠ 0 then some s
    else (execute template mem s (got fuel)).bind (commandLoop got fuel)

/-- The step of the LFO, before it is cut to a byte. -/
def Track.lfoSum (s : Track) : ℕ := s.lfoSpeedC.toNat+s.lfoSpeed.toNat

/-- A triangle that goes up to 0x40, down to -0x40 and up again. -/
def triangle (sum : ℕ) : ℤ :=
  if (BitVec.ofNat 8 sum-0x40).msb then (BitVec.ofNat 8 sum).toInt else 0x80-sum

def Track.lfoModM (s : Track) : Byte := BitVec.ofInt 8 (s.mod.toNat*triangle s.lfoSum / 64)

def moveLfo (s : Track) : Track :=
  let modM := s.lfoModM
  let s := { s with lfoSpeedC := BitVec.ofNat 8 s.lfoSum }
  if modM = s.modM then s
  else ({ s with modM := modM }).mark (if s.modT = 0 then 0x0C else 0x03)

theorem moveLfo_same {s : Track} (h : s.lfoModM = s.modM) :
    moveLfo s = { s with lfoSpeedC := BitVec.ofNat 8 s.lfoSum } := if_pos h

theorem moveLfo_moved {s : Track} (h : s.lfoModM ≠ s.modM) :
    moveLfo s = ({ s with lfoSpeedC := BitVec.ofNat 8 s.lfoSum, modM := s.lfoModM }).mark
      (if s.modT = 0 then 0x0C else 0x03) := if_neg h

/-- The LFO of a tick, from _081DD938 behind the count of the wait on. -/
def lfo (s : Track) : Track :=
  if s.lfoSpeed = 0 ∨ s.mod = 0 then s
  else if s.lfoDelayC ≠ 0 then { s with lfoDelayC := s.lfoDelayC-1 }
  else moveLfo s

/-- `Clear64byte` and what `MPlayMain` and `m4aMPlayImmInit` store behind it: all fields but the
command pointer and the pattern stack. -/
def freshTrack (s : Track) : Track :=
  { s with
    flags := 0x80, wait := 0, patternLevel := 0, repN := 0, gateTime := 0, key := 0, velocity := 0
    runningStatus := 0, keyM := 0, pitM := 0, keyShift := 0, keyShiftX := 0, tune := 0, pitX := 0
    bend := 0, bendRange := 2, volMR := 0, volML := 0, vol := 0, volX := 0x40, pan := 0, panX := 0
    modM := 0, mod := 0, modT := 0, lfoSpeed := 0x16, lfoSpeedC := 0, lfoDelay := 0, lfoDelayC := 0
    priority := 0, echoVolume := 0, echoLength := 0
    tone := ⟨1,0,0,0,0,0,0,0,0⟩, unk3A := 0, unk3C := 0 }

/-- What a tick does behind the commands. -/
def tickEnd (s : State) : State :=
  if s.track.flags = 0 then s else s.edit fun r => lfo { r with wait := r.wait-1 }

/-- One tick of a track. -/
def tick (got : ℕ → Bool) (fuel : ℕ) (s : State) : Option State :=
  if s.track.flags &&& 0x80 = 0 then some s
  else
    let s := if s.track.flags &&& 0x40 ≠ 0 then s.edit freshTrack else s
    (commandLoop template mem got fuel s).map tickEnd

/-- Ticks of the track, each with what becomes of its notes. -/
def ticks (fuel : ℕ) : List (ℕ → Bool) → State → Option State
  | [], s => some s
  | got::gots, s => (tick template mem got fuel s).bind (ticks fuel gots)

end Code

section Control

variable {template : Word} {mem : Word → Byte} {got : Bool} {s s' : State}

/-- A command that steers nothing may move the command pointer and change the flags. -/
def Unsteered (c c' : Control.Track) : Prop := c' = { c with flags := c'.flags, cmdPtr := c'.cmdPtr }

theorem Unsteered.trans {a b c : Control.Track} (h : Unsteered a b) (h' : Unsteered b c) :
    Unsteered a c := by
  unfold Unsteered at *
  rw [h',h]

/-- The same but for the flags, which both have or both lack. -/
def Alike (c c' : Control.Track) : Prop :=
  c' = { c with flags := c'.flags } ∧ (c.flags = 0 ↔ c'.flags = 0)

theorem Alike.refl (c : Control.Track) : Alike c c := ⟨rfl,Iff.rfl⟩

theorem Alike.trans {a b c : Control.Track} (h : Alike a b) (h' : Alike b c) : Alike a c := by
  refine ⟨?_,h.2.trans h'.2⟩
  rw [h'.1,h.1]

theorem fetch_alike (c : Control.Track) (flags : Byte) :
    Control.fetch mem { c with flags := flags } =
      ((Control.fetch mem c).1,{ (Control.fetch mem c).2 with flags := flags }) := by
  unfold Control.fetch
  dsimp only
  split_ifs <;> rfl

theorem alike_command {c : Control.Track} {flags : Byte} (hflags : c.flags = 0 ↔ flags = 0)
    (x : Control.Other) (r : Control.Command) :
    Alike (Control.command template mem c x r)
      (Control.command template mem { c with flags := flags } x r) := by
  cases r with
  | fine | other => exact ⟨rfl,Iff.rfl⟩
  | goto => exact ⟨rfl,hflags⟩
  | patt =>
    unfold Control.command Control.plyPatt
    dsimp only
    split_ifs
    · exact ⟨rfl,Iff.rfl⟩
    · exact ⟨rfl,hflags⟩
  | pend =>
    unfold Control.command Control.plyPend
    dsimp only
    split_ifs <;> exact ⟨rfl,hflags⟩
  | rept =>
    unfold Control.command Control.plyRept
    dsimp only [Control.ldR3TpAdrI]
    split_ifs <;> exact ⟨rfl,hflags⟩

/-- Tracks that are alike go the same way. -/
theorem Alike.execute {c c' : Control.Track} (h : Alike c c') (x : Control.Other) :
    Alike (Control.execute template mem c x) (Control.execute template mem c' x) := by
  have hfetch : Control.fetch mem c' =
      ((Control.fetch mem c).1,{ (Control.fetch mem c).2 with flags := c'.flags }) := by
    rw [h.1]
    exact fetch_alike c _
  unfold Control.execute
  by_cases hoff : c.flags = 0
  · rw [if_pos hoff,if_pos (h.2.mp hoff)]
    exact h
  · rw [if_neg hoff,if_neg fun hoff' => hoff (h.2.mpr hoff'),hfetch]
    have hflags : (Control.fetch mem c).2.flags = 0 ↔ c'.flags = 0 := by
      rw [Control.fetch_keeps]
      exact h.2
    exact alike_command hflags x _

theorem Alike.run {c c' : Control.Track} (h : Alike c c') (xs : List Control.Other) :
    Alike (Runs.run (Control.execute template mem) c xs) (Runs.run (Control.execute template mem) c' xs) := by
  induction xs generalizing c c' with
  | nil => exact h
  | cons x xs ih => exact ih (h.execute x)

end Control

section Edits

/-- What the commands do to a track, a few fields at a time. -/
inductive Edit : Track → Track → Prop
  | steer {s r : Track} (h : r = { s with toTrack := r.toTrack }) (hflags : r.flags = s.flags) : Edit s r
  | aside {s r : Track} (h : r = { s with
      wait := r.wait, gateTime := r.gateTime, key := r.key, velocity := r.velocity
      priority := r.priority, echoVolume := r.echoVolume, echoLength := r.echoLength
      lfoDelay := r.lfoDelay, tone := r.tone, unk3A := r.unk3A, unk3C := r.unk3C }) : Edit s r
  | volume {s r : Track} (h : r = ({ s with vol := r.vol, pan := r.pan }).mark 0x03) : Edit s r
  | pitch {s r : Track} (h : r = ({ s with
      keyShift := r.keyShift, tune := r.tune, bend := r.bend, bendRange := r.bendRange }).mark 0x0C) :
    Edit s r
  | modt (s : Track) (modT : Byte) : Edit s (({ s with modT := modT }).mark 0x0F)
  | lfos (s : Track) {lfoSpeed : Byte} (h : lfoSpeed ≠ 0) : Edit s { s with lfoSpeed := lfoSpeed }
  | mod (s : Track) {mod : Byte} (h : mod ≠ 0) : Edit s { s with mod := mod }
  | stopLfo (s : Track) (lfoSpeed mod : Byte) :
    Edit s (clearModM { s with lfoSpeed := lfoSpeed, mod := mod })
  | started (s : Track) : Edit s (noteStarted s)

abbrev Edits : Track → Track → Prop := Relation.ReflTransGen Edit

/-- What they leave: a track that has ended, or one that was edited. -/
def Leaves (s r : Track) : Prop := r.flags = 0 ∨ Edits s r

variable {template : Word} {mem : Word → Byte} {got : Bool} {s s' : State}

theorem Edit.edits {s s' : Track} (h : Edit s s') : Edits s s' := .single h

theorem Edits.leaves {s r t : Track} (h : Edits s r) (h' : Leaves r t) : Leaves s t :=
  h'.imp_right h.trans

theorem steer_edits {f : Control.Track → Control.Track} {s : Track}
    (h : (f s.toTrack).flags = s.flags) : Edits s (s.steer f) :=
  (Edit.steer rfl h).edits

theorem skip_edits (n : Word) (s : Track) : Edits s (s.skip n) :=
  steer_edits (f := fun c => { c with cmdPtr := c.cmdPtr+n }) rfl

theorem withOperand_edits {f : Byte → Track → Track} (hf : ∀ x s, Edits s (f x s)) (s : Track) :
    Edits s (withOperand template mem f s) := (skip_edits 1 s).trans (hf _ _)

theorem withUnchecked_edits {f : Byte → Track → Track} (hf : ∀ x s, Edits s (f x s)) (s : Track) :
    Edits s (withUnchecked mem f s) := (skip_edits 1 s).trans (hf _ _)

theorem plyGoto_edits (s : Track) : Edits s (plyGoto template mem s) := steer_edits rfl

theorem plyPatt_edits (s : State) : Leaves s.track (plyPatt template mem s).track := by
  unfold plyPatt
  split_ifs with hlevel
  · exact .inl rfl
  · have hflags : (Control.plyPatt template mem s.track.toTrack).flags = s.track.flags := by
      rw [Control.plyPatt,if_neg hlevel]
      rfl
    exact .inr (steer_edits hflags)

theorem plyRept_edits (s : Track) : Edits s (s.steer (Control.plyRept template mem)) := by
  apply steer_edits
  unfold Control.plyRept
  dsimp only [Control.ldR3TpAdrI]
  split_ifs <;> rfl

theorem plyPend_edits (s : Track) : Edits s (s.steer Control.plyPend) := by
  apply steer_edits
  unfold Control.plyPend
  split_ifs <;> rfl

theorem plyMemacc_edits (s : State) : Edits s.track (plyMemacc template mem s).track := by
  have hskip := skip_edits 3 s.track
  have hjump (cond : Bool) (r : State) : Edits r.track (condJump template mem cond r).track := by
    cases cond
    · exact skip_edits 4 _
    · exact plyGoto_edits _
  unfold plyMemacc
  dsimp only
  split
  · exact hskip
  · exact hskip.trans (hjump _ (s.edit (Track.skip 3)))
  · exact hskip

theorem noteOperands_edits (mem : Word → Byte) (clock : Byte) (s : Track) :
    Edits s (noteOperands mem clock s) := by
  unfold noteOperands
  dsimp only
  split_ifs
  · exact (Edit.aside rfl).edits
  · exact (Edit.aside (r := { s with gateTime := clock, key := mem s.cmdPtr }) rfl).edits.trans
      (skip_edits 1 _)
  · exact (Edit.aside (r := { s with
      gateTime := clock, key := mem s.cmdPtr, velocity := mem (s.cmdPtr+1) }) rfl).edits.trans (skip_edits 2 _)
  · exact (Edit.aside (r := { s with
      gateTime := clock+mem (s.cmdPtr+2), key := mem s.cmdPtr, velocity := mem (s.cmdPtr+1) }) rfl).edits.trans
      (skip_edits 3 _)

theorem plyNote_edits (clock : Byte) (s : State) :
    Edits s.track (plyNote mem got clock s).track := by
  have hoperands := noteOperands_edits mem clock s.track
  unfold plyNote
  cases got
  · exact hoperands
  · exact hoperands.trans (Edit.started _).edits

theorem plyEndtie_edits (s : State) : Edits s.track (plyEndtie mem s).track := by
  unfold plyEndtie
  split_ifs
  · exact (Edit.aside (r := { s.track with key := mem s.track.cmdPtr }) rfl).edits.trans (skip_edits 1 _)
  · exact .refl

theorem plyXcmd0C_edits (s : Track) : Edits s (plyXcmd0C mem s) := by
  unfold plyXcmd0C
  split_ifs
  · exact (Edit.aside (r := { s with unk3A := s.unk3A+1, wait := 1 }) rfl).edits.trans
      (steer_edits (f := fun c => { c with cmdPtr := c.cmdPtr-2 }) rfl)
  · exact (Edit.aside (r := { s with unk3A := 0 }) rfl).edits.trans (skip_edits 2 _)

theorem storeByte_edits (f : Byte → Tone → Tone) (s : Track) : Edits s (storeByte mem f s) :=
  withUnchecked_edits (fun x s => (Edit.aside (r := { s with tone := f x s.tone }) rfl).edits) s

theorem plyXwave_edits (s : Track) : Edits s (plyXwave mem s) :=
  (Edit.aside (r := { s with tone := { s.tone with wav := wordAt mem s.cmdPtr } }) rfl).edits.trans
    (skip_edits 4 _)

theorem plyXiecv_edits (s : Track) : Edits s (plyXiecv mem s) :=
  withUnchecked_edits (fun x s => (Edit.aside (r := { s with echoVolume := x }) rfl).edits) s

theorem plyXiecl_edits (s : Track) : Edits s (plyXiecl mem s) :=
  withUnchecked_edits (fun x s => (Edit.aside (r := { s with echoLength := x }) rfl).edits) s

theorem plyXcmd0D_edits (s : Track) : Edits s (plyXcmd0D mem s) :=
  (Edit.aside (r := { s with unk3C := wordAt mem s.cmdPtr }) rfl).edits.trans (skip_edits 4 _)

theorem gXcmdTable_edits {n : ℕ} {f : State → State} (h : gXcmdTable mem n = some f) (s : State) :
    Leaves s.track (f s).track := by
  unfold gXcmdTable at h
  split at h
  case h_1 | h_4 =>
    cases h
    exact .inl rfl
  case h_2 =>
    cases h
    exact .inr (plyXwave_edits _)
  case h_9 =>
    cases h
    exact .inr (plyXiecv_edits _)
  case h_10 =>
    cases h
    exact .inr (plyXiecl_edits _)
  case h_13 =>
    cases h
    exact .inr (plyXcmd0C_edits _)
  case h_14 =>
    cases h
    exact .inr (plyXcmd0D_edits _)
  case h_15 => cases h
  all_goals
    cases h
    simp only [State.edit,plyXtype,plyXatta,plyXdeca,plyXsust,plyXrele,plyXleng,plyXswee]
    exact .inr (storeByte_edits _ _)

theorem plyXcmd_edits (h : plyXcmd mem s = some s') : Leaves s.track s'.track := by
  obtain ⟨f,hf,rfl⟩ := Option.map_eq_some_iff.mp h
  exact (skip_edits 1 s.track).leaves (gXcmdTable_edits hf (s.edit (Track.skip 1)))

theorem plyLfos_edits (s : Track) : Edits s (plyLfos mem s) := by
  refine withUnchecked_edits (fun x s => ?_) s
  split_ifs with hx
  · exact (Edit.stopLfo s x s.mod).edits
  · exact (Edit.lfos s hx).edits

theorem plyMod_edits (s : Track) : Edits s (plyMod mem s) := by
  refine withUnchecked_edits (fun x s => ?_) s
  split_ifs with hx
  · exact (Edit.stopLfo s s.lfoSpeed x).edits
  · exact (Edit.mod s hx).edits

theorem plyVoice_edits (tone : Word) (s : Track) : Edits s (plyVoice template mem tone s) := by
  refine withUnchecked_edits (fun x s => ?_) s
  generalize toneAt template mem (tone+12*x.zeroExtend 32) = voice
  exact (Edit.aside (r := { s with tone := voice }) rfl).edits

theorem plyModt_edits (s : Track) : Edits s (plyModt template mem s) := by
  refine withOperand_edits (fun x s => ?_) s
  split_ifs
  · exact .refl
  · exact (Edit.modt s x).edits

theorem aside_edits (f : Byte → Track → Track) (hf : ∀ x s, Edit s (f x s)) (s : Track) :
    Edits s (withOperand template mem f s) := withOperand_edits (fun x s => (hf x s).edits) s

theorem jumpTable_edits {n : ℕ} (h : jumpTable template mem n s = some s') : Leaves s.track s'.track := by
  unfold jumpTable at h
  split at h
  case h_1 =>
    cases h
    exact .inl rfl
  case h_23 =>
    cases h
    exact .inl rfl
  case h_3 =>
    cases h
    exact plyPatt_edits s
  case h_4 =>
    cases h
    exact .inr (plyPend_edits _)
  case h_5 =>
    cases h
    exact .inr (plyRept_edits _)
  case h_2 =>
    cases h
    exact .inr (plyGoto_edits _)
  case h_6 =>
    cases h
    exact .inr (plyMemacc_edits s)
  case h_8 =>
    cases h
    exact .inr (skip_edits 1 _)
  case h_7 =>
    cases h
    exact .inr (aside_edits (fun x s => { s with priority := x }) (fun _ _ => .aside rfl) _)
  case h_9 =>
    cases h
    exact .inr (aside_edits (fun x s => ({ s with keyShift := x }).mark 0x0C) (fun _ _ => .pitch rfl) _)
  case h_10 =>
    cases h
    exact .inr (plyVoice_edits _ _)
  case h_11 =>
    cases h
    exact .inr (aside_edits (fun x s => ({ s with vol := x }).mark 0x03) (fun _ _ => .volume rfl) _)
  case h_12 =>
    cases h
    exact .inr (aside_edits (fun x s => ({ s with pan := x-0x40 }).mark 0x03) (fun _ _ => .volume rfl) _)
  case h_13 =>
    cases h
    exact .inr (aside_edits (fun x s => ({ s with bend := x-0x40 }).mark 0x0C) (fun _ _ => .pitch rfl) _)
  case h_14 =>
    cases h
    exact .inr (aside_edits (fun x s => ({ s with bendRange := x }).mark 0x0C) (fun _ _ => .pitch rfl) _)
  case h_15 =>
    cases h
    exact .inr (plyLfos_edits _)
  case h_16 =>
    cases h
    exact .inr (aside_edits (fun x s => { s with lfoDelay := x }) (fun _ _ => .aside rfl) _)
  case h_17 =>
    cases h
    exact .inr (plyMod_edits _)
  case h_18 =>
    cases h
    exact .inr (plyModt_edits _)
  case h_19 =>
    cases h
    exact .inr (aside_edits (fun x s => ({ s with tune := x-0x40 }).mark 0x0C) (fun _ _ => .pitch rfl) _)
  case h_20 =>
    cases h
    exact .inr (skip_edits 2 _)
  case h_21 => exact plyXcmd_edits h
  case h_22 =>
    cases h
    exact .inr (plyEndtie_edits s)

theorem perform_edits {r1 : Byte} (h : perform template mem got r1 s = some s') :
    Leaves s.track s'.track := by
  unfold perform at h
  split_ifs at h
  · cases h
    exact .inr (plyNote_edits _ _)
  · exact jumpTable_edits h
  · cases h
    generalize gClockTable.getD (r1.toNat-0x80) 0 = wait
    exact .inr (Edit.aside (r := { s.track with wait := wait }) rfl).edits

theorem fetch_flags (mem : Word → Byte) (c : Control.Track) : (Control.fetch mem c).2.flags = c.flags := by
  unfold Control.fetch
  dsimp only
  split_ifs <;> rfl

/-- What a command does to its track is a few of these. -/
theorem execute_edits (h : execute template mem s got = some s') : Leaves s.track s'.track := by
  unfold execute at h
  by_cases hended : s.track.flags = 0
  · rw [if_pos hended] at h
    cases h
    exact .inr .refl
  · rw [if_neg hended] at h
    have hfetch : Edits s.track (s.track.steer fun c => (Control.fetch mem c).2) :=
      steer_edits (fetch_flags mem _)
    exact hfetch.leaves (perform_edits h)

@[simp] theorem setVolume_flags (s : Track) : (setVolume s).flags = s.flags := by
  unfold setVolume
  split_ifs <;> rfl

@[simp] theorem setPitch_flags (s : Track) : (setPitch s).flags = s.flags := by
  unfold setPitch
  split_ifs <;> rfl

theorem delayLfo_flags (s : Track) :
    (delayLfo s).flags = s.flags ∨ (delayLfo s).flags = s.flags ||| (if s.modT = 0 then 0x0C else 0x03) := by
  by_cases hdelay : s.lfoDelay = 0
  · exact .inl (by simp [delayLfo,hdelay])
  · have hclear : delayLfo s = clearModM { s with lfoDelayC := s.lfoDelay } := if_neg hdelay
    rw [hclear]
    exact .inr rfl

theorem noteStarted_flags (s : Track) : (noteStarted s).flags = s.flags &&& 0xF0 := by
  have hplain (x : Byte) : x &&& 0xFA &&& 0xF0 = x &&& 0xF0 := BitVec.and_assoc x _ _
  have hclear (x m : Byte) (hm : m &&& 0xF0 = 0) : (x ||| m) &&& 0xFA &&& 0xF0 = x &&& 0xF0 := by
    rw [hplain,BitVec.and_or_distrib_right,hm]
    exact BitVec.or_zero
  unfold noteStarted trkVolPitSet
  simp only [setPitch_flags,setVolume_flags]
  rcases delayLfo_flags s with h | h <;> rw [h]
  · exact hplain _
  · split_ifs <;> exact hclear _ _ (by decide)

/-- A mark of a volume or of a pitch. -/
theorem mark_running {s : Track} (p : Prop) [Decidable p] (hs : s.flags &&& 0x40 = 0) :
    (s.mark (if p then 0x0C else 0x03)).flags &&& 0x40 = 0 := by
  have hmark (x m : Byte) (hx : x &&& 0x40 = 0) (hm : m &&& 0x40 = 0) : (x ||| m) &&& 0x40 = 0 := by grind
  refine hmark _ _ hs ?_
  split_ifs <;> decide

/-- No command sets the flag that makes a track start anew. -/
theorem Edit.running {s s' : Track} (h : Edit s s') (hs : s.flags &&& 0x40 = 0) : s'.flags &&& 0x40 = 0 := by
  have hmark (m : Byte) (hm : m &&& 0x40 = 0) : (s.flags ||| m) &&& 0x40 = 0 := by grind
  cases h with
  | steer h hflags =>
    rw [hflags]
    exact hs
  | aside h =>
    rw [h]
    exact hs
  | volume h | pitch h =>
    rw [h]
    exact hmark _ (by decide)
  | modt modT => exact hmark _ (by decide)
  | lfos h | mod h => exact hs
  | stopLfo lfoSpeed mod => exact mark_running _ hs
  | started =>
    rw [noteStarted_flags]
    grind

theorem Edits.running {s s' : Track} (h : Edits s s') (hs : s.flags &&& 0x40 = 0) :
    s'.flags &&& 0x40 = 0 := by
  induction h with
  | refl => exact hs
  | tail _ h ih => exact h.running ih

theorem Leaves.running {s s' : Track} (h : Leaves s s') (hs : s.flags &&& 0x40 = 0) :
    s'.flags &&& 0x40 = 0 := by
  rcases h with hoff | h
  · rw [hoff]
    rfl
  · exact h.running hs

theorem lfo_running {s : Track} (hs : s.flags &&& 0x40 = 0) : (lfo s).flags &&& 0x40 = 0 := by
  unfold lfo
  split_ifs
  · exact hs
  · exact hs
  · by_cases h : s.lfoModM = s.modM
    · rw [moveLfo_same h]
      exact hs
    · rw [moveLfo_moved h]
      exact mark_running _ hs

end Edits

section Ticks

variable {template : Word} {mem : Word → Byte} {s s' : State} {fuel : ℕ}

theorem commandLoop_edits {got : ℕ → Bool} (h : commandLoop template mem got fuel s = some s') :
    Leaves s.track s'.track := by
  induction fuel generalizing s with
  | zero => cases h
  | succ fuel ih =>
    rw [commandLoop] at h
    split_ifs at h
    · cases h
      exact .inr .refl
    · obtain ⟨s₁,hs₁,hrest⟩ := Option.bind_eq_some_iff.mp h
      rcases execute_edits hs₁ with hoff | hedits
      · have hsame : s' = s₁ := by
          cases fuel with
          | zero => cases hrest
          | succ fuel =>
            rw [commandLoop,if_pos (.inl hoff)] at hrest
            exact (Option.some.inj hrest).symm
        exact .inl (hsame ▸ hoff)
      · exact hedits.leaves (ih hrest)

theorem tickEnd_running (h : s.track.flags &&& 0x40 = 0) : (tickEnd s).track.flags &&& 0x40 = 0 := by
  unfold tickEnd
  split_ifs
  · exact h
  · exact lfo_running h

end Ticks

end Song
end M4a
end AgbTools
