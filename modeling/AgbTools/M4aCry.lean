import AgbTools.M4aActions
import AgbTools.M4aSongText

/-! The cries: `gPokemonCrySong` under its setters, the song that `SetPokemonCryTone` makes of it, and
how that song plays. -/
namespace AgbTools
namespace M4a
namespace Cry

open Song

section Code

/-- `PokemonCrySong` without the fields of its header that are never set and the command bytes, which
are constants of `text`. -/
structure PokemonCrySong where
  trackCount : Byte
  priority : Byte
  tuneValue : Byte
  tuneValue2 : Byte
  volumeValue : Byte
  unkCmd0DParam : Word
  releaseValue : Byte
  panValue : Byte
  tieKeyValue : Byte
  tieVelocityValue : Byte
  unkCmd0CParam : BitVec 16
deriving DecidableEq, Repr

def gPokemonCrySongTemplate : PokemonCrySong where
  trackCount := 1
  priority := 255
  tuneValue := 0x40
  tuneValue2 := 0x40+16
  volumeValue := 127
  unkCmd0DParam := 0
  releaseValue := 0
  panValue := 0x40
  tieKeyValue := 60
  tieVelocityValue := 127
  unkCmd0CParam := 60

/-- The setters with their arguments. -/
inductive Call
  | setPokemonCryVolume (val : Byte)
  | setPokemonCryPanpot (val : Byte)
  | setPokemonCryPitch (val : BitVec 16)
  | setPokemonCryLength (val : BitVec 16)
  | setPokemonCryRelease (val : Byte)
  | setPokemonCryProgress (val : Word)
  | setPokemonCryChorus (val : Byte)
  | setPokemonCryPriority (val : Byte)

def setPokemonCryPitch (x : PokemonCrySong) (val : BitVec 16) : PokemonCrySong :=
  let b := val+0x80
  let a := x.tuneValue2-x.tuneValue
  { x with
    tieKeyValue := (b.sshiftRight 8).truncate 8 &&& 0x7F
    tuneValue := (b.sshiftRight 1).truncate 8 &&& 0x7F
    tuneValue2 := (a+((b.sshiftRight 1).truncate 8 &&& 0x7F)) &&& 0x7F }

def setPokemonCryChorus (x : PokemonCrySong) (val : Byte) : PokemonCrySong :=
  if val ≠ 0 then { x with trackCount := 2, tuneValue2 := (val+x.tuneValue) &&& 0x7F }
  else { x with trackCount := 1 }

def set (x : PokemonCrySong) : Call → PokemonCrySong
  | .setPokemonCryVolume val => { x with volumeValue := val &&& 0x7F }
  | .setPokemonCryPanpot val => { x with panValue := (val+0x40) &&& 0x7F }
  | .setPokemonCryPitch val => setPokemonCryPitch x val
  | .setPokemonCryLength val => { x with unkCmd0CParam := val }
  | .setPokemonCryRelease val => { x with releaseValue := val }
  | .setPokemonCryProgress val => { x with unkCmd0DParam := val }
  | .setPokemonCryChorus val => setPokemonCryChorus x val
  | .setPokemonCryPriority val => { x with priority := val }

/-- The bytes of a word in memory. -/
def wordBytes (x : Word) : List Byte :=
  [x.truncate 8,(x >>> 8).truncate 8,(x >>> 16).truncate 8,(x >>> 24).truncate 8]

/-- The song from `part0` on, for the target of its `GOTO`. The second part begins at its eighth byte. -/
def PokemonCrySong.text (x : PokemonCrySong) (gotoTarget : Word) : List Byte :=
  [0xC8,x.tuneValue,0xB2] ++ wordBytes gotoTarget ++
    [0xC8,x.tuneValue2,0xBD,0,0xBE,x.volumeValue,0xCD,0x0D] ++ wordBytes x.unkCmd0DParam ++
    [0xCD,0x07,x.releaseValue,0xBF,x.panValue,0xCF,x.tieKeyValue,x.tieVelocityValue,0xCD,0x0C,
      x.unkCmd0CParam.truncate 8,(x.unkCmd0CParam >>> 8).truncate 8,0xCE,0xB1]

/-- What `SetPokemonCryTone` has copied and patched: the text at `part0`, in readable memory, with the
`GOTO` to its tenth byte. -/
structure Stored (mem : Word → Byte) (part0 : Word) (x : PokemonCrySong) : Prop where
  bytes : ∀ i b, (x.text (part0+9))[i]? = some b → mem (part0+BitVec.ofNat 32 i) = b
  readable : ∀ i < 33, (part0+BitVec.ofNat 32 i) >>> 25 ≠ 0

end Code

section Reading

variable {template : Word} {mem : Word → Byte} {got : Bool} {s : State} {part0 : Word} {x : PokemonCrySong}

theorem shift_or {n : ℕ} (x : BitVec n) (y : BitVec 8) :
    x.setWidth 32 <<< 8 ||| y.setWidth 32 = (x++y).setWidth 32 := by
  apply BitVec.eq_of_getLsbD_eq
  intro i hi
  simp only [BitVec.getLsbD_or,BitVec.getLsbD_shiftLeft,BitVec.getLsbD_setWidth,BitVec.getLsbD_append]
  by_cases h8 : i < 8
  · simp [h8,hi]
  · have hy : y.getLsbD i = false := BitVec.getLsbD_of_ge _ _ (by omega)
    have hi' : i-8 < 32 := by omega
    simp [h8,hi,hy,hi']

/-- Outside of the BIOS the target of a jump is the word at its place. -/
theorem operand_wordAt {a : Word} (h : a >>> 25 ≠ 0) : Control.operand template mem a = wordAt mem a := by
  have hread : Control.ldrbR3R2 template mem a = mem a := if_pos h
  unfold Control.operand
  rw [hread]
  dsimp only
  rw [shift_or,shift_or,shift_or]
  rfl

theorem append_byte {w : ℕ} (x : BitVec w) (n k : ℕ) :
    (x >>> (k+8)).truncate n++(x >>> k).truncate 8 = (x >>> k).truncate (n+8) := by
  apply BitVec.eq_of_getLsbD_eq
  intro i hi
  simp only [BitVec.getLsbD_append,BitVec.truncate,BitVec.getLsbD_setWidth,BitVec.getLsbD_ushiftRight]
  by_cases h8 : i < 8
  · simp [h8,hi]
  · have hhigh : i-8 < n := by omega
    have hsum : k+8+(i-8) = k+i := by omega
    simp [h8,hi,hhigh,hsum]

theorem wordAt_bytes {a x : Word} (h : ∀ i b, (wordBytes x)[i]? = some b → mem (a+BitVec.ofNat 32 i) = b) :
    wordAt mem a = x := by
  have h0 := h 0 _ rfl
  have h1 : mem (a+1) = (x >>> 8).truncate 8 := h 1 _ rfl
  have h2 : mem (a+2) = (x >>> 16).truncate 8 := h 2 _ rfl
  have h3 : mem (a+3) = (x >>> 24).truncate 8 := h 3 _ rfl
  rw [BitVec.add_zero] at h0
  unfold wordAt
  rw [h0,h1,h2,h3,append_byte x 8 16,append_byte x _ 8]
  have hword : (x >>> 0).truncate (8+8+8+8) = x := by simp
  exact (append_byte x _ 0).trans hword

theorem Stored.byte (h : Stored mem part0 x) {i : ℕ} {b : Byte} (hb : (x.text (part0+9))[i]? = some b) :
    mem (part0+BitVec.ofNat 32 i) = b := h.bytes i b hb

/-- An operand that is checked is read as it is. -/
theorem Stored.checked (h : Stored mem part0 x) {i : ℕ} {b : Byte} (hb : (x.text (part0+9))[i]? = some b)
    (hi : i < 33) : Control.ldrbR3R2 template mem (part0+BitVec.ofNat 32 i) = b :=
  (if_pos (h.readable i hi)).trans (h.byte hb)

theorem Stored.goto (h : Stored mem part0 x) : Control.operand template mem (part0+3) = part0+9 := by
  have hread : (part0+3) >>> 25 ≠ 0 := h.readable 3 (by decide)
  rw [operand_wordAt hread]
  apply wordAt_bytes
  intro i b hb
  have hlt : i < 4 := (List.getElem?_eq_some_iff.mp hb).1
  have hi : (x.text (part0+9))[3+i]? = some b := by
    rw [← hb]
    interval_cases i <;> rfl
  rw [BitVec.add_assoc,← h.byte hi]
  congr 2
  interval_cases i <;> rfl

/-- One command of the text. -/
theorem execute_byte {b : Byte} (hon : s.track.flags &&& 0x80 ≠ 0) (hb : mem s.track.cmdPtr = b) (hhigh : ¬b < 0x80) :
    execute template mem s got = perform template mem got b
      (s.at (s.track.cmdPtr+1) (if b < 0xBD then s.track.runningStatus else b)) := by
  have hoff : s.track.flags ≠ 0 := fun h => hon (by rw [h]; rfl)
  unfold execute Control.fetch
  rw [if_neg hoff]
  dsimp only
  rw [hb,if_neg hhigh]
  split_ifs <;> rfl

end Reading

section Playing

variable {template : Word} {mem : Word → Byte} {got : Bool} {s₀ s : State} {part0 c : Word}
  {x : PokemonCrySong} {tone : Tone}

/-- A track in the first part of its song: nothing sounds yet. -/
structure Ready (s₀ : State) (tone : Tone) (c : Word) (s : State) : Prop where
  ptr : s.track.cmdPtr = c
  on : s.track.flags &&& 0x80 ≠ 0
  wait : s.track.wait = 0
  count : s.track.unk3A = 0
  mod : s.track.mod = 0
  tone : s.track.tone = tone
  player : s.player = s₀.player
  out : s.out = s₀.out

theorem mark_on (s : Track) (m : Byte) (hs : s.flags &&& 0x80 ≠ 0) : (s.mark m).flags &&& 0x80 ≠ 0 := by
  show (s.flags ||| m) &&& 0x80 ≠ 0
  rw [BitVec.and_or_distrib_right]
  exact fun h => hs (BitVec.or_eq_zero_iff.mp h).1

/-- `TUNE`, `VOL` and `PAN`. -/
theorem Ready.parameter (h : Ready s₀ tone c s) {b : Byte} (hb : mem c = b) (hhigh : ¬b < 0x80)
    {f : Byte → Track → Track} {m : Byte}
    (hf : ∀ r, perform template mem got b r =
      some (r.edit (withOperand template mem fun y r => (f y r).mark m)))
    (hkeep : ∀ y r, f y r = { r with vol := (f y r).vol, pan := (f y r).pan, tune := (f y r).tune }) :
    ∃ s', execute template mem s got = some s' ∧ Ready s₀ tone (c+2) s' := by
  refine ⟨_,(execute_byte h.on (h.ptr ▸ hb) hhigh).trans (hf _),?_⟩
  set r : State := s.at (s.track.cmdPtr+1) (if b < 0xBD then s.track.runningStatus else b)
  have htrack : (r.edit (withOperand template mem fun y r => (f y r).mark m)).track =
      (f (Control.ldrbR3R2 template mem r.track.cmdPtr) (r.track.skip 1)).mark m := rfl
  have hplayer : (r.edit (withOperand template mem fun y r => (f y r).mark m)).player = s.player := rfl
  have hout : (r.edit (withOperand template mem fun y r => (f y r).mark m)).out = s.out := rfl
  rw [hkeep] at htrack
  have hptr : c+1+1 = c+2 := BitVec.add_assoc c 1 1
  refine ⟨?_,?_,?_,?_,?_,?_,hplayer.trans h.player,hout.trans h.out⟩
  all_goals rw [htrack]
  · show s.track.cmdPtr+1+1 = c+2
    rw [h.ptr,hptr]
  · exact mark_on _ _ h.on
  · exact h.wait
  · exact h.count
  · exact h.mod
  · exact h.tone

theorem Ready.tune (template : Word) (h : Ready s₀ tone c s) (hb : mem c = 0xC8) (got : Bool) :
    ∃ s', execute template mem s got = some s' ∧ Ready s₀ tone (c+2) s' :=
  h.parameter (f := fun y r => { r with tune := y-0x40 }) (m := 0x0C) hb (by decide)
    (fun r => by simp [perform,jumpTable,plyTune]) fun _ _ => rfl

theorem Ready.vol (template : Word) (h : Ready s₀ tone c s) (hb : mem c = 0xBE) (got : Bool) :
    ∃ s', execute template mem s got = some s' ∧ Ready s₀ tone (c+2) s' :=
  h.parameter (f := fun y r => { r with vol := y }) (m := 0x03) hb (by decide)
    (fun r => by simp [perform,jumpTable,plyVol]) fun _ _ => rfl

theorem Ready.pan (template : Word) (h : Ready s₀ tone c s) (hb : mem c = 0xBF) (got : Bool) :
    ∃ s', execute template mem s got = some s' ∧ Ready s₀ tone (c+2) s' :=
  h.parameter (f := fun y r => { r with pan := y-0x40 }) (m := 0x03) hb (by decide)
    (fun r => by simp [perform,jumpTable,plyPan]) fun _ _ => rfl

/-- A command that is executed as `r`, from its operands on. -/
theorem Ready.step (template : Word) (h : Ready s₀ tone c s) {b : Byte} (hb : mem c = b) (hhigh : ¬b < 0x80) (got : Bool)
    {f : State → State} (hf : ∀ r : State, r.track.cmdPtr = c+1 → perform template mem got b r = some (f r)) :
    ∃ r, execute template mem s got = some (f r) ∧ Ready s₀ tone (c+1) r := by
  have hptr : (s.at (s.track.cmdPtr+1) (if b < 0xBD then s.track.runningStatus else b)).track.cmdPtr = c+1 := by
    rw [← h.ptr]
    rfl
  exact ⟨_,(execute_byte h.on (h.ptr ▸ hb) hhigh).trans (hf _ hptr),hptr,h.on,h.wait,h.count,h.mod,h.tone,
    h.player,h.out⟩

theorem Ready.goto (template : Word) (h : Ready s₀ tone c s) (hb : mem c = 0xB2) {d : Word}
    (hd : Control.operand template mem (c+1) = d) (got : Bool) :
    ∃ s', execute template mem s got = some s' ∧ Ready s₀ tone d s' := by
  obtain ⟨r,hr,h⟩ := h.step template hb (by decide) got (f := State.edit (plyGoto template mem))
    (fun r _ => by simp [perform,jumpTable])
  refine ⟨_,hr,?_,h.on,h.wait,h.count,h.mod,h.tone,h.player,h.out⟩
  rw [← hd,← h.ptr]
  rfl

/-- `VOICE` with operand 0. -/
theorem Ready.voice (template : Word) (h : Ready s₀ tone c s) (hb : mem c = 0xBD) (hzero : mem (c+1) = 0) (got : Bool) :
    ∃ s', execute template mem s got = some s' ∧ Ready s₀ (toneAt template mem s₀.player.tone) (c+2) s' := by
  obtain ⟨r,hr,h⟩ := h.step template hb (by decide) got (f := fun r => r.edit (plyVoice template mem r.player.tone))
    (fun r _ => by simp [perform,jumpTable])
  refine ⟨_,hr,?_,h.on,h.wait,h.count,h.mod,?_,h.player,h.out⟩
  · show r.track.cmdPtr+1 = c+2
    rw [h.ptr,BitVec.add_assoc]
    rfl
  · show toneAt template mem (r.player.tone+12*(mem r.track.cmdPtr).zeroExtend 32) = _
    rw [h.ptr,hzero,h.player]
    congr 1
    simp

/-- `XCMD` with its second byte. -/
theorem Ready.xcmd (h : Ready s₀ tone c s) (hb : mem c = 0xCD) {n : ℕ} {f : State → State}
    (hn : (mem (c+1)).toNat = n) (hf : gXcmdTable mem n = some f) (got : Bool) :
    ∃ r, execute template mem s got = some (f r) ∧ Ready s₀ tone (c+2) r := by
  obtain ⟨r,hr,h⟩ := h.step template hb (by decide) got (f := fun r => f (r.edit (Track.skip 1)))
    (fun r hr => by
      have hxcmd : perform template mem got 0xCD r = plyXcmd mem r := by simp [perform,jumpTable]
      rw [hxcmd,plyXcmd,hr,hn,hf]
      rfl)
  refine ⟨_,hr,?_,h.on,h.wait,h.count,h.mod,h.tone,h.player,h.out⟩
  show r.track.cmdPtr+1 = c+2
  rw [h.ptr,BitVec.add_assoc]
  rfl

theorem Ready.xcmd0D (template : Word) (h : Ready s₀ tone c s) (hb : mem c = 0xCD) (hn : mem (c+1) = 0x0D) (got : Bool) :
    ∃ s', execute template mem s got = some s' ∧ Ready s₀ tone (c+6) s' := by
  obtain ⟨r,hr,h⟩ := h.xcmd hb (n := 13) (by rw [hn]; rfl) rfl got
  refine ⟨_,hr,?_,h.on,h.wait,h.count,h.mod,h.tone,h.player,h.out⟩
  show r.track.cmdPtr+4 = c+6
  rw [h.ptr,BitVec.add_assoc]
  rfl

theorem Ready.xrele (template : Word) (h : Ready s₀ tone c s) (hb : mem c = 0xCD) (hn : mem (c+1) = 0x07) {release : Byte}
    (hrelease : mem (c+2) = release) (got : Bool) :
    ∃ s', execute template mem s got = some s' ∧ Ready s₀ { tone with release := release } (c+3) s' := by
  obtain ⟨r,hr,h⟩ := h.xcmd hb (n := 7) (by rw [hn]; rfl) rfl got
  refine ⟨_,hr,?_,h.on,h.wait,h.count,h.mod,?_,h.player,h.out⟩
  · show r.track.cmdPtr+1 = c+3
    rw [h.ptr,BitVec.add_assoc]
    rfl
  · show ({ r.track.tone with release := mem r.track.cmdPtr } : Tone) = _
    rw [h.tone,h.ptr,hrelease]

/-- A track whose cry has been started: `opening` is what its note did, `n` is its count of ticks. -/
structure Held (s₀ : State) (opening : List Song.Sound) (key : Byte) (c : Word) (n : ℕ) (s : State) : Prop where
  ptr : s.track.cmdPtr = c
  on : s.track.flags &&& 0x80 ≠ 0
  wait : s.track.wait = 0
  count : s.track.unk3A.toNat = n
  mod : s.track.mod = 0
  key : s.track.key = key
  out : s.out = opening++s₀.out

theorem noteStarted_on (s : Track) (hs : s.flags &&& 0x80 ≠ 0) : (noteStarted s).flags &&& 0x80 ≠ 0 := by
  rw [noteStarted_flags,BitVec.and_assoc]
  exact hs

/-- What a note that starts keeps. -/
theorem noteStarted_keeps (s : Track) : (noteStarted s).cmdPtr = s.cmdPtr ∧ (noteStarted s).wait = s.wait ∧
    (noteStarted s).unk3A = s.unk3A ∧ (noteStarted s).mod = s.mod ∧ (noteStarted s).key = s.key := by
  have hdelay : (delayLfo s).cmdPtr = s.cmdPtr ∧ (delayLfo s).wait = s.wait ∧
      (delayLfo s).unk3A = s.unk3A ∧ (delayLfo s).mod = s.mod ∧ (delayLfo s).key = s.key := by
    unfold delayLfo
    dsimp only
    split_ifs <;> exact ⟨rfl,rfl,rfl,rfl,rfl⟩
  have hvolume (r : Track) : (setVolume r).cmdPtr = r.cmdPtr ∧ (setVolume r).wait = r.wait ∧
      (setVolume r).unk3A = r.unk3A ∧ (setVolume r).mod = r.mod ∧ (setVolume r).key = r.key := by
    unfold setVolume
    split_ifs <;> exact ⟨rfl,rfl,rfl,rfl,rfl⟩
  have hpitch (r : Track) : (setPitch r).cmdPtr = r.cmdPtr ∧ (setPitch r).wait = r.wait ∧
      (setPitch r).unk3A = r.unk3A ∧ (setPitch r).mod = r.mod ∧ (setPitch r).key = r.key := by
    unfold setPitch
    split_ifs <;> exact ⟨rfl,rfl,rfl,rfl,rfl⟩
  obtain ⟨h₁,h₂,h₃,h₄,h₅⟩ := hdelay
  obtain ⟨v₁,v₂,v₃,v₄,v₅⟩ := hvolume (delayLfo s)
  obtain ⟨p₁,p₂,p₃,p₄,p₅⟩ := hpitch (setVolume (delayLfo s))
  exact ⟨p₁.trans (v₁.trans h₁),p₂.trans (v₂.trans h₂),p₃.trans (v₃.trans h₃),p₄.trans (v₄.trans h₄),
    p₅.trans (v₅.trans h₅)⟩

/-- A note with a key and a velocity, and a command behind them. -/
theorem noteOperands_two {r : Track} {clock key velocity : Byte} (hkey : mem r.cmdPtr = key)
    (hvelocity : mem (r.cmdPtr+1) = velocity) (hend : ¬mem (r.cmdPtr+2) < 0x80) (hk : key < 0x80)
    (hv : velocity < 0x80) : noteOperands mem clock r =
      ({ r with gateTime := clock, key := key, velocity := velocity }).skip 2 := by
  unfold noteOperands
  dsimp only
  rw [hkey,hvelocity,if_neg (BitVec.not_le.mpr hk),if_neg (BitVec.not_le.mpr hv),
    if_pos (BitVec.not_lt.mp hend)]

/-- `TIE`. -/
theorem Ready.tie (template : Word) (h : Ready s₀ tone c s) (hb : mem c = 0xCF) {key velocity : Byte}
    (hkey : mem (c+1) = key) (hvelocity : mem (c+2) = velocity) (hend : ¬mem (c+3) < 0x80)
    (hk : key < 0x80) (hv : velocity < 0x80) (got : Bool) :
    ∃ s', execute template mem s got = some s' ∧
      Held s₀ (if got then [.note 0 key velocity tone] else []) key (c+3) 0 s' := by
  obtain ⟨r,hr,h⟩ := h.step template hb (by decide) got (f := plyNote mem got 0)
    (fun r _ => by simp [perform,gClockTable])
  have hadd (m n : Word) : c+m+n = c+(m+n) := BitVec.add_assoc c m n
  have hnote : noteOperands mem 0 r.track =
      ({ r.track with gateTime := 0, key := key, velocity := velocity }).skip 2 := by
    apply noteOperands_two _ _ _ hk hv
    · rw [h.ptr,hkey]
    · rw [h.ptr,hadd]
      exact hvelocity
    · rw [h.ptr,hadd]
      exact hend
  have hptr : r.track.cmdPtr+2 = c+3 := by
    rw [h.ptr,hadd]
    rfl
  have hcount : r.track.unk3A.toNat = 0 := by rw [h.count]; rfl
  refine ⟨_,hr,?_⟩
  unfold plyNote
  simp only [State.edit,hnote]
  cases got with
  | false => exact ⟨hptr,h.on,h.wait,hcount,h.mod,rfl,h.out⟩
  | true =>
    have hkeeps := noteStarted_keeps (({ r.track with gateTime := 0, key := key, velocity := velocity }).skip 2)
    refine ⟨hkeeps.1.trans hptr,noteStarted_on _ h.on,hkeeps.2.1.trans h.wait,?_,
      hkeeps.2.2.2.1.trans h.mod,hkeeps.2.2.2.2,?_⟩
    · exact (congrArg BitVec.toNat hkeeps.2.2.1).trans hcount
    · show Song.Sound.note 0 key velocity r.track.tone::r.out = [.note 0 key velocity tone]++s₀.out
      rw [h.tone,h.out]
      rfl

theorem commandLoop_execute {gots : ℕ → Bool} {fuel : ℕ} {s' : State} (hon : s.track.flags &&& 0x80 ≠ 0)
    (hwait : s.track.wait = 0) (hs' : execute template mem s (gots fuel) = some s') :
    commandLoop template mem gots (fuel+1) s = commandLoop template mem gots fuel s' := by
  have hgo : ¬(s.track.flags = 0 ∨ s.track.wait ≠ 0) := by
    rintro (hoff | hwaits)
    · exact hon (by rw [hoff]; rfl)
    · exact hwaits hwait
  rw [commandLoop,if_neg hgo,hs']
  rfl

theorem Ready.loop {gots : ℕ → Bool} {fuel : ℕ} {s' : State} (h : Ready s₀ tone c s)
    (hs' : execute template mem s (gots fuel) = some s') :
    commandLoop template mem gots (fuel+1) s = commandLoop template mem gots fuel s' :=
  commandLoop_execute h.on h.wait hs'

/-- The operands of the note are below 0x80. -/
structure PokemonCrySong.Playable (x : PokemonCrySong) : Prop where
  key : x.tieKeyValue < 0x80
  velocity : x.tieVelocityValue < 0x80

/-- The tone of the cry, with the release that was set. -/
def cryTone (template : Word) (mem : Word → Byte) (x : PokemonCrySong) (voice : Word) : Tone :=
  { toneAt template mem voice with release := x.releaseValue }

/-- The part that both parts of the song share. -/
theorem Ready.cont (hs : Stored mem part0 x) (hx : x.Playable) {tone : Tone} (h : Ready s₀ tone (part0+9) s)
    (gots : ℕ → Bool) (fuel : ℕ) :
    ∃ s', commandLoop template mem gots (fuel+6) s = commandLoop template mem gots fuel s' ∧
      Held s₀ (if gots fuel then [.note 0 x.tieKeyValue x.tieVelocityValue
        (cryTone template mem x s₀.player.tone)] else []) x.tieKeyValue (part0+27) 0 s' := by
  have hadd (m n : Word) : part0+m+n = part0+(m+n) := BitVec.add_assoc part0 m n
  have hnext {m n : Word} {i : ℕ} {b : Byte} (hb : (x.text (part0+9))[i]? = some b)
      (hi : m+n = BitVec.ofNat 32 i) : mem (part0+m+n) = b := by
    rw [hadd,hi]
    exact hs.byte hb
  obtain ⟨s₁,hs₁,h₁⟩ := h.voice template (hs.byte (i := 9) rfl) (hnext (i := 10) rfl rfl) (gots (fuel+5))
  rw [hadd] at h₁
  obtain ⟨s₂,hs₂,h₂⟩ := h₁.vol template (hs.byte (i := 11) rfl) (gots (fuel+4))
  rw [hadd] at h₂
  obtain ⟨s₃,hs₃,h₃⟩ := h₂.xcmd0D template (hs.byte (i := 13) rfl) (hnext (i := 14) rfl rfl) (gots (fuel+3))
  rw [hadd] at h₃
  obtain ⟨s₄,hs₄,h₄⟩ := h₃.xrele template (hs.byte (i := 19) rfl) (hnext (i := 20) rfl rfl)
    (hnext (i := 21) rfl rfl) (gots (fuel+2))
  rw [hadd] at h₄
  obtain ⟨s₅,hs₅,h₅⟩ := h₄.pan template (hs.byte (i := 22) rfl) (gots (fuel+1))
  rw [hadd] at h₅
  have hend : ¬mem (part0+(9+2+2+6+3+2)+3) < 0x80 := by
    rw [hnext (i := 27) rfl rfl]
    decide
  obtain ⟨s₆,hs₆,h₆⟩ := h₅.tie template (hs.byte (i := 24) rfl) (hnext (i := 25) rfl rfl)
    (hnext (i := 26) rfl rfl) hend hx.key hx.velocity (gots fuel)
  rw [hadd] at h₆
  refine ⟨s₆,?_,h₆⟩
  rw [h.loop hs₁,h₁.loop hs₂,h₂.loop hs₃,h₃.loop hs₄,h₄.loop hs₅,h₅.loop hs₆]

/-- The first part begins with its tuning and jumps into the second one. -/
theorem Ready.first (hs : Stored mem part0 x) (hx : x.Playable) {tone : Tone} (h : Ready s₀ tone part0 s)
    (gots : ℕ → Bool) (fuel : ℕ) :
    ∃ s', commandLoop template mem gots (fuel+8) s = commandLoop template mem gots fuel s' ∧
      Held s₀ (if gots fuel then [.note 0 x.tieKeyValue x.tieVelocityValue
        (cryTone template mem x s₀.player.tone)] else []) x.tieKeyValue (part0+27) 0 s' := by
  have hzero : mem part0 = 0xC8 := by
    rw [← BitVec.add_zero part0]
    exact hs.byte (i := 0) rfl
  have hadd (m n : Word) : part0+m+n = part0+(m+n) := BitVec.add_assoc part0 m n
  obtain ⟨s₁,hs₁,h₁⟩ := h.tune template hzero (gots (fuel+7))
  have htarget : Control.operand template mem (part0+2+1) = part0+9 := by
    rw [hadd]
    exact hs.goto
  obtain ⟨s₂,hs₂,h₂⟩ := h₁.goto template (hs.byte (i := 2) rfl) htarget (gots (fuel+6))
  obtain ⟨s',hs',h'⟩ := h₂.cont hs hx gots fuel
  exact ⟨s',by rw [h.loop hs₁,h₁.loop hs₂,hs'],h'⟩

theorem Ready.second (hs : Stored mem part0 x) (hx : x.Playable) {tone : Tone} (h : Ready s₀ tone (part0+7) s)
    (gots : ℕ → Bool) (fuel : ℕ) :
    ∃ s', commandLoop template mem gots (fuel+7) s = commandLoop template mem gots fuel s' ∧
      Held s₀ (if gots fuel then [.note 0 x.tieKeyValue x.tieVelocityValue
        (cryTone template mem x s₀.player.tone)] else []) x.tieKeyValue (part0+27) 0 s' := by
  obtain ⟨s₁,hs₁,h₁⟩ := h.tune template (hs.byte (i := 7) rfl) (gots (fuel+6))
  rw [BitVec.add_assoc] at h₁
  obtain ⟨s',hs',h'⟩ := h₁.cont hs hx gots fuel
  exact ⟨s',by rw [h.loop hs₁,hs'],h'⟩

end Playing

section Waiting

variable {template : Word} {mem : Word → Byte} {s₀ s : State} {part0 c : Word} {x : PokemonCrySong}
  {opening : List Song.Sound} {key : Byte} {n : ℕ}

theorem Held.step (template : Word) (h : Held s₀ opening key c n s) {b : Byte} (hb : mem c = b)
    (hhigh : ¬b < 0x80) (got : Bool) {f : State → State}
    (hf : ∀ r : State, r.track.cmdPtr = c+1 → perform template mem got b r = some (f r)) :
    ∃ r, execute template mem s got = some (f r) ∧ Held s₀ opening key (c+1) n r := by
  have hptr : (s.at (s.track.cmdPtr+1) (if b < 0xBD then s.track.runningStatus else b)).track.cmdPtr = c+1 := by
    rw [← h.ptr]
    rfl
  exact ⟨_,(execute_byte h.on (h.ptr ▸ hb) hhigh).trans (hf _ hptr),hptr,h.on,h.wait,h.count,h.mod,h.key,h.out⟩

/-- `XCMD 0x0C`, from its operand on. -/
theorem Held.xcmd0C (template : Word) (hs : Stored mem part0 x)
    (h : Held s₀ opening key (part0+27) n s) (got : Bool) :
    ∃ r, execute template mem s got = some (r.edit (plyXcmd0C mem)) ∧
      Held s₀ opening key (part0+29) n r := by
  have hcode : mem (part0+27+1) = 0x0C := by
    rw [BitVec.add_assoc]
    exact hs.byte (i := 28) rfl
  obtain ⟨r,hr,h⟩ := h.step template (hs.byte (i := 27) rfl) (by decide) got
    (f := fun r => (r.edit (Track.skip 1)).edit (plyXcmd0C mem)) (fun r hr => by
      have hxcmd : perform template mem got 0xCD r = plyXcmd mem r := by simp [perform,jumpTable]
      rw [hxcmd,plyXcmd,hr,hcode]
      rfl)
  refine ⟨_,hr,?_,h.on,h.wait,h.count,h.mod,h.key,h.out⟩
  show r.track.cmdPtr+1 = part0+29
  rw [h.ptr,BitVec.add_assoc,BitVec.add_assoc]
  rfl

theorem Stored.length (hs : Stored mem part0 x) : mem (part0+29+1)++mem (part0+29) = x.unkCmd0CParam := by
  have hlow : mem (part0+29) = x.unkCmd0CParam.truncate 8 := hs.byte (i := 29) rfl
  have hhigh : mem (part0+29+1) = (x.unkCmd0CParam >>> 8).truncate 8 := by
    rw [BitVec.add_assoc]
    exact hs.byte (i := 30) rfl
  rw [hlow,hhigh]
  have hlength : (x.unkCmd0CParam >>> 0).truncate (8+8) = x.unkCmd0CParam := by simp
  exact (append_byte x.unkCmd0CParam 8 0).trans hlength

/-- The note is held while the count is below the length: the command comes again in the next tick. -/
theorem Held.waits (template : Word) (hs : Stored mem part0 x) (h : Held s₀ opening key (part0+27) n s)
    (hn : n < x.unkCmd0CParam.toNat) (got : Bool) :
    ∃ s', execute template mem s got = some s' ∧ s'.track.wait = 1 ∧
      Held s₀ opening key (part0+27) (n+1) (s'.edit fun r => { r with wait := 0 }) := by
  obtain ⟨r,hr,h⟩ := h.xcmd0C template hs got
  have hlength : mem (r.track.cmdPtr+1)++mem r.track.cmdPtr = x.unkCmd0CParam := by rw [h.ptr,hs.length]
  have hlt : r.track.unk3A < x.unkCmd0CParam := BitVec.lt_def.mpr (by rw [h.count]; exact hn)
  have hcmd : plyXcmd0C mem r.track =
      { r.track with cmdPtr := r.track.cmdPtr-2, unk3A := r.track.unk3A+1, wait := 1 } := by
    rw [plyXcmd0C,hlength,if_pos hlt]
  have hsucc : (r.track.unk3A+1).toNat = n+1 := by
    have hbound := x.unkCmd0CParam.isLt
    rw [BitVec.toNat_add,h.count]
    exact Nat.mod_eq_of_lt (show n+1 < 2^16 by omega)
  simp only [State.edit,hcmd] at hr
  refine ⟨_,hr,rfl,?_,h.on,rfl,hsucc,h.mod,h.key,h.out⟩
  show r.track.cmdPtr-2 = part0+27
  rw [h.ptr]
  bv_omega

/-- Then its tie ends, and the track with it. -/
theorem Held.ends (template : Word) (hs : Stored mem part0 x)
    (h : Held s₀ opening key (part0+27) x.unkCmd0CParam.toNat s) (gots : ℕ → Bool) (fuel : ℕ) :
    ∃ s', commandLoop template mem gots (fuel+4) s = some s' ∧ s'.track.flags = 0 ∧
      s'.out = .fine::.endtie key::(opening++s₀.out) := by
  obtain ⟨r,hr,h₁⟩ := h.xcmd0C template hs (gots (fuel+3))
  have hlength : mem (r.track.cmdPtr+1)++mem r.track.cmdPtr = x.unkCmd0CParam := by rw [h₁.ptr,hs.length]
  have hnot : ¬r.track.unk3A < x.unkCmd0CParam := by
    rw [BitVec.lt_def,h₁.count]
    exact lt_irrefl _
  have hcmd : plyXcmd0C mem r.track = { r.track.skip 2 with unk3A := 0 } := by
    rw [plyXcmd0C,hlength,if_neg hnot]
  simp only [State.edit,hcmd] at hr
  set r₁ : State := ⟨{ r.track.skip 2 with unk3A := 0 },r.player,r.out⟩ with hr₁
  have h₂ : Held s₀ opening key (part0+31) 0 r₁ := by
    refine ⟨?_,h₁.on,h₁.wait,rfl,h₁.mod,h₁.key,h₁.out⟩
    show r.track.cmdPtr+2 = part0+31
    rw [h₁.ptr,BitVec.add_assoc]
    rfl
  obtain ⟨r₂,hr₂,h₃⟩ := h₂.step template (hs.byte (i := 31) rfl) (by decide) (gots (fuel+2))
    (f := plyEndtie mem) (fun r _ => by simp [perform,jumpTable])
  have hnext : mem (part0+31+1) = 0xB1 := by
    rw [BitVec.add_assoc]
    exact hs.byte (i := 32) rfl
  have hendtie : plyEndtie mem r₂ = { r₂ with out := .endtie r₂.track.key::r₂.out } :=
    plyEndtie_open (by rw [h₃.ptr,hnext]; decide)
  rw [hendtie] at hr₂
  set r₃ : State := ⟨r₂.track,r₂.player,.endtie r₂.track.key::r₂.out⟩ with hr₃
  have hptr : mem r₃.track.cmdPtr = 0xB1 := by
    show mem r₂.track.cmdPtr = 0xB1
    rw [h₃.ptr,hnext]
  have hon : r₃.track.flags &&& 0x80 ≠ 0 := h₃.on
  have hfine : ∃ u : State, execute template mem r₃ (gots (fuel+1)) = some (plyFine u) ∧ u.out = r₃.out := by
    rw [execute_byte hon hptr (by decide),perform_fine]
    exact ⟨_,rfl,rfl⟩
  obtain ⟨u,hu,hout⟩ := hfine
  refine ⟨plyFine u,?_,rfl,?_⟩
  · rw [commandLoop_execute h.on h.wait hr,commandLoop_execute h₂.on h₂.wait hr₂,
      commandLoop_execute hon h₃.wait hu]
    exact if_pos (.inl rfl)
  · show Song.Sound.fine::u.out = _
    rw [hout]
    show Song.Sound.fine::.endtie r₂.track.key::r₂.out = _
    rw [h₃.key,h₃.out]

end Waiting

section Lengths

variable {template : Word} {mem : Word → Byte} {s₀ s s' : State} {part0 : Word} {x : PokemonCrySong}
  {opening : List Song.Sound} {key : Byte} {n : ℕ}

/-- Without a modulation the LFO of a tick does nothing. -/
theorem tickEnd_idle (hon : s.track.flags &&& 0x80 ≠ 0) (hmod : s.track.mod = 0) :
    tickEnd s = s.edit fun r => { r with wait := r.wait-1 } := by
  have hoff : s.track.flags ≠ 0 := fun h => hon (by rw [h]; rfl)
  have hlfo : lfo { s.track with wait := s.track.wait-1 } = { s.track with wait := s.track.wait-1 } :=
    if_pos (.inr hmod)
  rw [tickEnd,if_neg hoff]
  show State.mk (lfo { s.track with wait := s.track.wait-1 }) s.player s.out = _
  rw [hlfo]
  rfl

/-- What is left of a cry behind `n` ticks: its count, or nothing. -/
inductive Cries (s₀ : State) (opening : List Song.Sound) (key : Byte) (c : Word) (length n : ℕ) (s : State) : Prop
  | sounds (hn : n ≤ length) (h : Held s₀ opening key c n s) (hrun : s.track.flags &&& 0x40 = 0)
  | ended (hn : length < n) (hoff : s.track.flags = 0) (hout : s.out = .fine::.endtie key::(opening++s₀.out))

/-- A tick in which the note is held. -/
theorem Held.loop_waits (template : Word) (hs : Stored mem part0 x) (h : Held s₀ opening key (part0+27) n s)
    (hn : n < x.unkCmd0CParam.toNat) (got : ℕ → Bool) (fuel : ℕ) :
    ∃ s', commandLoop template mem got (fuel+2) s = some s' ∧
      Held s₀ opening key (part0+27) (n+1) (tickEnd s') := by
  obtain ⟨s₁,hs₁,hwait,h₁⟩ := h.waits template hs hn (got (fuel+1))
  have hstop : commandLoop template mem got (fuel+1) s₁ = some s₁ :=
    if_pos (.inr (by rw [hwait]; decide))
  refine ⟨s₁,by rw [commandLoop_execute h.on h.wait hs₁,hstop],?_⟩
  have hidle : tickEnd s₁ = s₁.edit fun r => { r with wait := r.wait-1 } :=
    tickEnd_idle (show s₁.track.flags &&& 0x80 ≠ 0 from h₁.on) (show s₁.track.mod = 0 from h₁.mod)
  have hzero : s₁.track.wait-1 = 0 := by
    rw [hwait]
    rfl
  rw [hidle]
  show Held s₀ opening key (part0+27) (n+1) ⟨{ s₁.track with wait := s₁.track.wait-1 },s₁.player,s₁.out⟩
  rw [hzero]
  exact h₁

/-- The commands of a tick from the count on, behind others that do not restart the track. -/
theorem Held.loop (template : Word) (hs : Stored mem part0 x) (h : Held s₀ opening key (part0+27) n s)
    (hn : n ≤ x.unkCmd0CParam.toNat) (got : ℕ → Bool) (fuel : ℕ) {before : State} {m : ℕ}
    (hbefore : commandLoop template mem got m before = commandLoop template mem got (fuel+4) s)
    (hrun : before.track.flags &&& 0x40 = 0) :
    ∃ s', commandLoop template mem got m before = some s' ∧
      Cries s₀ opening key (part0+27) x.unkCmd0CParam.toNat (n+1) (tickEnd s') := by
  by_cases hlt : n < x.unkCmd0CParam.toNat
  · obtain ⟨s',hs',h'⟩ := h.loop_waits template hs hlt got (fuel+2)
    rw [← hbefore] at hs'
    exact ⟨s',hs',.sounds hlt h' (tickEnd_running ((commandLoop_edits hs').running hrun))⟩
  · obtain rfl : n = x.unkCmd0CParam.toNat := by omega
    obtain ⟨s',hs',hoff,hout⟩ := h.ends template hs got fuel
    have hend : tickEnd s' = s' := if_pos hoff
    refine ⟨s',hbefore.trans hs',.ended (by omega) ?_ ?_⟩
    · rw [hend,hoff]
    · rw [hend,hout]

theorem Cries.tick (template : Word) (hs : Stored mem part0 x)
    (h : Cries s₀ opening key (part0+27) x.unkCmd0CParam.toNat n s) (got : ℕ → Bool) (fuel : ℕ) :
    ∃ s', tick template mem got (fuel+4) s = some s' ∧
      Cries s₀ opening key (part0+27) x.unkCmd0CParam.toNat (n+1) s' := by
  cases h with
  | ended hn hoff hout =>
    refine ⟨s,?_,.ended (by omega) hoff hout⟩
    rw [Song.tick,if_pos (by rw [hoff]; rfl)]
  | sounds hn h hrun =>
    obtain ⟨s',hs',h'⟩ := h.loop template hs hn got fuel rfl hrun
    refine ⟨tickEnd s',?_,h'⟩
    rw [Song.tick,if_neg h.on,if_neg (not_not.mpr hrun)]
    dsimp only
    rw [hs',Option.map_some]

theorem Cries.ticks (template : Word) (hs : Stored mem part0 x)
    (h : Cries s₀ opening key (part0+27) x.unkCmd0CParam.toNat n s) (gots : List (ℕ → Bool)) (fuel : ℕ) :
    ∃ s', ticks template mem (fuel+4) gots s = some s' ∧
      Cries s₀ opening key (part0+27) x.unkCmd0CParam.toNat (n+gots.length) s' := by
  induction gots generalizing s n with
  | nil => exact ⟨s,rfl,h⟩
  | cons got gots ih =>
    obtain ⟨s₁,hs₁,h₁⟩ := h.tick template hs got fuel
    obtain ⟨s',hs',h'⟩ := ih h₁
    refine ⟨s',?_,?_⟩
    · rw [Song.ticks,hs₁]
      exact hs'
    · have hlen : n+(got::gots).length = n+1+gots.length := by
        simp only [List.length_cons]
        omega
      rw [hlen]
      exact h'

end Lengths

section Setters

end Setters

section Chorus

theorem toNat_mask (y : Byte) : (y &&& 0x7F).toNat = y.toNat % 128 := by
  rw [BitVec.toNat_and]
  exact Nat.and_two_pow_sub_one_eq_mod y.toNat 7

/-- On seven bits, what was added can be taken away. -/
theorem mask_apart (a y : Byte) : ((a+y &&& 0x7F)-y) &&& 0x7F = a &&& 0x7F := by
  apply BitVec.eq_of_toNat_eq
  rw [toNat_mask,toNat_mask,BitVec.toNat_sub,toNat_mask,BitVec.toNat_add]
  omega

/-- What the calls say about the second part: how far it is tuned from the first one. -/
def chorus (val : Byte) : Call → Byte
  | .setPokemonCryChorus val' => if val' ≠ 0 then val' else val
  | _ => val

theorem set_apart {x : PokemonCrySong} {val : Byte} (h : (x.tuneValue2-x.tuneValue) &&& 0x7F = val &&& 0x7F)
    (y : Call) : ((set x y).tuneValue2-(set x y).tuneValue) &&& 0x7F = chorus val y &&& 0x7F := by
  cases y with
  | setPokemonCryPitch b => exact (mask_apart _ _).trans h
  | setPokemonCryChorus b =>
    simp only [set,setPokemonCryChorus,chorus]
    split_ifs
    · exact mask_apart _ _
    · exact h
  | setPokemonCryVolume | setPokemonCryPanpot | setPokemonCryLength | setPokemonCryRelease
  | setPokemonCryProgress | setPokemonCryPriority => exact h

/-- However the setters are called, a change of the pitch keeps the chorus: the two parts stay tuned apart
by the last value that was not 0, on the seven bits of an operand. -/
theorem chorus_kept (calls : List Call) : let x := Runs.run set gPokemonCrySongTemplate calls
    (x.tuneValue2-x.tuneValue) &&& 0x7F = calls.foldl chorus 16 &&& 0x7F := by
  have hrun (x : PokemonCrySong) (val : Byte) (h : (x.tuneValue2-x.tuneValue) &&& 0x7F = val &&& 0x7F) :
      ((Runs.run set x calls).tuneValue2-(Runs.run set x calls).tuneValue) &&& 0x7F =
        calls.foldl chorus val &&& 0x7F := by
    induction calls generalizing x val with
    | nil => exact h
    | cons y calls ih => exact ih _ _ (set_apart h y)
  exact hrun gPokemonCrySongTemplate 16 (by decide)

end Chorus

section Players

open Sequencer

/-- `IsPokemonCryPlaying` on the first track of a player. -/
def isPokemonCryPlaying (q : Sequencer.State) (t : ℕ) : Bool :=
  match q.links.head t with
  | none => false
  | some c => q.links.owner c = some t

/-- A cry player as `SetPokemonCryTone` looks at it: whether it is free, and its clock. -/
def cryFree (q : Sequencer.State) (t : ℕ) : Bool := (q.track t).flags = 0 && !isPokemonCryPlaying q t

/-- The search of `SetPokemonCryTone` from index `i` on. -/
def searchCry : List (Bool × Word) → ℕ → Word → ℕ → ℕ
  | [], _, _, maxClockIndex => maxClockIndex
  | (free,clock)::rest, i, maxClock, maxClockIndex =>
    if free then i
    else if maxClock < clock then searchCry rest (i+1) clock i
    else searchCry rest (i+1) maxClock maxClockIndex

/-- `SetPokemonCryTone` up to its label `start_song`. -/
def cryPlayer (q : Sequencer.State) (clock : ℕ → Word) (tracks : List ℕ) : ℕ :=
  searchCry (tracks.map fun t => (cryFree q t,clock t)) 0 0 0

variable {q : Sequencer.State} {lists : ℕ → List ChanId} {t : ℕ}

/-- A cry is playing when its track owns a channel. -/
theorem isPokemonCryPlaying_iff (h : WellFormed q lists) :
    isPokemonCryPlaying q t = true ↔ ∃ c, q.links.owner c = some t := by
  unfold isPokemonCryPlaying
  constructor
  · intro hplay
    cases hhead : q.links.head t with
    | none => simp [hhead] at hplay
    | some c => exact ⟨c,by simpa [hhead] using hplay⟩
  · rintro ⟨c,hc⟩
    have hmem : c ∈ lists t := (h.owned.mem t c).mpr hc
    have hlinked := (h.owned.linked t (h.owned.live_of_mem hmem)).head
    cases hlist : lists t with
    | nil => simp [hlist] at hmem
    | cons d rest =>
      have hd : q.links.owner d = some t := (h.owned.mem t d).mp (by simp [hlist])
      rw [hlinked,hlist]
      simp [hd]

/-- The channel-free tracks are those the search may take at once. -/
theorem cryFree_iff (h : WellFormed q lists) :
    cryFree q t = true ↔ (q.track t).flags = 0 ∧ ∀ c, q.links.owner c ≠ some t := by
  have hplay := isPokemonCryPlaying_iff (t := t) h
  unfold cryFree
  cases hp : isPokemonCryPlaying q t with
  | false =>
    have hnone : ∀ c, q.links.owner c ≠ some t := fun c hc => by
      rw [hplay.mpr ⟨c,hc⟩] at hp
      cases hp
    simp [hnone]
  | true =>
    obtain ⟨c,hc⟩ := hplay.mp hp
    simp only [Bool.not_true,Bool.and_false,Bool.false_eq_true,false_iff,not_and,not_forall,not_not]
    exact fun _ => ⟨c,hc⟩

/-- What was seen before index `i` is not free and has no larger clock than the best one. -/
theorem searchCry_spec (before ps : List (Bool × Word)) (maxClock : Word) (k : ℕ)
    (hbusy : ∀ x ∈ before, x.1 = false) (hmax : ∀ x ∈ before, x.2 ≤ maxClock)
    (hk : (∃ free, before[k]? = some (free,maxClock)) ∨ maxClock = 0 ∧ k = 0) (hne : before++ps ≠ []) :
    ∃ free clock, (before++ps)[searchCry ps before.length maxClock k]? = some (free,clock) ∧
      (free = true ∨ ∀ x ∈ before++ps, x.1 = false ∧ x.2 ≤ clock) := by
  induction ps generalizing before maxClock k with
  | nil =>
    rw [List.append_nil] at hne ⊢
    rcases hk with ⟨free,hk⟩ | ⟨rfl,rfl⟩
    · exact ⟨free,maxClock,hk,.inr fun x hx => ⟨hbusy x hx,hmax x hx⟩⟩
    · obtain ⟨x,rest,rfl⟩ := List.exists_cons_of_ne_nil hne
      refine ⟨x.1,x.2,rfl,.inr fun y hy => ⟨hbusy y hy,?_⟩⟩
      exact BitVec.le_def.mpr ((BitVec.le_def.mp (hmax y hy)).trans (Nat.zero_le _))
  | cons p ps ih =>
    obtain ⟨free,clock⟩ := p
    have hsplit : before++(free,clock)::ps = before++[(free,clock)]++ps := by simp
    have hhere (rest : List (Bool × Word)) : (before++(free,clock)::rest)[before.length]? = some (free,clock) := by
      simp
    have hlength : (before++[(free,clock)]).length = before.length+1 := by simp
    rw [searchCry]
    by_cases hfree : free = true
    · rw [if_pos hfree]
      exact ⟨free,clock,hhere ps,.inl hfree⟩
    · have hfree : free = false := by simpa using hfree
      have hbusy' : ∀ x ∈ before++[(free,clock)], x.1 = false := by
        intro x hx
        rcases List.mem_append.mp hx with hx | hx
        · exact hbusy x hx
        · rw [List.mem_singleton.mp hx]
          exact hfree
      have hle {m : Word} (hm : maxClock ≤ m) (hc : clock ≤ m) :
          ∀ x ∈ before++[(free,clock)], x.2 ≤ m := by
        intro x hx
        rcases List.mem_append.mp hx with hx | hx
        · exact BitVec.le_trans (hmax x hx) hm
        · rw [List.mem_singleton.mp hx]
          exact hc
      rw [if_neg (by simp [hfree]),hsplit,← hlength]
      by_cases hlt : maxClock < clock
      · rw [if_pos hlt]
        exact ih _ _ _ hbusy' (hle (BitVec.le_of_lt hlt) (BitVec.le_refl _)) (.inl ⟨free,hhere []⟩) (by simp)
      · rw [if_neg hlt]
        refine ih _ _ _ hbusy' (hle (BitVec.le_refl _) (BitVec.not_lt.mp hlt)) ?_ (by simp)
        refine hk.imp_left fun ⟨other,hother⟩ => ⟨other,?_⟩
        rw [List.getElem?_append_left (List.getElem?_eq_some_iff.mp hother).1]
        exact hother

/-- In every state that the sequencer reaches, a new cry takes a player whose track is off and owns no
channel, if there is one; otherwise it takes one that has played as long as any other. -/
theorem cry_choice (player : ℕ → Sequencer.Player) (track : ℕ → Sequencer.Track)
    (head : ℕ → Option ChanId) (n : Fin 13) {es : List Event}
    (h : runEvents (initial player track head n) es = some q) (clock : ℕ → Word) {tracks : List ℕ}
    (hne : tracks ≠ []) :
    ∃ t, tracks[cryPlayer q clock tracks]? = some t ∧
      (((q.track t).flags = 0 ∧ ∀ c, q.links.owner c ≠ some t) ∨
        ∀ u ∈ tracks, ((q.track u).flags ≠ 0 ∨ ∃ c, q.links.owner c = some u) ∧ clock u ≤ clock t) := by
  obtain ⟨q',hq',lists,hwf⟩ := runEvents_preserves es _ ⟨_,initial_wellFormed player track head n⟩
  obtain rfl : q' = q := Option.some.inj (hq'.symm.trans h)
  obtain ⟨free,m,hfound,hbest⟩ := searchCry_spec [] (tracks.map fun t => (cryFree q' t,clock t)) 0 0
    (by simp) (by simp) (.inr ⟨rfl,rfl⟩) (by simpa using hne)
  obtain ⟨t,ht,htm⟩ : ∃ t, tracks[cryPlayer q' clock tracks]? = some t ∧ (cryFree q' t,clock t) = (free,m) := by
    simpa [List.getElem?_map,cryPlayer] using hfound
  obtain ⟨rfl,rfl⟩ := Prod.mk.inj htm
  refine ⟨t,ht,hbest.imp (fun hfree => (cryFree_iff hwf).mp hfree) fun hall u hu => ?_⟩
  obtain ⟨hbusy,hle⟩ := hall _ (List.mem_append_right _ (List.mem_map_of_mem hu))
  refine ⟨?_,hle⟩
  by_contra hnot
  have hfree : cryFree q' u = true := (cryFree_iff hwf).mpr (by simpa using hnot)
  rw [hfree] at hbusy
  cases hbusy

theorem cry_choice_second :
    let q := initial (fun _ => ⟨[0x3000000],0,false,0,0,0,0,0⟩) (fun _ => ⟨0,0,0,0,0,0,0⟩) (fun _ => none) 5
    ∃ q', runEvents q [.mPlayStart 0 ⟨1,255⟩] = some q' ∧
      ∃ t, [0x3000000,0x30000A0][cryPlayer q' (fun _ => 0) [0x3000000,0x30000A0]]? = some t ∧
        (((q'.track t).flags = 0 ∧ ∀ c, q'.links.owner c ≠ some t) ∨
          ∀ u ∈ [0x3000000,0x30000A0], ((q'.track u).flags ≠ 0 ∨ ∃ c, q'.links.owner c = some u) ∧
            (0 : Word) ≤ 0) := by
  intro q
  have hsome : (runEvents q [.mPlayStart 0 ⟨1,255⟩]).isSome = true := by decide
  obtain ⟨q',hq'⟩ := Option.isSome_iff_exists.mp hsome
  exact ⟨q',hq',cry_choice _ _ _ _ hq' (fun _ => 0) (by decide)⟩

end Players

end Cry
end M4a
end AgbTools
