import AgbTools.M4aMixer

/-! The envelope of a sampled channel, as SoundMainRAM computes it before the mixing loops, and the
frames of a note that has been released. -/
namespace AgbTools
namespace M4a
namespace Envelope

open Runs RotatingWord

section Channel

/-- The header of a wave: its address, the byte 3, and the size. -/
structure WaveData where
  address : Word
  flags : Byte
  size : Word

/-- The fields of a SoundChannel that the envelope uses. -/
structure SoundChannel where
  status : Byte
  rightVolume : Byte
  leftVolume : Byte
  attack : Byte
  decay : Byte
  sustain : Byte
  release : Byte
  ev : Byte
  er : Byte
  el : Byte
  iev : Byte
  iel : Byte
  freq : Word
  fw : Word
  ct : Word
  cp : Word
  wav : WaveData

/-- Where SoundMainRAM goes on after the envelope: to the next channel at _081DD240, or to the
mixing of this one. -/
inductive Stage
  | nextChannel (c : SoundChannel)
  | mix (c : SoundChannel)

/-- `muls` and `lsrs .., 8` -/
def scaledBy (ev rate : Byte) : Byte := ((ev.setWidth 32*rate.setWidth 32 : Word) >>> 8).setWidth 8

/-- _081DCFB0 -/
def SoundChannel.off (c : SoundChannel) : Stage := .nextChannel {c with status := 0}

def SoundChannel.start (c : SoundChannel) : SoundChannel :=
  {c with status := if c.wav.flags &&& 0xC0 = 0 then 0x3 else 0x3 ||| 0x10,
          cp := c.wav.address+0x10+c.ct, ct := c.wav.size-c.ct, ev := 0, fw := 0}

/-- _081DCFF8 -/
def SoundChannel.attacked (c : SoundChannel) : Stage :=
  if c.ev.toNat+c.attack.toNat < 0xFF then .mix {c with ev := c.ev+c.attack}
  else .mix {c with ev := 0xFF, status := c.status-1}

/-- _081DCFC8 -/
def SoundChannel.echo (c : SoundChannel) : Stage :=
  if c.iev = 0 then c.off else .mix {c with ev := c.iev, status := c.status ||| 0x4}

/-- From _081DCF60 to _081DD006. -/
def SoundChannel.envelope (c : SoundChannel) : Stage :=
  if c.status &&& 0xC7 = 0 then .nextChannel c
  else if c.status &&& 0x80 ≠ 0 then
    if c.status &&& 0x40 ≠ 0 then c.off else c.start.attacked
  else if c.status &&& 0x4 ≠ 0 then
    let r0 := c.iel-1
    if 1 < c.iel then .mix {c with iel := r0} else {c with iel := r0}.off
  else if c.status &&& 0x40 ≠ 0 then
    let r5 := scaledBy c.ev c.release
    if c.iev < r5 then .mix {c with ev := r5} else c.echo
  else if c.status &&& 0x3 = 0x2 then
    let r5 := scaledBy c.ev c.decay
    if c.sustain < r5 then .mix {c with ev := r5}
    else if c.sustain = 0 then c.echo
    else .mix {c with ev := c.sustain, status := c.status-1}
  else if c.status &&& 0x3 = 0x3 then c.attacked
  else .mix c

/-- From _081DD006: the volumes of the two sides. -/
def SoundChannel.volumes (masterVolume : Byte) (c : SoundChannel) : SoundChannel :=
  let r5 : Word := ((masterVolume.setWidth 32+1)*c.ev.setWidth 32) >>> 4
  {c with er := ((c.rightVolume.setWidth 32*r5) >>> 8).setWidth 8,
          el := ((c.leftVolume.setWidth 32*r5) >>> 8).setWidth 8}

/-- What the mixing loops leave: the new position, and the status, which they clear at the end of
the wave; sub_81DD264 marks it at its first entry. -/
structure Mixed where
  fw : Word
  ct : Word
  cp : Word
  marks : Bool
  ends : Bool

def Mixed.apply (m : Mixed) (c : SoundChannel) : SoundChannel :=
  {c with fw := m.fw, ct := m.ct, cp := m.cp,
          status := if m.ends then 0 else if m.marks then c.status ||| 0x20 else c.status}

/-- What the players do to a channel between two frames when they start no note on it: new volumes
and pitch, and a release or the stop of the track. -/
structure Edit where
  rightVolume : Byte
  leftVolume : Byte
  freq : Word
  release : Bool
  stop : Bool

def Edit.apply (d : Edit) (c : SoundChannel) : SoundChannel :=
  {c with rightVolume := d.rightVolume, leftVolume := d.leftVolume, freq := d.freq,
          status := if d.stop then 0
                    else if d.release ∧ c.status &&& 0xC7 ≠ 0 then c.status ||| 0x40 else c.status}

structure Frame where
  edit : Edit
  masterVolume : Byte
  mixed : Mixed

/-- A frame in which the channel is processed. -/
def frame (c : SoundChannel) (f : Frame) : SoundChannel :=
  match (f.edit.apply c).envelope with
  | .nextChannel c => c
  | .mix c => f.mixed.apply (c.volumes f.masterVolume)

end Channel

section Release

theorem scaledBy_toNat (ev rate : Byte) : (scaledBy ev rate).toNat = ev.toNat*rate.toNat / 256 := by
  have hp : ev.toNat*rate.toNat ≤ 255*255 := Nat.mul_le_mul (by omega) (by omega)
  have he := ev.isLt
  have hr := rate.isLt
  rw [scaledBy,BitVec.toNat_setWidth,BitVec.toNat_ushiftRight,BitVec.toNat_mul,
    BitVec.toNat_setWidth,BitVec.toNat_setWidth,Nat.mod_eq_of_lt (by omega : ev.toNat < 2^32),
    Nat.mod_eq_of_lt (by omega : rate.toNat < 2^32),Nat.mod_eq_of_lt (by omega),
    Nat.shiftRight_eq_div_pow]
  omega

/-- The release lowers a volume that is not zero. -/
theorem scaledBy_lt {ev : Byte} (h : ev ≠ 0) (rate : Byte) : scaledBy ev rate < ev := by
  have hpos : 0 < ev.toNat := by
    rw [Nat.pos_iff_ne_zero]
    exact fun h0 => h (BitVec.eq_of_toNat_eq h0)
  have hp : ev.toNat*rate.toNat ≤ ev.toNat*255 := Nat.mul_le_mul_left _ (by omega)
  rw [BitVec.lt_def,scaledBy_toNat]
  omega

def SoundChannel.Released (c : SoundChannel) : Prop := c.status &&& 0x40 ≠ 0

/-- How many frames a released channel has left after the next one: those of the echo, and before
the echo one for each step of the volume. -/
def SoundChannel.framesLeft (c : SoundChannel) : ℕ :=
  if c.status &&& 0x4 ≠ 0 then c.iel.toNat-1 else c.ev.toNat+1+(c.iel.toNat-1)

variable {c : SoundChannel}

theorem SoundChannel.Released.busy (h : c.Released) : c.status &&& 0xC7 ≠ 0 := by
  intro h0
  apply h
  rw [show (0x40 : Byte) = 0xC7 &&& 0x40 from rfl,← BitVec.and_assoc,h0]
  rfl

/-- Outside the start and the echo a released channel takes the branch of the release. -/
theorem SoundChannel.Released.envelope_open (h : c.Released) (hstart : c.status &&& 0x80 = 0)
    (hecho : c.status &&& 0x4 = 0) :
    c.envelope = if c.iev < scaledBy c.ev c.release then .mix {c with ev := scaledBy c.ev c.release}
      else c.echo := by
  have hrel : c.status &&& 0x40 ≠ 0 := h
  rw [envelope,if_neg h.busy,if_neg (not_not.mpr hstart),if_neg (not_not.mpr hecho),if_pos hrel]

/-- One case for each phase of a released channel: ended together with its start, the countdown of
the echo, the release, and the change from the release to the echo. -/
theorem SoundChannel.Released.envelope_cases (h : c.Released) :
    c.envelope = c.off ∨
    (c.status &&& 0x4 ≠ 0 ∧ c.iel ≤ 1 ∧ c.envelope = {c with iel := c.iel-1}.off) ∨
    (c.status &&& 0x4 ≠ 0 ∧ 1 < c.iel ∧ c.envelope = .mix {c with iel := c.iel-1}) ∨
    (c.status &&& 0x4 = 0 ∧ c.iev < scaledBy c.ev c.release ∧
      c.envelope = .mix {c with ev := scaledBy c.ev c.release}) ∨
    (c.status &&& 0x4 = 0 ∧ c.iev ≠ 0 ∧
      c.envelope = .mix {c with ev := c.iev, status := c.status ||| 0x4}) := by
  by_cases hstart : c.status &&& 0x80 = 0
  swap
  · have hrel : c.status &&& 0x40 ≠ 0 := h
    rw [envelope,if_neg h.busy,if_pos hstart,if_pos hrel]
    exact .inl rfl
  by_cases hecho : c.status &&& 0x4 = 0
  swap
  · rw [envelope,if_neg h.busy,if_neg (not_not.mpr hstart),if_pos hecho]
    by_cases hlast : 1 < c.iel
    · exact .inr (.inr (.inl ⟨hecho,hlast,if_pos hlast⟩))
    · exact .inr (.inl ⟨hecho,BitVec.not_lt.mp hlast,if_neg hlast⟩)
  rw [h.envelope_open hstart hecho]
  by_cases hloud : c.iev < scaledBy c.ev c.release
  · exact .inr (.inr (.inr (.inl ⟨hecho,hloud,if_pos hloud⟩)))
  rw [if_neg hloud,SoundChannel.echo]
  by_cases hsilent : c.iev = 0
  · exact .inl (if_pos hsilent)
  · exact .inr (.inr (.inr (.inr ⟨hecho,hsilent,if_neg hsilent⟩)))

theorem SoundChannel.Released.envelope_release (h : c.Released) (hphase : c.status &&& 0x84 = 0) :
    c.envelope = if c.iev < scaledBy c.ev c.release then .mix {c with ev := scaledBy c.ev c.release}
      else c.echo := by
  have hstart : c.status &&& 0x80 = 0 := by
    rw [show (0x80 : Byte) = 0x84 &&& 0x80 from rfl,← BitVec.and_assoc,hphase]
    rfl
  have hecho : c.status &&& 0x4 = 0 := by
    rw [show (0x4 : Byte) = 0x84 &&& 0x4 from rfl,← BitVec.and_assoc,hphase]
    rfl
  exact h.envelope_open hstart hecho

/-- A change that sets other bits than the echo of the status keeps the release and the countdown. -/
theorem SoundChannel.Released.kept (h : c.Released) {d : SoundChannel} {m : Byte}
    (hm : m &&& 0x4 = 0) (hstatus : d.status = c.status ||| m) (hev : d.ev = c.ev)
    (hiel : d.iel = c.iel) : d.Released ∧ d.framesLeft = c.framesLeft := by
  constructor
  · intro h0
    rw [hstatus,BitVec.and_or_distrib_right] at h0
    exact h (BitVec.or_eq_zero_iff.mp h0).1
  · have hecho : d.status &&& 0x4 = c.status &&& 0x4 := by
      rw [hstatus,BitVec.and_or_distrib_right,hm]
      exact BitVec.or_zero
    rw [framesLeft,framesLeft,hecho,hev,hiel]

theorem Mixed.apply_released (m : Mixed) (h : c.Released) :
    (m.apply c).status = 0 ∨ (m.apply c).Released ∧ (m.apply c).framesLeft = c.framesLeft := by
  by_cases hends : m.ends
  · exact .inl (if_pos hends)
  right
  by_cases hmarks : m.marks
  · exact h.kept (by decide : (0x20 : Byte) &&& 0x4 = 0) ((if_neg hends).trans (if_pos hmarks))
      rfl rfl
  · exact h.kept (by decide : (0 : Byte) &&& 0x4 = 0)
      (((if_neg hends).trans (if_neg hmarks)).trans BitVec.or_zero.symm) rfl rfl

theorem Edit.apply_released (d : Edit) (h : c.Released) :
    (d.apply c).status = 0 ∨ (d.apply c).Released ∧ (d.apply c).framesLeft = c.framesLeft := by
  by_cases hstop : d.stop
  · exact .inl (if_pos hstop)
  right
  by_cases hrel : d.release ∧ c.status &&& 0xC7 ≠ 0
  · exact h.kept (by decide : (0x40 : Byte) &&& 0x4 = 0) ((if_neg hstop).trans (if_pos hrel))
      rfl rfl
  · exact h.kept (by decide : (0 : Byte) &&& 0x4 = 0)
      (((if_neg hstop).trans (if_neg hrel)).trans BitVec.or_zero.symm) rfl rfl

/-- The envelope of a released channel ends it or takes a frame off its countdown. -/
theorem SoundChannel.Released.envelope_lowers (h : c.Released) :
    (∃ d, c.envelope = .nextChannel d ∧ d.status = 0) ∨
    ∃ d, c.envelope = .mix d ∧ d.Released ∧ d.framesLeft < c.framesLeft := by
  obtain he | ⟨_,_,he⟩ | ⟨hecho,hmore,he⟩ | ⟨hecho,hloud,he⟩ | ⟨hecho,_,he⟩ := h.envelope_cases
  · exact .inl ⟨_,he,rfl⟩
  · exact .inl ⟨_,he,rfl⟩
  · refine .inr ⟨_,he,h,?_⟩
    have hsub : (c.iel-1).toNat = c.iel.toNat-1 := BitVec.toNat_sub_of_le (BitVec.le_of_lt hmore)
    have hlt : 1 < c.iel.toNat := hmore
    simp only [framesLeft,if_pos hecho,hsub]
    omega
  · refine .inr ⟨_,he,h,?_⟩
    have hev : c.ev ≠ 0 := by
      intro h0
      have hzero : (scaledBy 0 c.release).toNat = 0 := by
        rw [scaledBy_toNat]
        simp
      rw [h0,BitVec.lt_def] at hloud
      omega
    have hlt : (scaledBy c.ev c.release).toNat < c.ev.toNat := scaledBy_lt hev c.release
    simp only [framesLeft,if_neg (not_not.mpr hecho)]
    omega
  · have hset : (c.status ||| 0x4) &&& 0x4 ≠ 0 := by
      intro h0
      rw [BitVec.and_or_distrib_right] at h0
      exact absurd (BitVec.or_eq_zero_iff.mp h0).2 (by decide)
    refine .inr ⟨_,he,?_,?_⟩
    · intro h0
      rw [BitVec.and_or_distrib_right] at h0
      exact h (BitVec.or_eq_zero_iff.mp h0).1
    · simp only [framesLeft,if_pos hset,if_neg (not_not.mpr hecho)]
      omega

theorem frame_released (h : c.Released) (f : Frame) :
    (frame c f).status = 0 ∨ (frame c f).Released ∧ (frame c f).framesLeft < c.framesLeft := by
  obtain hend | ⟨hrel,hleft⟩ := f.edit.apply_released h
  · left
    rw [frame,SoundChannel.envelope,if_pos (by rw [hend]; rfl)]
    exact hend
  obtain ⟨d,hd,hstatus⟩ | ⟨d,hd,hrel',hlt⟩ := hrel.envelope_lowers
  · left
    rw [frame,hd]
    exact hstatus
  have hvolumes : (d.volumes f.masterVolume).Released := hrel'
  obtain hend | ⟨hmixed,hsame⟩ := f.mixed.apply_released hvolumes
  · left
    rw [frame,hd]
    exact hend
  · right
    rw [frame,hd]
    refine ⟨hmixed,?_⟩
    rw [hsame]
    exact hleft ▸ hlt

theorem frame_off (h : c.status = 0) (f : Frame) : (frame c f).status = 0 := by
  have hedit : (f.edit.apply c).status = 0 := by
    simp [Edit.apply,h]
  rw [frame,SoundChannel.envelope,if_pos (by rw [hedit]; rfl)]
  exact hedit

end Release

section Mixing

/-- The channel as the mixing loops see it. -/
def SoundChannel.forMixing (c : SoundChannel) (type : Byte) : Mixer.Channel :=
  ⟨c.status,type,c.er,c.el,c.fw,c.freq,c.ct,c.cp⟩

/-- The loops write the position, and clear the status at the end of the wave. -/
def Mixes (c : Mixer.Channel) (s : Mixer.State) : Prop :=
  (∃ m : Mixed, m.marks = false ∧ s.channel =
    {c with fw := m.fw, ct := m.ct, cp := m.cp, status := if m.ends then 0 else c.status}) ∧
  (s.pc = .l081DD174 → s.r2 = 0)

theorem Mixes.next {c : Mixer.Channel} {f : Mixer.Frame} {s : Mixer.State} (h : Mixes c s) :
    Mixes c (Mixer.next f s) := by
  obtain ⟨⟨m,hm,hc⟩,hr2⟩ := h
  unfold Mixer.next
  cases hpc : s.pc with
  | l081DD174 =>
    refine ⟨⟨{m with ends := true},hm,?_⟩,by simp⟩
    simp [hc,hr2 hpc]
  | l081DD228 => exact ⟨⟨{m with fw := s.r9},hm,by simp [hc]⟩,by simp⟩
  | l081DD22C => exact ⟨⟨{m with ct := s.r2, cp := s.r3},hm,by simp [hc]⟩,by simp⟩
  | _ =>
    dsimp only
    refine ⟨⟨m,hm,?_⟩,?_⟩ <;> (try split_ifs) <;> simp_all

/-- After any number of steps of the loops the channel is one that `Mixed.apply` gives. -/
theorem mixing_applies (f : Mixer.Frame) (c : SoundChannel) (type : Byte) {s : Mixer.State}
    (hc : s.channel = c.forMixing type) (hpc : s.pc ≠ .l081DD174) (n : ℕ) :
    ∃ m : Mixed, ((Mixer.next f)^[n] s).channel = (m.apply c).forMixing type := by
  have hstart : Mixes (c.forMixing type) s :=
    ⟨⟨⟨c.fw,c.ct,c.cp,false,false⟩,rfl,by simp [hc,SoundChannel.forMixing]⟩,fun h => absurd h hpc⟩
  have hrun : Mixes (c.forMixing type) ((Mixer.next f)^[n] s) := by
    induction n with
    | zero => exact hstart
    | succ n ih =>
      rw [Function.iterate_succ_apply']
      exact ih.next
  obtain ⟨⟨m,hm,heq⟩,_⟩ := hrun
  exact ⟨m,by simp [heq,SoundChannel.forMixing,Mixed.apply,hm]⟩

end Mixing

/-- A released channel is off after finitely many frames, whatever the players and the mixing do to
it; in the release a volume above the echo volume gets smaller. -/
theorem released_note_ends (c : SoundChannel) (h : c.status &&& 0x40 ≠ 0) :
    (c.status &&& 0x84 = 0 → c.ev ≠ 0 → scaledBy c.ev c.release < c.ev ∧
      (c.iev < scaledBy c.ev c.release →
        c.envelope = .mix {c with ev := scaledBy c.ev c.release}) ∧
      (scaledBy c.ev c.release ≤ c.iev → c.envelope = c.echo)) ∧
    ∀ fs : List Frame, c.framesLeft < fs.length → (run frame c fs).status = 0 := by
  have hrel : c.Released := h
  refine ⟨fun hphase hev => ⟨scaledBy_lt hev _,fun hloud => ?_,fun hlow => ?_⟩,fun fs hl => ?_⟩
  · rw [hrel.envelope_release hphase,if_pos hloud]
  · rw [hrel.envelope_release hphase,if_neg (BitVec.not_lt.mpr hlow)]
  · have hoff : ∀ (c : SoundChannel) (f : Frame), c.status = 0 → (frame c f).status = 0 :=
      fun _ f hc => frame_off hc f
    have hlower : ∀ (c : SoundChannel) (f : Frame), c.Released → (frame c f).status = 0 ∨
        (frame c f).Released ∧ (frame c f).framesLeft < c.framesLeft :=
      fun _ f hc => frame_released hc f
    exact run_ends hoff hlower h hl

/-- A note that fades to a short echo: two frames of release, the echo, and its end. -/
def fadingChannel : SoundChannel :=
  ⟨0x42,0x80,0x80,0xFF,0,0xFF,0x80,0x60,0,0,0x20,2,0,0,0,0,⟨0,0,0⟩⟩

def idleFrame : Frame := ⟨⟨0x80,0x80,0,false,false⟩,15,⟨0,0,0,false,false⟩⟩

theorem released_note_ends_fading :
    (run frame fadingChannel (List.replicate 99 idleFrame)).status = 0 :=
  (released_note_ends fadingChannel (by decide)).2 _ (by rw [List.length_replicate]; decide)

end Envelope
end M4a
end AgbTools
