import AgbTools.M4aSong
import AgbTools.M4aVolume

/-! The volumes and the pitch that a track keeps, its flags for them, and its LFO, over whole runs of
ticks and calls. -/
namespace AgbTools
namespace M4a
namespace Song

section Code

/-- The second walk of `MPlayMain` on a track, its channels apart. -/
def updateTrack (s : Track) : Track :=
  if s.flags &&& 0x80 ≠ 0 ∧ s.flags &&& 0x0F ≠ 0 then
    let s := trkVolPitSet s
    { s with flags := s.flags &&& 0xF0 }
  else s

/-- What the controls of a player do to each of its tracks that they are called for. -/
inductive Call
  | m4aMPlayVolumeControl (volume : BitVec 16)
  | m4aMPlayPitchControl (pitch : BitVec 16)
  | m4aMPlayPanpotControl (pan : Byte)
  | m4aMPlayModDepthSet (modDepth : Byte)
  | m4aMPlayLFOSpeedSet (lfoSpeed : Byte)
  | fadeOutBody (fadeOV : BitVec 16)

def control (s : Track) (y : Call) : Track :=
  if s.flags &&& 0x80 = 0 then s
  else
    match y with
    | .m4aMPlayVolumeControl volume => ({ s with volX := (volume / 4).truncate 8 }).mark 0x03
    | .m4aMPlayPitchControl pitch =>
      ({ s with keyShiftX := (pitch.sshiftRight 8).truncate 8, pitX := pitch.truncate 8 }).mark 0x0C
    | .m4aMPlayPanpotControl pan => ({ s with panX := pan }).mark 0x03
    | .m4aMPlayModDepthSet modDepth =>
      if modDepth = 0 then clearModM { s with mod := modDepth } else { s with mod := modDepth }
    | .m4aMPlayLFOSpeedSet lfoSpeed =>
      if lfoSpeed = 0 then clearModM { s with lfoSpeed := lfoSpeed } else { s with lfoSpeed := lfoSpeed }
    | .fadeOutBody fadeOV => ({ s with volX := (fadeOV >>> 2).truncate 8 }).mark 0x03

/-- What happens to a track: a tick, the second walk, a control, the start and the end of a song, and
`m4aMPlayImmInit`. -/
inductive Event
  | tick (got : ℕ → Bool)
  | update
  | control (y : Call)
  | start (cmdPtr : Word)
  | stop
  | immInit

variable (template : Word) (mem : Word → Byte) (fuel : ℕ)

def event (s : State) : Event → Option State
  | .tick got => tick template mem got fuel s
  | .update => some (s.edit updateTrack)
  | .control y => some (s.edit fun s => control s y)
  | .start cmdPtr => some (s.edit fun s => { s with flags := 0xC0, cmdPtr := cmdPtr })
  | .stop => some (s.edit fun s => { s with flags := 0 })
  | .immInit =>
    some (s.edit fun s => if s.flags &&& 0x80 ≠ 0 ∧ s.flags &&& 0x40 ≠ 0 then freshTrack s else s)

def events : List Event → State → Option State
  | [], s => some s
  | e::es, s => (event template mem fuel s e).bind (events es)

end Code

section Caches

variable {template : Word} {mem : Word → Byte} {fuel : ℕ} {s s' r : Track}

/-- The volumes that the track keeps are those of its fields. -/
def VolumeSet (s : Track) : Prop := s.volMR = s.levelRight ∧ s.volML = s.levelLeft

def PitchSet (s : Track) : Prop :=
  s.keyM = BitVec.ofInt 8 (s.pitch / 256) ∧ s.pitM = BitVec.ofInt 8 s.pitch

/-- What is not marked is set, and an LFO that is off is at rest. -/
structure Coherent (s : Track) : Prop where
  volume : s.flags &&& 0x01 = 0 → VolumeSet s
  pitch : s.flags &&& 0x04 = 0 → PitchSet s

/-- An LFO that is off is at rest. -/
def Rests (s : Track) : Prop := s.lfoSpeed = 0 ∨ s.mod = 0 → s.modM = 0

theorem marked {x m b : Byte} (hb : m &&& b = b) (hne : b ≠ 0) : (x ||| m) &&& b ≠ 0 := by
  rw [BitVec.and_or_distrib_right,hb]
  exact fun h => hne (BitVec.or_eq_zero_iff.mp h).2

theorem unmarked {x m b : Byte} (h : (x ||| m) &&& b = 0) : x &&& b = 0 := by
  rw [BitVec.and_or_distrib_right] at h
  exact (BitVec.or_eq_zero_iff.mp h).1

/-- A mark does not touch the other flags. -/
theorem mark_other {x m b : Byte} (hm : m &&& 0xF0 = 0) (hb : 0xF0 &&& b = b) : (x ||| m) &&& b = x &&& b := by
  have hnone : m &&& b = 0 := by
    rw [← hb,← BitVec.and_assoc,hm]
    exact BitVec.zero_and
  rw [BitVec.and_or_distrib_right,hnone]
  exact BitVec.or_zero

/-- What is left of the flags when the marks are gone. -/
theorem unmark_other {x b : Byte} (hb : 0xF0 &&& b = b) : x &&& 0xFA &&& 0xF0 &&& b = x &&& b := by
  have hplain : x &&& 0xFA &&& 0xF0 = x &&& 0xF0 := BitVec.and_assoc x _ _
  rw [hplain,BitVec.and_assoc,hb]

theorem clear_part {x b : Byte} (hx : x &&& 0x0F = 0) (hb : 0x0F &&& b = b) : x &&& b = 0 := by
  rw [← hb,← BitVec.and_assoc,hx]
  exact BitVec.zero_and

/-- A change of the volumes is marked. -/
theorem Coherent.markVolume (h : Coherent s) (m : Byte) (hm : m &&& 0x01 = 0x01) (hr : r.flags = s.flags)
    (hpitch : PitchSet s → PitchSet r) : Coherent (r.mark m) := by
  constructor
  · intro hflags
    exact absurd hflags (marked hm (by decide))
  · intro hflags
    have hclear : s.flags &&& 0x04 = 0 := by
      rw [← hr]
      exact unmarked hflags
    exact hpitch (h.pitch hclear)

theorem Coherent.markPitch (h : Coherent s) (m : Byte) (hm : m &&& 0x04 = 0x04) (hr : r.flags = s.flags)
    (hvolume : VolumeSet s → VolumeSet r) : Coherent (r.mark m) := by
  constructor
  · intro hflags
    have hclear : s.flags &&& 0x01 = 0 := by
      rw [← hr]
      exact unmarked hflags
    exact hvolume (h.volume hclear)
  · intro hflags
    exact absurd hflags (marked hm (by decide))

/-- What changes neither side. -/
theorem Coherent.keep (h : Coherent s) (hr : r.flags = s.flags) (hvolume : VolumeSet s → VolumeSet r)
    (hpitch : PitchSet s → PitchSet r) : Coherent r :=
  ⟨fun hflags => hvolume (h.volume (hr ▸ hflags)),fun hflags => hpitch (h.pitch (hr ▸ hflags))⟩

/-- A new value of the LFO is marked on the side that it modulates. -/
theorem Coherent.modulate (h : Coherent s) (modM lfoSpeedC : Byte) :
    Coherent (({ s with modM := modM, lfoSpeedC := lfoSpeedC }).mark (if s.modT = 0 then 0x0C else 0x03)) := by
  by_cases hmodt : s.modT = 0
  · rw [if_pos hmodt]
    refine h.markPitch 0x0C (by decide) rfl fun hvolume => ?_
    simpa [VolumeSet,Track.levelRight,Track.levelLeft,Track.level,Track.side,hmodt] using hvolume
  · rw [if_neg hmodt]
    refine h.markVolume 0x03 (by decide) rfl fun hpitch => ?_
    have hmodt' : ¬s.modT = 0#8 := hmodt
    simpa [PitchSet,Track.pitch,hmodt'] using hpitch

@[simp] theorem setPitch_volume (s : Track) : VolumeSet (setPitch s) ↔ VolumeSet s := by
  unfold setPitch
  split_ifs <;> rfl

@[simp] theorem setVolume_pitch (s : Track) : PitchSet (setVolume s) ↔ PitchSet s := by
  unfold setVolume
  split_ifs <;> rfl

theorem Coherent.setVolume (h : Coherent s) : VolumeSet (setVolume s) := by
  unfold Song.setVolume
  split_ifs with hflags
  · exact ⟨rfl,rfl⟩
  · exact h.volume (not_not.mp hflags)

theorem Coherent.setPitch (h : Coherent s) : PitchSet (setPitch s) := by
  unfold Song.setPitch
  split_ifs with hflags
  · exact ⟨rfl,rfl⟩
  · exact h.pitch (not_not.mp hflags)

theorem setVolume_coherent (h : Coherent s) : Coherent (setVolume s) :=
  ⟨fun _ => h.setVolume,fun hflags => (setVolume_pitch s).mpr (h.pitch (by simpa using hflags))⟩

/-- `TrkVolPitSet` sets both sides, whatever was marked. -/
theorem trkVolPitSet_sets (h : Coherent s) : VolumeSet (trkVolPitSet s) ∧ PitchSet (trkVolPitSet s) :=
  ⟨(setPitch_volume _).mpr h.setVolume,(setVolume_coherent h).setPitch⟩

theorem delayLfo_coherent (h : Coherent s) : Coherent (delayLfo s) := by
  have hdelay : Coherent { s with lfoDelayC := s.lfoDelay } := h.keep rfl id id
  unfold delayLfo
  dsimp only
  split_ifs
  · exact hdelay
  · exact hdelay.modulate 0 0

theorem Edit.coherent (hedit : Edit s r) (h : Coherent s) : Coherent r := by
  cases hedit with
  | steer heq hflags =>
    rw [heq]
    exact h.keep hflags id id
  | aside heq =>
    rw [heq]
    exact h.keep rfl id id
  | volume heq =>
    rw [heq]
    exact h.markVolume 0x03 (by decide) rfl id
  | pitch heq =>
    rw [heq]
    exact h.markPitch 0x0C (by decide) rfl id
  | modt modT =>
    exact ⟨fun hflags => absurd hflags (marked (by decide) (by decide)),
      fun hflags => absurd hflags (marked (by decide) (by decide))⟩
  | lfos _ | mod _ => exact h.keep rfl id id
  | stopLfo lfoSpeed mod =>
    have hset : Coherent { s with lfoSpeed := lfoSpeed, mod := mod } := h.keep rfl id id
    exact hset.modulate 0 0
  | started =>
    obtain ⟨hvolume,hpitch⟩ := trkVolPitSet_sets (delayLfo_coherent h)
    exact ⟨fun _ => hvolume,fun _ => hpitch⟩

theorem delayLfo_rests (h : Rests s) : Rests (delayLfo s) := by
  unfold delayLfo
  dsimp only
  split_ifs
  · exact h
  · exact fun _ => rfl

theorem setVolume_rests (h : Rests s) : Rests (Song.setVolume s) := by
  unfold Song.setVolume
  split_ifs <;> exact h

theorem trkVolPitSet_rests (h : Rests s) : Rests (trkVolPitSet s) := by
  have hset : Rests (setPitch (setVolume s)) := by
    unfold Song.setPitch
    split_ifs <;> exact setVolume_rests h
  exact hset

theorem Edit.rests (hedit : Edit s r) (h : Rests s) : Rests r := by
  cases hedit with
  | steer heq _ | aside heq | volume heq | pitch heq =>
    rw [heq]
    exact h
  | modt modT => exact h
  | lfos hspeed => exact fun hoff => h (.inr (hoff.resolve_left hspeed))
  | mod hmod => exact fun hoff => h (.inl (hoff.resolve_right hmod))
  | stopLfo lfoSpeed mod => exact fun _ => rfl
  | started => exact trkVolPitSet_rests (delayLfo_rests h)

/-- What the commands and the calls keep of a track that plays. -/
structure Kept (s : Track) : Prop extends Coherent s where
  rests : Rests s

theorem Edits.kept (hedits : Edits s r) (h : Kept s) : Kept r := by
  induction hedits with
  | refl => exact h
  | tail _ hedit ih => exact ⟨hedit.coherent ih.toCoherent,hedit.rests ih.rests⟩

theorem lfo_kept (h : Kept s) : Kept (lfo s) := by
  unfold lfo
  split_ifs with hoff
  · exact h
  · exact ⟨h.keep rfl id id,h.rests⟩
  · by_cases hsame : s.lfoModM = s.modM
    · rw [moveLfo_same hsame]
      exact ⟨h.keep rfl id id,h.rests⟩
    · rw [moveLfo_moved hsame]
      exact ⟨h.modulate _ _,fun hoff' => absurd hoff' hoff⟩

theorem freshTrack_volume (s : Track) : VolumeSet (freshTrack s) := by
  have hlevel : (freshTrack s).level = 0 := by simp [freshTrack,Track.level]
  have hright : (freshTrack s).levelRight = 0 := by simp [Track.levelRight,hlevel]
  have hleft : (freshTrack s).levelLeft = 0 := by simp [Track.levelLeft,hlevel]
  exact ⟨hright.symm,hleft.symm⟩

theorem freshTrack_pitch (s : Track) : PitchSet (freshTrack s) := by
  have hpitch : (freshTrack s).pitch = 0 := by simp [freshTrack,Track.pitch]
  unfold PitchSet
  rw [hpitch]
  exact ⟨rfl,rfl⟩

theorem freshTrack_kept (s : Track) : Kept (freshTrack s) where
  volume _ := freshTrack_volume s
  pitch _ := freshTrack_pitch s
  rests _ := rfl

/-- The track has a song that it does not have to start anew. -/
def Plays (s : Track) : Prop := s.flags &&& 0x80 ≠ 0 ∧ s.flags &&& 0x40 = 0

instance (s : Track) : Decidable (Plays s) := inferInstanceAs (Decidable (_ ∧ _))

theorem Plays.flags (h : Plays s) : s.flags ≠ 0 := by
  intro hoff
  exact h.1 (by rw [hoff]; rfl)

theorem control_kept (y : Call) (h : Kept s) : Kept (control s y) := by
  unfold control
  split_ifs
  · exact h
  cases y with
  | m4aMPlayVolumeControl | m4aMPlayPanpotControl | fadeOutBody =>
    exact ⟨h.markVolume 0x03 (by decide) rfl id,h.rests⟩
  | m4aMPlayPitchControl => exact ⟨h.markPitch 0x0C (by decide) rfl id,h.rests⟩
  | m4aMPlayModDepthSet modDepth =>
    dsimp only
    split_ifs with hmod
    · exact (Edit.stopLfo s s.lfoSpeed modDepth).edits.kept h
    · exact (Edit.mod s hmod).edits.kept h
  | m4aMPlayLFOSpeedSet lfoSpeed =>
    dsimp only
    split_ifs with hspeed
    · exact (Edit.stopLfo s lfoSpeed s.mod).edits.kept h
    · exact (Edit.lfos s hspeed).edits.kept h

/-- A control may mark a track, and does no more to its flags. -/
theorem control_flags (s : Track) (y : Call) : ∃ m, (control s y).flags = s.flags ||| m ∧ m &&& 0xF0 = 0 := by
  have hkeep : s.flags = s.flags ||| 0 := BitVec.or_zero.symm
  have hmodulation (p : Prop) [Decidable p] : (if p then 0x0C else 0x03 : Byte) &&& 0xF0 = 0 := by
    split_ifs <;> decide
  unfold control
  split_ifs
  · exact ⟨0,hkeep,rfl⟩
  cases y with
  | m4aMPlayVolumeControl | m4aMPlayPanpotControl | fadeOutBody => exact ⟨0x03,rfl,rfl⟩
  | m4aMPlayPitchControl => exact ⟨0x0C,rfl,rfl⟩
  | m4aMPlayModDepthSet | m4aMPlayLFOSpeedSet =>
    dsimp only
    split_ifs
    · exact ⟨_,rfl,hmodulation _⟩
    · exact ⟨0,hkeep,rfl⟩

theorem control_plays {y : Call} (h : Plays (control s y)) : Plays s := by
  obtain ⟨m,hm,hside⟩ := control_flags s y
  obtain ⟨hexists,hstart⟩ := h
  rw [hm,mark_other hside (by decide)] at hexists hstart
  exact ⟨hexists,hstart⟩

theorem updateTrack_kept (h : Kept s) : Kept (updateTrack s) := by
  unfold updateTrack
  split_ifs
  · obtain ⟨hvolume,hpitch⟩ := trkVolPitSet_sets h.toCoherent
    exact ⟨⟨fun _ => hvolume,fun _ => hpitch⟩,trkVolPitSet_rests h.rests⟩
  · exact h

theorem updateTrack_plays (h : Plays (updateTrack s)) : Plays s := by
  unfold updateTrack at h
  split_ifs at h
  · obtain ⟨hexists,hstart⟩ := h
    simp only [trkVolPitSet,setPitch_flags,setVolume_flags] at hexists hstart
    rw [unmark_other (by decide)] at hexists hstart
    exact ⟨hexists,hstart⟩
  · exact h

/-- Behind the second walk nothing is marked, so both sides are set. -/
theorem updateTrack_sets (hplays : Plays (updateTrack s)) (h : Kept s) :
    VolumeSet (updateTrack s) ∧ PitchSet (updateTrack s) := by
  have hkept := updateTrack_kept h
  have hclear : (updateTrack s).flags &&& 0x0F = 0 := by
    obtain ⟨hexists,_⟩ := updateTrack_plays hplays
    unfold updateTrack
    split_ifs with hmarked
    · simp only [trkVolPitSet,setPitch_flags,setVolume_flags]
      exact (BitVec.and_assoc _ _ _).trans BitVec.and_zero
    · exact not_not.mp fun hflags => hmarked ⟨hexists,hflags⟩
  exact ⟨hkept.volume (clear_part hclear (by decide)),hkept.pitch (clear_part hclear (by decide))⟩

end Caches

section Runs

variable {template : Word} {mem : Word → Byte} {fuel : ℕ} {s s' : State}

theorem tick_kept {got : ℕ → Bool} (hs : Plays s.track → Kept s.track)
    (h : tick template mem got fuel s = some s') (hplays : Plays s'.track) : Kept s'.track := by
  unfold tick at h
  by_cases hoff : s.track.flags &&& 0x80 = 0
  · rw [if_pos hoff] at h
    cases h
    exact hs hplays
  rw [if_neg hoff] at h
  obtain ⟨s₁,hs₁,rfl⟩ := Option.map_eq_some_iff.mp h
  have hbefore : Kept (if s.track.flags &&& 0x40 ≠ 0 then s.edit freshTrack else s).track := by
    split_ifs with hstart
    · exact freshTrack_kept s.track
    · exact hs ⟨hoff,not_not.mp hstart⟩
  unfold tickEnd at hplays ⊢
  rcases commandLoop_edits hs₁ with hended | hedits
  · rw [if_pos hended] at hplays
    exact absurd hended hplays.flags
  · have hkept := hedits.kept hbefore
    split_ifs with hended
    · exact hkept
    · exact lfo_kept (s := { s₁.track with wait := s₁.track.wait-1 }) ⟨hkept.keep rfl id id,hkept.rests⟩

theorem event_kept {e : Event} (hs : Plays s.track → Kept s.track)
    (h : event template mem fuel s e = some s') (hplays : Plays s'.track) : Kept s'.track := by
  cases e with
  | tick got => exact tick_kept hs h hplays
  | update =>
    cases h
    exact updateTrack_kept (hs (updateTrack_plays hplays))
  | control y =>
    cases h
    exact control_kept y (hs (control_plays hplays))
  | start cmdPtr =>
    cases h
    exact absurd hplays.2 (show ¬(0xC0 : Byte) &&& 0x40 = 0 by decide)
  | stop =>
    cases h
    exact absurd rfl hplays.flags
  | immInit =>
    cases h
    simp only [State.edit] at hplays ⊢
    split_ifs with hstart
    · exact freshTrack_kept _
    · rw [if_neg hstart] at hplays
      exact hs hplays

theorem events_kept {es : List Event} (hs : Plays s.track → Kept s.track)
    (h : events template mem fuel es s = some s') (hplays : Plays s'.track) : Kept s'.track := by
  induction es generalizing s with
  | nil =>
    cases h
    exact hs hplays
  | cons e es ih =>
    obtain ⟨s₁,hs₁,hrest⟩ := Option.bind_eq_some_iff.mp h
    exact ih (event_kept hs hs₁) hrest

theorem events_append (es es' : List Event) (s : State) :
    events template mem fuel (es++es') s =
      (events template mem fuel es s).bind (events template mem fuel es') := by
  induction es generalizing s with
  | nil => rfl
  | cons e es ih =>
    simp only [List.cons_append,events,Option.bind_assoc]
    congr 1
    funext s₁
    exact ih s₁

/-- However ticks, controls, starts and stops follow each other, a track that plays has behind the
second walk of `MPlayMain` the volumes and the pitch of its fields, and an LFO that is off is at rest. -/
theorem events_current {es : List Event} (hstart : s.track.flags = 0xC0)
    (h : events template mem fuel (es++[.update]) s = some s') (hplays : Plays s'.track) :
    VolumeSet s'.track ∧ PitchSet s'.track ∧ Rests s'.track := by
  rw [events_append] at h
  obtain ⟨s₁,hs₁,hlast⟩ := Option.bind_eq_some_iff.mp h
  cases hlast
  have hnone : Plays s.track → Kept s.track := fun hs =>
    absurd hs.2 (by rw [hstart]; decide)
  have hkept := events_kept hnone hs₁ (updateTrack_plays hplays)
  obtain ⟨hvolume,hpitch⟩ := updateTrack_sets hplays hkept
  exact ⟨hvolume,hpitch,(updateTrack_kept hkept).rests⟩

/-- A song with a volume, a modulation and a note. -/
def shortSong : Word → Byte := Control.songAt [0xBE,0x64,0xC4,0x28,0xE7,0x3C,0x7F,0x98,0xB1]

theorem events_current_shortSong :
    ∃ s', events 0x8100000 shortSong 9
        ([.tick fun _ => true,.update,.control (.m4aMPlayVolumeControl 0x80),.tick fun _ => true]++[.update])
        ⟨.opened 0x8000000,⟨fun _ => 0,⟨0,0,0,0,0⟩,0⟩,[]⟩ = some s' ∧ s'.track.volMR = 0x32 ∧
      VolumeSet s'.track ∧ PitchSet s'.track ∧ Rests s'.track := by
  have hplays : (events 0x8100000 shortSong 9
      ([.tick fun _ => true,.update,.control (.m4aMPlayVolumeControl 0x80),.tick fun _ => true]++[.update])
      ⟨.opened 0x8000000,⟨fun _ => 0,⟨0,0,0,0,0⟩,0⟩,[]⟩).any
        (fun s => decide (Plays s.track ∧ s.track.volMR = 0x32)) = true := by decide
  obtain ⟨s',hs',hdecide⟩ := (Option.any_eq_true _ _).mp hplays
  obtain ⟨hplays,hvolume⟩ := of_decide_eq_true hdecide
  exact ⟨s',hs',hvolume,events_current rfl hs' hplays⟩

end Runs

section Swing

variable {s : Track}

theorem lfo_plays (h : Plays s) : Plays (lfo s) := by
  have hmark (p : Prop) [Decidable p] (r : Track) (hr : r.flags = s.flags) :
      Plays (r.mark (if p then 0x0C else 0x03)) := by
    have hside : (if p then 0x0C else 0x03 : Byte) &&& 0xF0 = 0 := by split_ifs <;> decide
    unfold Plays Track.mark
    dsimp only
    rw [mark_other hside (by decide),mark_other hside (by decide),hr]
    exact h
  unfold lfo
  split_ifs
  · exact h
  · exact h
  · by_cases hsame : s.lfoModM = s.modM
    · rw [moveLfo_same hsame]
      exact h
    · rw [moveLfo_moved hsame]
      exact hmark _ _ rfl

theorem lfo_iterate_plays (h : Plays s) (n : ℕ) : Plays (lfo^[n] s) := by
  induction n with
  | zero => exact h
  | succ n ih =>
    rw [Function.iterate_succ_apply']
    exact lfo_plays ih

variable {template : Word} {mem : Word → Byte} {fuel : ℕ}

end Swing

end Song
end M4a
end AgbTools
