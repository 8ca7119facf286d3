import AgbTools.M4aSequencer

/-! The fades of a player: `MPlayFadeOut`, `m4aMPlayFadeOutTemporarily` and `m4aMPlayFadeIn`, and the
calls of `FadeOutBody` that they take, among other events of the sequencer. -/
namespace AgbTools
namespace M4a
namespace Sequencer

open OwnedLists

section Kinds

inductive Fade
  | out | temporary | up
deriving DecidableEq

def Fade.fadeOV : Fade → BitVec 16
  | .out => 64 <<< 2
  | .temporary => 64 <<< 2 ||| 1
  | .up => 0 <<< 2 ||| 2

def mPlayFadeOut (s : State) (p : ℕ) (speed : BitVec 16) : State :=
  s.setPlayer p { s.player p with fadeOC := speed, fadeOI := speed, fadeOV := Fade.out.fadeOV }

def m4aMPlayFadeOutTemporarily (s : State) (p : ℕ) (speed : BitVec 16) : State :=
  s.setPlayer p { s.player p with fadeOC := speed, fadeOI := speed, fadeOV := Fade.temporary.fadeOV }

def m4aMPlayFadeIn (s : State) (p : ℕ) (speed : BitVec 16) : State :=
  s.setPlayer p
    { s.player p with
      fadeOC := speed, fadeOI := speed, fadeOV := Fade.up.fadeOV
      status := (s.player p).status &&& 0x7FFFFFFF }

def Fade.begin : Fade → State → ℕ → BitVec 16 → State
  | .out => mPlayFadeOut
  | .temporary => m4aMPlayFadeOutTemporarily
  | .up => m4aMPlayFadeIn

/-- The number of volume steps of a fade. -/
def Fade.steps : Fade → ℕ
  | .out => 16
  | .temporary => 17
  | .up => 16

/-- The volume that the step `m` gives. -/
def Fade.volume : Fade → ℕ → ℕ
  | .out,m => 64-4*m
  | .temporary,m => 64-4*m
  | .up,m => 4*m

/-- `fadeOV` after `m` steps. -/
def Fade.value : Fade → ℕ → BitVec 16
  | .out,m => BitVec.ofNat 16 (256-16*m)
  | .temporary,m => BitVec.ofNat 16 (257-16*m)
  | .up,m => BitVec.ofNat 16 (2+16*m)

theorem Fade.volume_le (k : Fade) : ∀ m ≤ 16, k.volume m ≤ 64 := by
  intro m hm
  cases k <;> simp only [Fade.volume] <;> omega

theorem Fade.volume_monotone (k : Fade) :
    if k = .up then Monotone k.volume else Antitone k.volume := by
  cases k <;> intro m m' hm <;> simp only [Fade.volume] <;> omega

/-- Every existing track of the list has the volume of the step `m`, the others are as before. -/
def Given (k : Fade) (m : ℕ) (ts : List ℕ) (s s' : State) : Prop :=
  ∀ t, s'.track t = if t ∈ ts ∧ s.Exists t then
    { s.track t with
      volX := BitVec.ofNat 8 (k.volume m), flags := (s.track t).flags ||| volChg }
    else s.track t

/-- The end of a fade. -/
def Ended (p : ℕ) (s s' : State) : Fade → Prop
  | .out => (s'.player p).status = 0x80000000 ∧ ∀ t ∈ (s.player p).tracks, (s'.track t).flags = 0
  | .temporary => (s'.player p).status = (s.player p).status ||| 0x80000000 ∧ s'.track = s.track
  | .up => (s'.player p).status = (s.player p).status ∧ Given .up 16 (s.player p).tracks s s'

/-- An event that neither starts the player nor a fade of it. -/
def Undisturbing (p : ℕ) : Event → Prop
  | .mPlayStart q _ => q ≠ p
  | .fade q _ _ => q ≠ p
  | _ => True

def callsFade (p : ℕ) : Event → Bool
  | .fadeOutBody q => q == p
  | _ => false

/-- The number of calls of `FadeOutBody` for the player. -/
def fadeCalls (p : ℕ) (es : List Event) : ℕ := es.countP (callsFade p)

end Kinds

section Frame

variable {s s' : State}

@[simp] theorem setPlayer_self (s : State) (p : ℕ) (x : Player) : (s.setPlayer p x).player p = x :=
  Function.update_self ..

theorem setPlayer_of_ne (s : State) {p q : ℕ} (h : p ≠ q) (x : Player) :
    (s.setPlayer q x).player p = s.player p := Function.update_of_ne h ..

/-- What a fade works with is the same in both players; the status may differ. -/
def SameFade (x y : Player) : Prop :=
  y.tracks = x.tracks ∧ y.fadeOI = x.fadeOI ∧ y.fadeOC = x.fadeOC ∧ y.fadeOV = x.fadeOV

theorem SameFade.refl (x : Player) : SameFade x x := ⟨rfl,rfl,rfl,rfl⟩

/-- An operation leaves all players as they are. -/
def KeepsPlayers (s : State) (r : Option State) : Prop := ∀ s', r = some s' → s'.player = s.player

theorem KeepsPlayers.bind {r : Option State} {f : State → Option State} (h : KeepsPlayers s r)
    (hf : ∀ s, KeepsPlayers s (f s)) : KeepsPlayers s (r.bind f) := by
  intro s' hs'
  obtain ⟨w,hw,hws⟩ := Option.bind_eq_some_iff.mp hs'
  exact (hf w s' hws).trans (h w hw)

theorem KeepsPlayers.map {r : Option State} {f : State → State} (h : KeepsPlayers s r)
    (hf : ∀ s, (f s).player = s.player) : KeepsPlayers s (r.map f) := by
  intro s' hs'
  obtain ⟨w,hw,hws⟩ := Option.map_eq_some_iff.mp hs'
  rw [← hws,hf]
  exact h w hw

theorem KeepsPlayers.here (h : s'.player = s.player) : KeepsPlayers s (some s') := by
  rintro _ ⟨⟩
  exact h

theorem walk_keepsPlayers {visit : State → ChanId → State × Bool}
    (hv : ∀ s c, (visit s c).1.player = s.player) (s : State) (start : Option ChanId) :
    KeepsPlayers s (walk visit np numChannels s start) := by
  intro s' h
  exact walk_relates (R := fun s s' => s'.player = s.player) (fun _ => rfl)
    (fun s w s' (h : w.player = s.player) (h' : s'.player = w.player) => h'.trans h) hv h

theorem eachTrack_keepsPlayers {f : State → ℕ → Option State} (hf : ∀ s t, KeepsPlayers s (f s t))
    (ts : List ℕ) (s : State) : KeepsPlayers s (eachTrack f ts s) := by
  induction ts generalizing s with
  | nil => exact .here rfl
  | cons t ts ih => exact (hf s t).bind ih

theorem stopVisit_player (s : State) (c : ChanId) : (stopVisit s c).1.player = s.player := by
  unfold stopVisit
  split <;> rfl

theorem fineVisit_player (s : State) (c : ChanId) : (fineVisit s c).1.player = s.player := by
  unfold fineVisit
  split <;> rfl

theorem gateVisit_player (s : State) (c : ChanId) : (gateVisit s c).1.player = s.player := by
  unfold gateVisit
  dsimp only
  split_ifs <;> rfl

theorem pitchVisit_player (s : State) (c : ChanId) : (pitchVisit s c).1.player = s.player := by
  unfold pitchVisit
  split <;> rfl

theorem tieVisit_player (key : Byte) (s : State) (c : ChanId) :
    (tieVisit key s c).1.player = s.player := by
  unfold tieVisit
  dsimp only
  split <;> rfl

theorem trackStop_keepsPlayers (s : State) (t : ℕ) : KeepsPlayers s (trackStop s t) := by
  unfold trackStop
  split
  · exact (walk_keepsPlayers stopVisit_player _ _).map fun _ => rfl
  · exact .here rfl

theorem plyFine_keepsPlayers (s : State) (t : ℕ) : KeepsPlayers s (plyFine s t) :=
  (walk_keepsPlayers fineVisit_player _ _).map fun _ => rfl

theorem plyNote_player (s : State) (p t : ℕ) (x : NoteArgs) : (plyNote s p t x).player = s.player := by
  unfold plyNote
  dsimp only
  split
  · rfl
  · split <;> rfl

theorem command_keepsPlayers (s : State) (p t : ℕ) (x : Command) :
    KeepsPlayers s (command s p t x) := by
  cases x with
  | note x => exact .here (plyNote_player s p t x)
  | fine => exact plyFine_keepsPlayers s t
  | patt =>
    simp only [command,plyPatt]
    split
    · exact plyFine_keepsPlayers s t
    · exact .here rfl
  | pend =>
    refine .here ?_
    unfold plyPend
    dsimp only
    split <;> rfl
  | endtie key =>
    cases key with
    | none => exact walk_keepsPlayers (tieVisit_player _) _ _
    | some k =>
      intro s' h
      exact walk_keepsPlayers (tieVisit_player _) (s.setTrack t { s.track t with key := k }) _ s' h
  | prio x => exact .here rfl
  | parameter marks => exact .here rfl

theorem commands_keepsPlayers (p t : ℕ) (xs : List Command) (s : State) :
    KeepsPlayers s (commands p t xs s) := by
  induction xs generalizing s with
  | nil => exact .here rfl
  | cons x xs ih =>
    refine (command_keepsPlayers s p t x).bind fun s => ?_
    split
    · exact .here rfl
    · exact ih s

theorem restartTrack_player (s : State) (t : ℕ) : (restartTrack s t).player = s.player := by
  unfold restartTrack
  split <;> rfl

theorem tickTrack_keepsPlayers (p : ℕ) (s : State) (t : ℕ) (xs : List Command) :
    KeepsPlayers s (tickTrack p s t xs) := by
  unfold tickTrack
  split
  · refine (walk_keepsPlayers gateVisit_player _ _).bind fun s s' h => ?_
    exact (commands_keepsPlayers p t xs _ s' h).trans (restartTrack_player s t)
  · exact .here rfl

theorem tickTracks_player {p : ℕ} (ts : List (ℕ × List Command)) {s s' : State} {bit mask m : Word}
    (h : tickTracks p ts s bit mask = some (s',m)) : s'.player = s.player := by
  induction ts generalizing s bit mask with
  | nil =>
    simp only [tickTracks,Option.some.injEq,Prod.mk.injEq] at h
    rw [h.1]
  | cons x ts ih =>
    obtain ⟨w,hw,hws⟩ := Option.bind_eq_some_iff.mp h
    exact (ih hws).trans (tickTrack_keepsPlayers p s x.1 x.2 w hw)

theorem fadeStopTrack_keepsPlayers (temporary : Bool) (s : State) (t : ℕ) :
    KeepsPlayers s (fadeStopTrack temporary s t) := by
  refine (trackStop_keepsPlayers s t).map fun s => ?_
  split <;> rfl

theorem fadeVolume_keepsPlayers (fadeOV : BitVec 16) (s : State) (t : ℕ) :
    KeepsPlayers s (fadeVolume fadeOV s t) := by
  refine .here ?_
  split <;> rfl

theorem beginTrack_keepsPlayers (s : State) (t : ℕ) : KeepsPlayers s (beginTrack s t) :=
  (trackStop_keepsPlayers s t).map fun _ => rfl

theorem endTrack_keepsPlayers (s : State) (t : ℕ) : KeepsPlayers s (endTrack s t) :=
  (trackStop_keepsPlayers s t).map fun _ => rfl

theorem immInitTrack_keepsPlayers (s : State) (t : ℕ) : KeepsPlayers s (immInitTrack s t) := by
  refine .here ?_
  split
  · exact restartTrack_player s t
  · rfl

theorem updateTrack_keepsPlayers (s : State) (t : ℕ) : KeepsPlayers s (updateTrack s t) := by
  unfold updateTrack
  split
  · exact (walk_keepsPlayers pitchVisit_player _ _).map fun _ => rfl
  · exact .here rfl

/-- An operation leaves the players but `q` as they are. -/
def KeepsOthers (q : ℕ) (s : State) (r : Option State) : Prop :=
  ∀ s', r = some s' → ∀ p ≠ q, s'.player p = s.player p

theorem KeepsPlayers.after {q : ℕ} {x : Player} {r : Option State}
    (h : KeepsPlayers (s.setPlayer q x) r) : KeepsOthers q s r := by
  intro s' hs' p hp
  rw [h s' hs']
  exact setPlayer_of_ne s hp x

theorem KeepsPlayers.others {q : ℕ} {r : Option State} (h : KeepsPlayers s r) :
    KeepsOthers q s r := fun s' hs' p _ => by rw [h s' hs']

theorem mPlayStart_keepsOthers (s : State) (q : ℕ) (song : Song) :
    KeepsOthers q s (mPlayStart s q song) := by
  unfold mPlayStart
  split
  · exact ((eachTrack_keepsPlayers beginTrack_keepsPlayers _ _).bind
      (eachTrack_keepsPlayers endTrack_keepsPlayers _)).after
  · exact (KeepsPlayers.here rfl).others

theorem fadeOutBody_keepsOthers (s : State) (q : ℕ) : KeepsOthers q s (fadeOutBody s q) := by
  simp only [fadeOutBody]
  split
  · exact (KeepsPlayers.here rfl).others
  · split
    · exact (KeepsPlayers.here rfl).after
    · split
      · exact (eachTrack_keepsPlayers (fadeVolume_keepsPlayers _) _ _).after
      · split
        · intro s' hs' p hp
          obtain ⟨w,hw,hws⟩ := Option.map_eq_some_iff.mp hs'
          have hkeep := (eachTrack_keepsPlayers (fadeStopTrack_keepsPlayers _) _ _).after w hw p hp
          rw [← hws,← hkeep]
          exact setPlayer_of_ne w hp _
        · exact (eachTrack_keepsPlayers (fadeVolume_keepsPlayers _) _ _).after

/-- A change of the status of one player keeps every fade. -/
theorem sameFade_setStatus (s : State) (p q : ℕ) (status : Word) :
    SameFade (s.player p) ((s.setPlayer q { s.player q with status := status }).player p) := by
  by_cases hpq : p = q
  · subst hpq
    rw [setPlayer_self]
    exact .refl _
  · rw [setPlayer_of_ne s hpq]
    exact .refl _

/-- An operation of another player, or one that does not fade, keeps the fade of `p`. -/
theorem step_sameFade {p : ℕ} {e : Event} (he : Undisturbing p e) (hc : callsFade p e = false)
    (h : step s e = some s') : SameFade (s.player p) (s'.player p) := by
  have hsame : s'.player = s.player → SameFade (s.player p) (s'.player p) := by
    intro heq
    rw [heq]
    exact .refl _
  have hother : s'.player p = s.player p → SameFade (s.player p) (s'.player p) := by
    intro heq
    rw [heq]
    exact .refl _
  cases e with
  | mPlayStart q song => exact hother (mPlayStart_keepsOthers s q song s' h p (Ne.symm he))
  | m4aMPlayStop q =>
    have hplayers := eachTrack_keepsPlayers trackStop_keepsPlayers _ _ s' h
    rw [hplayers]
    exact sameFade_setStatus s p q _
  | m4aMPlayContinue q =>
    cases h
    exact sameFade_setStatus s p q _
  | m4aMPlayImmInit q => exact hsame (eachTrack_keepsPlayers immInitTrack_keepsPlayers _ _ s' h)
  | fade q speed fadeOV =>
    cases h
    exact hother (setPlayer_of_ne s (Ne.symm he) _)
  | fadeOutBody q =>
    have hpq : p ≠ q := by
      rintro rfl
      simp [callsFade] at hc
    exact hother (fadeOutBody_keepsOthers s q s' h p hpq)
  | tick q script =>
    obtain ⟨⟨w,m⟩,hw,hws⟩ := Option.map_eq_some_iff.mp h
    have hplayers := tickTracks_player _ hw
    rw [← hws,← hplayers]
    exact sameFade_setStatus w p q _
  | update q => exact hsame (eachTrack_keepsPlayers updateTrack_keepsPlayers _ _ s' h)
  | mixer status =>
    cases h
    exact .refl _
  | maxChans n =>
    cases h
    exact .refl _

end Frame

section Tracks

variable {s s' : State} {t : ℕ}

/-- What `FadeOutBody` does to an existing track. -/
def volumeTrack (fadeOV : BitVec 16) (r : Track) : Track :=
  if r.flags &&& exist ≠ 0 then
    { r with volX := (fadeOV >>> 2).truncate 8, flags := r.flags ||| volChg }
  else r

theorem volumeTrack_idem (fadeOV : BitVec 16) (r : Track) :
    volumeTrack fadeOV (volumeTrack fadeOV r) = volumeTrack fadeOV r := by
  by_cases h : r.flags &&& exist ≠ 0
  · have h' : (r.flags ||| volChg) &&& exist ≠ 0 := by
      have hand : (r.flags ||| volChg) &&& exist = r.flags &&& exist :=
        mark_and r.flags 0x03 exist (by decide)
      rwa [hand]
    simp only [volumeTrack,if_pos h,if_pos h',BitVec.or_assoc,BitVec.or_self]
  · simp only [volumeTrack,if_neg h]

theorem fadeVolume_track (fadeOV : BitVec 16) (s : State) (t : ℕ) : ∃ s',
    fadeVolume fadeOV s t = some s' ∧ ∀ u, s'.track u =
      if u = t then volumeTrack fadeOV (s.track u) else s.track u := by
  refine ⟨_,rfl,fun u => ?_⟩
  by_cases he : s.Exists t
  · rw [if_pos he]
    by_cases hu : u = t
    · subst hu
      have he' : (s.track u).flags &&& exist ≠ 0 := he
      rw [if_pos rfl,volumeTrack,if_pos he']
      exact Function.update_self ..
    · rw [if_neg hu]
      exact Function.update_of_ne hu _ _
  · rw [if_neg he]
    by_cases hu : u = t
    · subst hu
      have he' : ¬(s.track u).flags &&& exist ≠ 0 := he
      rw [if_pos rfl,volumeTrack,if_neg he']
    · rw [if_neg hu]

theorem eachTrack_fadeVolume (fadeOV : BitVec 16) (ts : List ℕ) (s : State) : ∃ s',
    eachTrack (fadeVolume fadeOV) ts s = some s' ∧ ∀ u, s'.track u =
      if u ∈ ts then volumeTrack fadeOV (s.track u) else s.track u := by
  induction ts generalizing s with
  | nil => exact ⟨s,rfl,fun u => by simp⟩
  | cons t ts ih =>
    obtain ⟨w,hw,hwt⟩ := fadeVolume_track fadeOV s t
    obtain ⟨s',hs',hst⟩ := ih w
    refine ⟨s',by simp [eachTrack,hw,hs'],fun u => ?_⟩
    rw [hst,hwt]
    by_cases hu : u = t <;> by_cases hm : u ∈ ts <;> simp [hu,hm,volumeTrack_idem]

theorem stopVisit_track (s : State) (c : ChanId) : (stopVisit s c).1.track = s.track := by
  unfold stopVisit
  split <;> rfl

theorem trackStop_track (h : trackStop s t = some s') : s'.track = s.track := by
  unfold trackStop at h
  split at h
  · obtain ⟨w,hw,hws⟩ := Option.map_eq_some_iff.mp h
    have htrack := walk_relates (R := fun s s' => s'.track = s.track) (fun _ => rfl)
      (fun s w s' (h : w.track = s.track) (h' : s'.track = w.track) => h'.trans h)
      stopVisit_track hw
    rw [← hws]
    exact htrack
  · cases h
    rfl

theorem fadeStopTrack_track {temporary : Bool} (h : fadeStopTrack temporary s t = some s') (u : ℕ) :
    s'.track u = if u = t ∧ temporary = false then { s.track u with flags := 0 } else s.track u := by
  obtain ⟨w,hw,hws⟩ := Option.map_eq_some_iff.mp h
  rw [← hws,← trackStop_track hw]
  cases temporary with
  | true => simp
  | false =>
    by_cases hu : u = t
    · subst hu
      simp [State.setFlags,State.setTrack]
    · simp [State.setFlags,State.setTrack,hu]

theorem eachTrack_fadeStopTrack {temporary : Bool} {ts : List ℕ}
    (h : eachTrack (fadeStopTrack temporary) ts s = some s') (u : ℕ) :
    s'.track u = if u ∈ ts ∧ temporary = false then { s.track u with flags := 0 }
      else s.track u := by
  induction ts generalizing s with
  | nil =>
    cases h
    simp
  | cons t ts ih =>
    obtain ⟨w,hw,hws⟩ := Option.bind_eq_some_iff.mp h
    rw [ih hws,fadeStopTrack_track hw]
    cases temporary <;> by_cases hu : u = t <;> by_cases hm : u ∈ ts <;> simp [hu,hm]

end Tracks

section Calls

variable {s s' : State} {p m j : ℕ} {k : Fade} {speed : BitVec 16}

theorem value_step : ∀ k : Fade, ∀ m < k.steps-1,
    if k = .up then
      k.value m &&& 2 ≠ 0 ∧ k.value m+16 = k.value (m+1) ∧ ¬256 ≤ k.value (m+1)
    else
      k.value m &&& 2 = 0 ∧ k.value m-16 = k.value (m+1) ∧ 0 < (k.value (m+1)).toInt := by
  intro k
  cases k <;> decide

theorem value_volume : ∀ k : Fade, ∀ m < k.steps,
    ((k.value m >>> 2).truncate 8 : Byte) = BitVec.ofNat 8 (k.volume m) := by
  intro k
  cases k <;> decide

/-- A fade after `m` of its steps and `j` calls of the next one. -/
structure Running (k : Fade) (speed : BitVec 16) (m j : ℕ) (x : Player) : Prop where
  interval : x.fadeOI = speed
  counter : x.fadeOC.toNat = speed.toNat-j
  value : x.fadeOV = k.value m
  step : m < k.steps
  call : j < speed.toNat

theorem Running.same {x y : Player} (h : Running k speed m j x) (hxy : SameFade x y) :
    Running k speed m j y :=
  ⟨hxy.2.1.trans h.interval,by rw [hxy.2.2.1]; exact h.counter,hxy.2.2.2.trans h.value,h.step,h.call⟩

theorem Running.speed_ne {x : Player} (h : Running k speed m j x) : speed ≠ 0 := by
  rintro rfl
  exact absurd h.call (by simp)

theorem begin_running (hs : speed ≠ 0) : Running k speed 0 0 ((k.begin s p speed).player p) := by
  have hpos : 0 < speed.toNat := Nat.pos_of_ne_zero fun h0 => hs (BitVec.eq_of_toNat_eq h0)
  cases k <;> exact ⟨by simp [Fade.begin,mPlayFadeOut,m4aMPlayFadeOutTemporarily,m4aMPlayFadeIn],
    by simp [Fade.begin,mPlayFadeOut,m4aMPlayFadeOutTemporarily,m4aMPlayFadeIn],
    by simp [Fade.begin,mPlayFadeOut,m4aMPlayFadeOutTemporarily,m4aMPlayFadeIn]; decide,
    by decide,hpos⟩

theorem Running.counter_pred {x : Player} (h : Running k speed m j x) :
    (x.fadeOC-1).toNat = speed.toNat-(j+1) := by
  have hc := h.counter
  have hj := h.call
  have hle : (1 : BitVec 16) ≤ x.fadeOC := by
    rw [BitVec.le_def,hc]
    exact Nat.le_sub_of_add_le (by rw [show (1 : BitVec 16).toNat = 1 from rfl]; omega)
  rw [BitVec.toNat_sub_of_le hle,hc,show (1 : BitVec 16).toNat = 1 from rfl]
  omega

/-- A call that only counts. -/
theorem Running.count (h : Running k speed m j (s.player p)) (hj : j+1 < speed.toNat) : ∃ s',
    fadeOutBody s p = some s' ∧ Running k speed m (j+1) (s'.player p) ∧
      (s'.player p).status = (s.player p).status ∧ s'.track = s.track := by
  have hpred := h.counter_pred
  have hmore : (s.player p).fadeOC-1 ≠ 0 := by
    intro h0
    rw [h0,show (0 : BitVec 16).toNat = 0 from rfl] at hpred
    omega
  have hon : (s.player p).fadeOI ≠ 0 := by
    rw [h.interval]
    exact h.speed_ne
  refine ⟨s.setPlayer p { s.player p with fadeOC := (s.player p).fadeOC-1 },?_,?_,?_,rfl⟩
  · rw [fadeOutBody,if_neg hon,if_pos hmore]
  · rw [setPlayer_self]
    exact ⟨h.interval,hpred,h.value,h.step,hj⟩
  · rw [setPlayer_self]

/-- The branch that a call takes when the count is at its end. -/
theorem Running.fires (h : Running k speed m j (s.player p)) (hj : j+1 = speed.toNat) :
    (s.player p).fadeOI ≠ 0 ∧ ¬(s.player p).fadeOC-1 ≠ 0 := by
  constructor
  · rw [h.interval]
    exact h.speed_ne
  · rw [not_not]
    apply BitVec.eq_of_toNat_eq
    rw [h.counter_pred,show (0 : BitVec 16).toNat = 0 from rfl]
    omega

/-- Giving a volume to the tracks of the player, after a change of it. -/
theorem give_volume {x : Player} {v : BitVec 16}
    (hv : ((v >>> 2).truncate 8 : Byte) = BitVec.ofNat 8 (k.volume m))
    (hx : x.tracks = (s.player p).tracks) :
    ∃ s', eachTrack (fadeVolume v) x.tracks (s.setPlayer p x) = some s' ∧
      s'.player p = x ∧ Given k m (s.player p).tracks s s' := by
  obtain ⟨s',hs',htrack⟩ := eachTrack_fadeVolume v x.tracks (s.setPlayer p x)
  refine ⟨s',hs',?_,fun t => ?_⟩
  · rw [eachTrack_keepsPlayers (fadeVolume_keepsPlayers v) _ _ s' hs',setPlayer_self]
  · rw [htrack,hx]
    by_cases ht : t ∈ (s.player p).tracks
    · by_cases he : s.Exists t
      · have he' : (s.track t).flags &&& exist ≠ 0 := he
        rw [if_pos ht,if_pos ⟨ht,he⟩]
        simp only [volumeTrack,State.setPlayer,if_pos he',hv]
      · have he' : ¬(s.track t).flags &&& exist ≠ 0 := he
        rw [if_pos ht,if_neg fun h => he h.2]
        exact if_neg he'
    · rw [if_neg ht,if_neg fun h => ht h.1]
      rfl

/-- A call that takes a step that is not the last one. -/
theorem Running.advance (h : Running k speed m j (s.player p)) (hj : j+1 = speed.toNat)
    (hm : m+1 < k.steps) : ∃ s',
    fadeOutBody s p = some s' ∧ Running k speed (m+1) 0 (s'.player p) ∧
      (s'.player p).status = (s.player p).status ∧ Given k (m+1) (s.player p).tracks s s' := by
  obtain ⟨hon,hzero⟩ := h.fires hj
  have hstep := value_step k m (by omega)
  have hvolume := value_volume k (m+1) hm
  have hspeed : speed.toNat = speed.toNat-0 := rfl
  rw [← h.value] at hstep
  by_cases hup : k = .up
  · rw [if_pos hup] at hstep
    obtain ⟨hbit,hnext,hlow⟩ := hstep
    let x : Player :=
      { s.player p with fadeOC := (s.player p).fadeOI, fadeOV := (s.player p).fadeOV+16 }
    rw [← hnext] at hvolume hlow
    obtain ⟨s',hs',hplayer,hgiven⟩ := give_volume (x := x) (p := p) hvolume rfl
    refine ⟨s',?_,?_,by rw [hplayer],hgiven⟩
    · rw [fadeOutBody,if_neg hon,if_neg hzero,if_pos hbit]
      dsimp only
      rw [if_neg hlow]
      exact hs'
    · rw [hplayer]
      exact ⟨h.interval,by simp [x,h.interval],hnext,hm,by omega⟩
  · rw [if_neg hup] at hstep
    obtain ⟨hbit,hnext,hlow⟩ := hstep
    let x : Player :=
      { s.player p with fadeOC := (s.player p).fadeOI, fadeOV := (s.player p).fadeOV-16 }
    rw [← hnext] at hvolume hlow
    obtain ⟨s',hs',hplayer,hgiven⟩ := give_volume (x := x) (p := p) hvolume rfl
    refine ⟨s',?_,?_,by rw [hplayer],hgiven⟩
    · rw [fadeOutBody,if_neg hon,if_neg hzero,if_neg (not_not.mpr hbit),if_neg (not_le.mpr hlow)]
      exact hs'
    · rw [hplayer]
      exact ⟨h.interval,by simp [x,h.interval],hnext,hm,by omega⟩

/-- Stopping the tracks of the player, after a change of it. -/
theorem stop_tracks (hs : Sound s) (temporary : Bool) (x : Player) : ∃ s',
    eachTrack (fadeStopTrack temporary) x.tracks (s.setPlayer p x) = some s' ∧
      ∀ t, s'.track t = if t ∈ x.tracks ∧ temporary = false then { s.track t with flags := 0 }
        else s.track t := by
  have hsound : Sound (s.setPlayer p x) := hs.same rfl rfl
  obtain ⟨s',hs',-⟩ :=
    (eachTrack_shrinks (fadeStopTrack_shrinks temporary) x.tracks _).preserves hsound
  exact ⟨s',hs',fun t => eachTrack_fadeStopTrack (s := s.setPlayer p x) hs' t⟩

/-- The last call. -/
theorem Running.finish (h : Running k speed m j (s.player p)) (hj : j+1 = speed.toNat)
    (hm : m+1 = k.steps) (hs : Sound s) : ∃ s',
    fadeOutBody s p = some s' ∧ (s'.player p).fadeOI = 0 ∧ Ended p s s' k := by
  obtain ⟨hon,hzero⟩ := h.fires hj
  have hvalue := h.value
  cases k with
  | up =>
    obtain rfl : m = 15 := Nat.succ.inj hm
    have hbit : (s.player p).fadeOV &&& 2 ≠ 0 := by rw [hvalue]; decide
    have hfull : 256 ≤ (s.player p).fadeOV+16 := by rw [hvalue]; decide
    let x : Player :=
      { s.player p with fadeOC := (s.player p).fadeOI, fadeOV := 256, fadeOI := 0 }
    obtain ⟨s',hs',hplayer,hgiven⟩ := give_volume (x := x) (v := 256) (p := p) (k := .up) (m := 16)
      (by decide) rfl
    refine ⟨s',?_,by rw [hplayer],by rw [hplayer],hgiven⟩
    rw [fadeOutBody,if_neg hon,if_neg hzero,if_pos hbit]
    dsimp only
    rw [if_pos hfull]
    exact hs'
  | out =>
    obtain rfl : m = 15 := Nat.succ.inj hm
    have hbit : ¬(s.player p).fadeOV &&& 2 ≠ 0 := by rw [hvalue]; decide
    have hend : ((s.player p).fadeOV-16).toInt ≤ 0 := by rw [hvalue]; decide
    have hflag : ¬((s.player p).fadeOV-16) &&& 1 ≠ 0 := by rw [hvalue]; decide
    let x : Player :=
      { s.player p with fadeOC := (s.player p).fadeOI, fadeOV := (s.player p).fadeOV-16 }
    obtain ⟨w,hw,htrack⟩ := stop_tracks (p := p) hs false x
    refine ⟨w.setPlayer p { x with status := 0x80000000, fadeOI := 0 },?_,by simp,by simp,?_⟩
    · rw [fadeOutBody,if_neg hon,if_neg hzero,if_neg hbit,if_pos hend]
      dsimp only
      rw [decide_eq_false hflag,if_neg hflag]
      exact congrArg (Option.map _) hw
    · intro t ht
      change (w.track t).flags = 0
      rw [htrack,if_pos ⟨ht,rfl⟩]
  | temporary =>
    obtain rfl : m = 16 := Nat.succ.inj hm
    have hbit : ¬(s.player p).fadeOV &&& 2 ≠ 0 := by rw [hvalue]; decide
    have hend : ((s.player p).fadeOV-16).toInt ≤ 0 := by rw [hvalue]; decide
    have hflag : ((s.player p).fadeOV-16) &&& 1 ≠ 0 := by rw [hvalue]; decide
    let x : Player :=
      { s.player p with fadeOC := (s.player p).fadeOI, fadeOV := (s.player p).fadeOV-16 }
    obtain ⟨w,hw,htrack⟩ := stop_tracks (p := p) hs true x
    refine ⟨w.setPlayer p { x with status := x.status ||| 0x80000000, fadeOI := 0 },?_,by simp,
      by simp [x],?_⟩
    · rw [fadeOutBody,if_neg hon,if_neg hzero,if_neg hbit,if_pos hend]
      dsimp only
      rw [decide_eq_true hflag,if_pos hflag]
      exact congrArg (Option.map _) hw
    · funext t
      change w.track t = s.track t
      rw [htrack]
      simp

end Calls

section Runs

variable {s s' : State} {p m j : ℕ} {k : Fade} {speed : BitVec 16}

/-- The state of a fade after `n` calls. -/
def RunningAt (k : Fade) (speed : BitVec 16) (n : ℕ) (x : Player) : Prop :=
  ∃ m j, n = m*speed.toNat+j ∧ Running k speed m j x

/-- A call before the last one: it only counts, or it gives the volume of a step. -/
theorem RunningAt.call {n : ℕ} (h : RunningAt k speed n (s.player p))
    (hn : n+1 < k.steps*speed.toNat) : ∃ s',
    fadeOutBody s p = some s' ∧ RunningAt k speed (n+1) (s'.player p) ∧
      (s'.player p).status = (s.player p).status ∧
      if speed.toNat ∣ n+1 then Given k ((n+1) / speed.toNat) (s.player p).tracks s s'
      else s'.track = s.track := by
  obtain ⟨m,j,rfl,hrun⟩ := h
  have hcall := hrun.call
  by_cases hj : j+1 < speed.toNat
  · obtain ⟨s',hs',hrun',hstatus,htrack⟩ := hrun.count hj
    refine ⟨s',hs',⟨m,j+1,by omega,hrun'⟩,hstatus,?_⟩
    have hdvd : ¬speed.toNat ∣ m*speed.toNat+j+1 := by
      rw [Nat.add_assoc,Nat.dvd_add_right (Nat.dvd_mul_left ..)]
      exact Nat.not_dvd_of_pos_of_lt (by omega) hj
    rwa [if_neg hdvd]
  · have hlast : j+1 = speed.toNat := by omega
    have hsum : m*speed.toNat+j+1 = (m+1)*speed.toNat := by
      rw [Nat.add_assoc,hlast,Nat.succ_mul]
    have hm : m+1 < k.steps := by
      rw [hsum] at hn
      exact Nat.lt_of_mul_lt_mul_right hn
    obtain ⟨s',hs',hrun',hstatus,hgiven⟩ := hrun.advance hlast hm
    refine ⟨s',hs',⟨m+1,0,by omega,hrun'⟩,hstatus,?_⟩
    rw [hsum,if_pos (Nat.dvd_mul_left ..),Nat.mul_div_cancel _ (by omega)]
    exact hgiven

theorem RunningAt.last {n : ℕ} (h : RunningAt k speed n (s.player p))
    (hn : n+1 = k.steps*speed.toNat) (hs : Sound s) : ∃ s',
    fadeOutBody s p = some s' ∧ (s'.player p).fadeOI = 0 ∧ Ended p s s' k := by
  obtain ⟨m,j,rfl,hrun⟩ := h
  have hcall := hrun.call
  have hstep := hrun.step
  have hm : m+1 = k.steps := by
    by_contra hne
    have hle : (m+2)*speed.toNat ≤ k.steps*speed.toNat := Nat.mul_le_mul_right _ (by omega)
    rw [Nat.add_mul] at hle
    omega
  have hsum : (m+1)*speed.toNat = m*speed.toNat+speed.toNat := Nat.succ_mul ..
  rw [← hm] at hn
  exact hrun.finish (by omega) hm hs

/-- Until its last call a fade goes on among any other events of the sequencer. -/
theorem RunningAt.run {n : ℕ} (h : RunningAt k speed n (s.player p)) {es : List Event}
    (hes : ∀ e ∈ es, Undisturbing p e) (hs : runEvents s es = some s')
    (hn : n+fadeCalls p es < k.steps*speed.toNat) :
    RunningAt k speed (n+fadeCalls p es) (s'.player p) := by
  induction es generalizing s n with
  | nil =>
    cases hs
    exact h
  | cons e es ih =>
    obtain ⟨w,hw,hws⟩ := Option.bind_eq_some_iff.mp hs
    have hrest : ∀ e ∈ es, Undisturbing p e := fun e' he' => hes e' (List.mem_cons_of_mem _ he')
    cases hc : callsFade p e with
    | true =>
      obtain ⟨q,rfl⟩ : ∃ q, e = .fadeOutBody q := by
        cases e <;> simp [callsFade] at hc ⊢
      obtain rfl : q = p := by simpa [callsFade] using hc
      have hcount : fadeCalls q (.fadeOutBody q::es) = fadeCalls q es+1 := by
        simp [fadeCalls,hc]
      rw [hcount] at hn ⊢
      obtain ⟨w',hw',hrun,-⟩ := h.call (by omega)
      obtain rfl : w' = w := Option.some.inj (hw'.symm.trans hw)
      have hnext := ih hrun hrest hws (by omega)
      rwa [Nat.add_right_comm,Nat.add_assoc] at hnext
    | false =>
      have hcount : fadeCalls p (e::es) = fadeCalls p es := by simp [fadeCalls,hc]
      rw [hcount] at hn ⊢
      obtain ⟨m,j,hmj,hrun⟩ := h
      have hsame := step_sameFade (hes e List.mem_cons_self) hc hw
      exact ih ⟨m,j,hmj,hrun.same hsame⟩ hrest hws hn

end Runs

/-- Every fade ends at the call `steps*speed` of `FadeOutBody`, not before, and gives the volume of
its steps in between; the events around the calls may be any that leave the fade alone. -/
theorem fade_lengths (player : ℕ → Player) (track : ℕ → Track) (head : ℕ → Option ChanId)
    (n : Fin 13) (es₀ es : List Event) (p : ℕ) (k : Fade) (speed : BitVec 16) (hspeed : speed ≠ 0)
    (hes : ∀ e ∈ es, Undisturbing p e)
    (hcalls : fadeCalls p es+1 ≤ k.steps*speed.toNat) :
    ∃ s₀ s s', runEvents (initial player track head n) es₀ = some s₀ ∧
      runEvents (k.begin s₀ p speed) es = some s ∧ fadeOutBody s p = some s' ∧
      (fadeCalls p es+1 < k.steps*speed.toNat →
        (s'.player p).fadeOI = speed ∧ (s'.player p).status = (s.player p).status ∧
        if speed.toNat ∣ fadeCalls p es+1 then
          Given k ((fadeCalls p es+1) / speed.toNat) (s.player p).tracks s s'
        else s'.track = s.track) ∧
      (fadeCalls p es+1 = k.steps*speed.toNat → (s'.player p).fadeOI = 0 ∧ Ended p s s' k) ∧
      (∀ m ≤ 16, k.volume m ≤ 64) ∧
      (if k = .up then Monotone k.volume else Antitone k.volume) := by
  obtain ⟨s₀,hs₀,hsound₀⟩ := runEvents_preserves es₀ _ ⟨_,initial_wellFormed player track head n⟩
  have hbegin : Sound (k.begin s₀ p speed) := by
    cases k <;> exact hsound₀.same rfl rfl
  obtain ⟨s,hs,hsound⟩ := runEvents_preserves es _ hbegin
  have hrun : RunningAt k speed 0 ((k.begin s₀ p speed).player p) :=
    ⟨0,0,by simp,begin_running hspeed⟩
  have hnow := hrun.run hes hs (by omega)
  rw [Nat.zero_add] at hnow
  refine ⟨s₀,s,?_⟩
  rcases Nat.lt_or_eq_of_le hcalls with hlt | hlast
  · obtain ⟨s',hs',⟨m,j,_,hrun'⟩,hstatus,htrack⟩ := hnow.call hlt
    exact ⟨s',hs₀,hs,hs',fun _ => ⟨hrun'.interval,hstatus,htrack⟩,fun h => by omega,
      k.volume_le,k.volume_monotone⟩
  · obtain ⟨s',hs',hend⟩ := hnow.last hlast hsound
    exact ⟨s',hs₀,hs,hs',fun h => by omega,fun _ => hend,k.volume_le,k.volume_monotone⟩

/-- The last call of a fade-out of a player with one track. -/
theorem fade_lengths_out : ∃ s₀ s s',
    runEvents (initial (fun _ => ⟨[0],0,false,0,0,0,0,0⟩) (fun _ => ⟨0,0,0,0,0,0,0⟩) (fun _ => none) 8)
      [.mPlayStart 0 ⟨1,0⟩] = some s₀ ∧
    runEvents (Fade.out.begin s₀ 0 2) (List.replicate 31 (.fadeOutBody 0)) = some s ∧
    fadeOutBody s 0 = some s' ∧ (s'.player 0).fadeOI = 0 ∧ Ended 0 s s' .out := by
  have hes : ∀ e ∈ List.replicate 31 (Event.fadeOutBody 0), Undisturbing 0 e := by
    intro e he
    rw [List.eq_of_mem_replicate he]
    trivial
  have hcount : fadeCalls 0 (List.replicate 31 (Event.fadeOutBody 0)) = 31 := by decide
  obtain ⟨s₀,s,s',hs₀,hs,hs',-,hlast,-⟩ := fade_lengths (fun _ => ⟨[0],0,false,0,0,0,0,0⟩)
    (fun _ => ⟨0,0,0,0,0,0,0⟩) (fun _ => none) 8 [.mPlayStart 0 ⟨1,0⟩]
    (List.replicate 31 (.fadeOutBody 0)) 0 .out 2 (by decide) hes (by rw [hcount]; decide)
  exact ⟨s₀,s,s',hs₀,hs,hs',hlast (by rw [hcount]; decide)⟩

end Sequencer
end M4a
end AgbTools
