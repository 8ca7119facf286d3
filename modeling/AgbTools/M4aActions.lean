import AgbTools.M4aNotes

/-! Runs of the sound engine in parts: a tick is cut where notes can start, and for every part it is
said what it can do to a channel. -/
namespace AgbTools
namespace M4a
namespace Sequencer

open OwnedLists

section Walks
variable {s : State} {lists : ℕ → List ChanId} {t : ℕ} {c : ChanId}

/-- A walk that changes each channel by `f` and goes on to the end of the list. -/
theorem walk_each {visit : State → ChanId → State × Bool} (hv : Tidy visit) (f : Channel → Channel)
    (keep : Channel → Prop)
    (hf : ∀ s c, (visit s c).1.chan = Function.update s.chan c (f (s.chan c)) ∧ (visit s c).2 = false)
    (hkeep : ∀ s c, keep (s.chan c) → (visit s c).1.links = s.links)
    (h : WellFormed s lists) (ht : s.Exists t) :
    ∃ s', walk visit np numChannels s (s.links.head t) = some s' ∧
      (∀ c, s'.chan c = if c ∈ lists t then f (s.chan c) else s.chan c) ∧
      (∀ c, s'.links.owner c = s.links.owner c ∨ s'.links.owner c = none) ∧
      ∀ c, c ∉ lists t ∨ keep (s.chan c) → s'.links.owner c = s.links.owner c := by
  -- `before` has been visited, of it `kept` is still in the list
  let inv (x : State) (l : List ChanId) : Prop :=
    x.track = s.track ∧ ∃ lists' kept before, WellFormed x lists' ∧ lists' t = kept++l ∧
      lists t = before++l ∧ (∀ c, x.chan c = if c ∈ before then f (s.chan c) else s.chan c) ∧
      (∀ c, x.links.owner c = s.links.owner c ∨ x.links.owner c = none) ∧
      ∀ c, c ∉ before ∨ keep (s.chan c) → x.links.owner c = s.links.owner c
  have hstep (x : State) (c : ChanId) (l : List ChanId) (hx : inv x (c::l)) :
      inv (visit x c).1 l ∧ np (visit x c).1 c = l.head? := by
    obtain ⟨htr,lists',kept,before,hwf,hl',hl,hchan,hleft,howner⟩ := hx
    have hex : x.Exists t := by
      unfold State.Exists
      rw [htr]
      exact ht
    obtain ⟨lists'',kept',hwf',-,hl'',-,hnext⟩ := hwf.visit hv hex hl'
    have hcb : c ∉ before := by
      have hnd := h.owned.nodup t
      rw [hl] at hnd
      exact fun hmem => List.disjoint_of_nodup_append hnd hmem List.mem_cons_self
    refine ⟨⟨(hv x c).1.trans htr,lists'',kept',before++[c],hwf',hl'',by simp [hl],?_,?_,?_⟩,hnext⟩
    · intro d
      rw [(hf x c).1]
      by_cases hd : d = c
      · subst hd
        simp [hchan,hcb]
      · simp [hd,hchan]
    · intro d
      obtain ⟨-,heq | heq⟩ := hv x c
      · rw [heq]
        exact hleft d
      · rw [heq,unlink_owner]
        split_ifs
        · exact .inr rfl
        · exact hleft d
    · intro d hd
      by_cases hdc : d = c
      · subst hdc
        have hk : keep (s.chan d) := hd.resolve_left (by simp)
        have hsame : x.chan d = s.chan d := by simp [hchan,hcb]
        rw [hkeep x d (hsame ▸ hk)]
        exact howner d (.inr hk)
      · have hlinks : (visit x c).1.links.owner d = x.links.owner d := by
          obtain ⟨-,heq | heq⟩ := hv x c
          · rw [heq]
          · rw [heq,unlink_owner,if_neg hdc]
        rw [hlinks]
        exact howner d (hd.imp_left fun hnot hb => hnot (List.mem_append_left _ hb))
  have hend (x : State) (hx : inv x []) :
      (∀ c, x.chan c = if c ∈ lists t then f (s.chan c) else s.chan c) ∧
      (∀ c, x.links.owner c = s.links.owner c ∨ x.links.owner c = none) ∧
      ∀ c, c ∉ lists t ∨ keep (s.chan c) → x.links.owner c = s.links.owner c := by
    obtain ⟨-,-,-,before,-,-,hl,hchan,hleft,howner⟩ := hx
    rw [List.append_nil] at hl
    rw [hl]
    exact ⟨hchan,hleft,howner⟩
  have hs : inv s (lists t) := ⟨rfl,lists,[],[],h,rfl,rfl,by simp,fun _ => .inl rfl,fun _ _ => rfl⟩
  rw [(h.owned.linked t ht).head]
  refine walk_ends (fun x c l _ hleave => ?_) (fun x c l hx _ => hstep x c l hx) hend hs
    (h.length_le t)
  rw [(hf x c).2] at hleave
  cases hleave

/-- A channel of another track is not met. -/
theorem WellFormed.not_mem (h : WellFormed s lists) (hc : s.links.owner c ≠ some t) : c ∉ lists t :=
  fun hmem => hc ((h.owned.mem t c).mp hmem)

/-- What the countdown does to a channel of the track. -/
def gateStep (x : Channel) : Channel :=
  if x.status &&& 0xC7 = 0 then x
  else if x.gateTime = 0 then x
  else if x.gateTime-1 = 0 then { x with gateTime := 0, status := x.status ||| 0x40 }
  else { x with gateTime := x.gateTime-1 }

theorem gateVisit_chan (s : State) (c : ChanId) :
    (gateVisit s c).1.chan = Function.update s.chan c (gateStep (s.chan c)) ∧
      (gateVisit s c).2 = false := by
  unfold gateVisit gateStep
  by_cases hidle : (s.chan c).status &&& 0xC7 = 0
  · rw [if_pos (show s.Idle c from hidle),if_pos hidle,Function.update_eq_self]
    exact ⟨rfl,rfl⟩
  rw [if_neg (show ¬s.Idle c from hidle),if_neg hidle]
  split_ifs
  · exact ⟨(Function.update_eq_self ..).symm,rfl⟩
  · exact ⟨rfl,rfl⟩
  · exact ⟨rfl,rfl⟩

theorem countdown_spec (h : WellFormed s lists) (ht : s.Exists t) :
    ∃ s', walk gateVisit np numChannels s (s.links.head t) = some s' ∧
      (∀ c, s'.chan c = if s.links.owner c = some t then gateStep (s.chan c) else s.chan c) ∧
      (∀ c, s'.links.owner c = s.links.owner c ∨ s'.links.owner c = none) ∧
      ∀ c, s.links.owner c ≠ some t ∨ ¬s.Idle c → s'.links.owner c = s.links.owner c := by
  obtain ⟨s',hs',hchan,hleft,howner⟩ := walk_each gateVisit_tidy gateStep
    (fun x => x.status &&& 0xC7 ≠ 0) gateVisit_chan
    (fun x d hd => by
      have hidle : ¬x.Idle d := hd
      simp only [gateVisit,if_neg hidle]
      split_ifs <;> rfl) h ht
  refine ⟨s',hs',fun c => ?_,hleft,fun c hc => howner c (hc.imp_left h.not_mem)⟩
  rw [hchan]
  simp only [h.owned.mem]

/-- What the end of its track does to a channel. -/
def fineStep (x : Channel) : Channel :=
  if x.status &&& 0xC7 = 0 then x else { x with status := x.status ||| 0x40 }

theorem plyFine_spec (h : WellFormed s lists) (ht : s.Exists t) :
    ∃ s', plyFine s t = some s' ∧
      (∀ c, s'.chan c = if s.links.owner c = some t then fineStep (s.chan c) else s.chan c) ∧
      (∀ c, s'.links.owner c = s.links.owner c ∨ s'.links.owner c = none) ∧
      ∀ c, s.links.owner c ≠ some t → s'.links.owner c = s.links.owner c := by
  have hvisit : ∀ s c, (fineVisit s c).1.chan = Function.update s.chan c (fineStep (s.chan c)) ∧
      (fineVisit s c).2 = false := by
    intro s c
    unfold fineVisit fineStep
    by_cases hidle : (s.chan c).status &&& 0xC7 = 0
    · rw [if_pos (show s.Idle c from hidle),if_pos hidle,Function.update_eq_self]
      exact ⟨rfl,rfl⟩
    · rw [if_neg (show ¬s.Idle c from hidle),if_neg hidle]
      exact ⟨rfl,rfl⟩
  obtain ⟨w,hw,hchan,hleft,howner⟩ := walk_each fineVisit_tidy fineStep (fun _ => False) hvisit
    (fun _ _ hfalse => hfalse.elim) h ht
  refine ⟨w.setFlags t 0,by simp [plyFine,hw],fun c => ?_,hleft,
    fun c hc => howner c (.inl (h.not_mem hc))⟩
  show w.chan c = _
  rw [hchan]
  simp only [h.owned.mem]

/-- A channel that the end of a tie looks for. -/
def Held (key : Byte) (x : Channel) : Prop :=
  x.status &&& 0x83 ≠ 0 ∧ x.status &&& 0x40 = 0 ∧ x.midiKey = key

instance (key : Byte) (x : Channel) : Decidable (Held key x) := inferInstanceAs (Decidable (_ ∧ _))

/-- The walk of `ply_endtie` changes the first such channel of the list. -/
theorem tieWalk_eq (key : Byte) {p start : Option ChanId} {l : List ChanId} {k : ℕ}
    (hl : Linked s.links p start l) (hk : l.length ≤ k) :
    walk (tieVisit key) np k s start = some (match l.find? fun c => decide (Held key (s.chan c)) with
      | none => s
      | some c => s.setStatus c ((s.chan c).status ||| 0x40)) := by
  induction l generalizing p start k with
  | nil =>
    have hstart : start = none := hl
    rw [hstart]
    cases k <;> rfl
  | cons c l ih =>
    obtain ⟨hstart,-,hl⟩ := hl
    cases k with
    | zero => exact absurd hk (by simp)
    | succ k =>
      rw [hstart,walk,tieVisit]
      by_cases hheld : Held key (s.chan c)
      · rw [if_pos (show _ ∧ _ from hheld),List.find?_cons_of_pos (by simpa using hheld)]
      · rw [if_neg (show ¬(_ ∧ _) from hheld),List.find?_cons_of_neg (by simpa using hheld)]
        exact ih hl (Nat.le_of_succ_le_succ hk)

end Walks

section Calls
variable {s s' s'' : State}

/-- What the calls of the program do to the channels: a channel goes on with its note, or is silent
and may have lost its track. -/
structure Quiet (s s' : State) : Prop where
  gate : ∀ c, (s'.chan c).gateTime = (s.chan c).gateTime
  status : ∀ c, (s'.chan c).status = (s.chan c).status ∨ (s'.chan c).status = 0
  owner : ∀ c, s'.links.owner c = s.links.owner c ∨ s'.Idle c ∧ s'.links.owner c = none

theorem Quiet.refl (s : State) : Quiet s s := ⟨fun _ => rfl,fun _ => .inl rfl,fun _ => .inl rfl⟩

theorem idle_of_zero {c : ChanId} (h : (s.chan c).status = 0) : s.Idle c := by
  unfold State.Idle
  rw [h]
  decide

/-- A silent channel stays silent. -/
theorem Quiet.idle (h : Quiet s s') {c : ChanId} (hc : s.Idle c) : s'.Idle c := by
  obtain heq | hzero := h.status c
  · unfold State.Idle
    rw [heq]
    exact hc
  · exact idle_of_zero hzero

theorem Quiet.trans (h : Quiet s s') (h' : Quiet s' s'') : Quiet s s'' where
  gate c := (h'.gate c).trans (h.gate c)
  status c := by
    obtain heq | hzero := h'.status c
    · rw [heq]
      exact h.status c
    · exact .inr hzero
  owner c := by
    obtain heq | ⟨hidle,hnone⟩ := h'.owner c
    · rw [heq]
      exact (h.owner c).imp_right fun hc => ⟨h'.idle hc.1,hc.2⟩
    · exact .inr ⟨hidle,hnone⟩

/-- Neither channels nor owners are written. -/
theorem Quiet.of_same (hchan : s'.chan = s.chan) (howner : s'.links.owner = s.links.owner) :
    Quiet s s' := by
  refine ⟨fun c => ?_,fun c => .inl ?_,fun c => .inl ?_⟩
  · rw [hchan]
  · rw [hchan]
  · rw [howner]

theorem stopVisit_quiet (s : State) (c : ChanId) : Quiet s (stopVisit s c).1 := by
  have hstatus : ((stopVisit s c).1.chan c).status = 0 := by
    simp only [stopVisit]
    split_ifs with hzero
    · exact hzero
    · simp [State.setStatus,State.setChan]
  have hother : ∀ d, d ≠ c → (stopVisit s c).1.chan d = s.chan d := by
    intro d hd
    simp only [stopVisit]
    split_ifs
    · rfl
    · simp [State.setStatus,State.setChan,hd]
  have howner : ∀ d, (stopVisit s c).1.links.owner d = Function.update s.links.owner c none d := by
    intro d
    simp only [stopVisit]
    split_ifs <;> rfl
  refine ⟨fun d => ?_,fun d => ?_,fun d => ?_⟩
  · simp only [stopVisit]
    split_ifs
    · rfl
    · by_cases hd : d = c
      · subst hd
        simp [State.setStatus,State.setChan]
      · simp [State.setStatus,State.setChan,hd]
  · by_cases hd : d = c
    · exact .inr (hd ▸ hstatus)
    · exact .inl (by rw [hother d hd])
  · by_cases hd : d = c
    · subst hd
      exact .inr ⟨idle_of_zero hstatus,by rw [howner,Function.update_self]⟩
    · exact .inl (by rw [howner,Function.update_of_ne hd])

theorem pitchVisit_quiet (s : State) (c : ChanId) : Quiet s (pitchVisit s c).1 := by
  unfold pitchVisit
  split_ifs with hidle
  · refine ⟨fun _ => rfl,fun _ => .inl rfl,fun d => ?_⟩
    by_cases hd : d = c
    · subst hd
      exact .inr ⟨hidle,by simp [realClearChain,unlink_owner]⟩
    · exact .inl (by simp [realClearChain,unlink_owner,hd])
  · exact .refl s

theorem walk_quiet {visit : State → ChanId → State × Bool} (hvisit : ∀ s c, Quiet s (visit s c).1)
    {k : ℕ} {start : Option ChanId} (h : walk visit np k s start = some s') : Quiet s s' :=
  walk_relates Quiet.refl (fun _ _ _ => Quiet.trans) hvisit h

theorem trackStop_quiet {t : ℕ} (h : trackStop s t = some s') : Quiet s s' := by
  unfold trackStop at h
  split_ifs at h
  · obtain ⟨w,hw,rfl⟩ := Option.map_eq_some_iff.mp h
    exact (walk_quiet stopVisit_quiet hw).trans (.of_same rfl rfl)
  · exact Option.some.inj h ▸ .refl s

theorem eachTrack_quiet {f : State → ℕ → Option State}
    (hf : ∀ {s s' : State} {t : ℕ}, f s t = some s' → Quiet s s') {ts : List ℕ}
    (h : eachTrack f ts s = some s') : Quiet s s' := by
  induction ts generalizing s with
  | nil => exact Option.some.inj h ▸ .refl s
  | cons t ts ih =>
    obtain ⟨w,hw,hrest⟩ := Option.bind_eq_some_iff.mp h
    exact (hf hw).trans (ih hrest)

theorem beginTrack_quiet {t : ℕ} (h : beginTrack s t = some s') : Quiet s s' := by
  obtain ⟨w,hw,rfl⟩ := Option.map_eq_some_iff.mp h
  exact (trackStop_quiet hw).trans (.of_same rfl rfl)

theorem endTrack_quiet {t : ℕ} (h : endTrack s t = some s') : Quiet s s' := by
  obtain ⟨w,hw,rfl⟩ := Option.map_eq_some_iff.mp h
  exact (trackStop_quiet hw).trans (.of_same rfl rfl)

theorem fadeStopTrack_quiet {temporary : Bool} {t : ℕ} (h : fadeStopTrack temporary s t = some s') :
    Quiet s s' := by
  obtain ⟨w,hw,rfl⟩ := Option.map_eq_some_iff.mp h
  refine (trackStop_quiet hw).trans ?_
  split_ifs
  · exact .refl w
  · exact .of_same rfl rfl

theorem fadeVolume_quiet {fadeOV : BitVec 16} {t : ℕ} (h : fadeVolume fadeOV s t = some s') :
    Quiet s s' := by
  unfold fadeVolume at h
  obtain rfl := Option.some.inj h
  split_ifs <;> exact .of_same rfl rfl

theorem restartTrack_quiet (s : State) (t : ℕ) : Quiet s (restartTrack s t) := by
  unfold restartTrack
  split_ifs <;> exact .of_same rfl rfl

theorem immInitTrack_quiet {t : ℕ} (h : immInitTrack s t = some s') : Quiet s s' := by
  unfold immInitTrack at h
  obtain rfl := Option.some.inj h
  split_ifs
  · exact restartTrack_quiet s t
  · exact .refl s

theorem updateTrack_quiet {t : ℕ} (h : updateTrack s t = some s') : Quiet s s' := by
  unfold updateTrack at h
  split_ifs at h
  · obtain ⟨w,hw,rfl⟩ := Option.map_eq_some_iff.mp h
    exact (walk_quiet pitchVisit_quiet hw).trans (.of_same rfl rfl)
  · exact Option.some.inj h ▸ .refl s

theorem mPlayStart_quiet {p : ℕ} {song : Song} (h : mPlayStart s p song = some s') : Quiet s s' := by
  unfold mPlayStart at h
  split_ifs at h
  · obtain ⟨w,hw,hrest⟩ := Option.bind_eq_some_iff.mp h
    have hplayer : Quiet s (s.setPlayer p
        { s.player p with status := 0, hasSong := true, priority := song.priority, fadeOI := 0 }) :=
      .of_same rfl rfl
    exact hplayer.trans ((eachTrack_quiet beginTrack_quiet hw).trans
      (eachTrack_quiet endTrack_quiet hrest))
  · exact Option.some.inj h ▸ .refl s

theorem fadeOutBody_quiet {p : ℕ} (h : fadeOutBody s p = some s') : Quiet s s' := by
  have hplayer : ∀ x, Quiet s (s.setPlayer p x) := fun _ => .of_same rfl rfl
  unfold fadeOutBody at h
  dsimp only at h
  split at h
  · exact Option.some.inj h ▸ .refl s
  split at h
  · exact Option.some.inj h ▸ hplayer _
  split at h
  · exact (hplayer _).trans (eachTrack_quiet fadeVolume_quiet h)
  split at h
  · obtain ⟨w,hw,rfl⟩ := Option.map_eq_some_iff.mp h
    exact ((hplayer _).trans (eachTrack_quiet fadeStopTrack_quiet hw)).trans (.of_same rfl rfl)
  · exact (hplayer _).trans (eachTrack_quiet fadeVolume_quiet h)

/-- An event that neither is a tick nor comes from the mixer. -/
def Event.IsCall : Event → Prop
  | .tick .. | .mixer _ => False
  | _ => True

theorem step_quiet {e : Event} (he : e.IsCall) (h : step s e = some s') : Quiet s s' := by
  cases e with
  | mPlayStart p song => exact mPlayStart_quiet h
  | m4aMPlayStop p =>
    have hplayer : Quiet s (s.setPlayer p
        { s.player p with status := (s.player p).status ||| 0x80000000 }) := .of_same rfl rfl
    exact hplayer.trans (eachTrack_quiet trackStop_quiet h)
  | m4aMPlayContinue p => exact Option.some.inj h ▸ .of_same rfl rfl
  | m4aMPlayImmInit p => exact eachTrack_quiet immInitTrack_quiet h
  | fade p speed fadeOV => exact Option.some.inj h ▸ .of_same rfl rfl
  | fadeOutBody p => exact fadeOutBody_quiet h
  | tick p script => exact he.elim
  | update p => exact eachTrack_quiet updateTrack_quiet h
  | mixer status => exact he.elim
  | maxChans n =>
    obtain rfl := Option.some.inj h
    refine ⟨fun c => ?_,fun c => ?_,fun _ => .inl rfl⟩
    · cases c <;> rfl
    · cases c
      · exact .inr rfl
      · exact .inl rfl

end Calls

section Mixer

/-- What `SoundMainRAM` and `CgbSound` write to the status of an active channel: the end of its
sound, its start, the pseudo echo, the next phase of the envelope, and the release. -/
inductive MixOp
  | off
  | begin (looped : Bool)
  | echo (phase : Bool)
  | nextPhase
  | release
  deriving DecidableEq, Repr

def MixOp.apply (op : MixOp) (x : Byte) : Byte :=
  if x &&& 0xC7 = 0 then x
  else match op with
    | .off => 0
    | .begin looped =>
      if x &&& 0x80 ≠ 0 ∧ x &&& 0x40 = 0 then if looped then 0x13 else 0x03 else x
    | .echo phase => (if phase then x else x &&& 0xFC) ||| 0x04
    | .nextPhase => if 2 ≤ x &&& 3 then x-1 else x
    | .release => if x &&& 0x40 ≠ 0 then x &&& 0xFC else x

def mixStatus (ops : List MixOp) (x : Byte) : Byte := ops.foldl (fun x op => op.apply x) x

theorem stop_of_idle {x : Byte} (h : x &&& 0xC7 = 0) : x &&& 0x40 = 0 := by
  revert x
  decide

/-- The mixer never sets the stop flag, and it clears it only with the rest of the status. -/
theorem mixOp_stop (op : MixOp) (x : Byte) :
    op.apply x &&& 0xC7 = 0 ∨ op.apply x &&& 0x40 = x &&& 0x40 := by
  revert x
  cases op with
  | begin looped => cases looped <;> decide
  | echo phase => cases phase <;> decide
  | off => decide
  | nextPhase => decide
  | release => decide

theorem mixOp_idle (op : MixOp) {x : Byte} (h : x &&& 0xC7 = 0) : op.apply x = x := if_pos h

theorem mixStatus_idle (ops : List MixOp) {x : Byte} (h : x &&& 0xC7 = 0) : mixStatus ops x = x := by
  induction ops with
  | nil => rfl
  | cons op ops ih =>
    show mixStatus ops (op.apply x) = x
    rwa [mixOp_idle op h]

theorem mixStatus_stop (ops : List MixOp) (x : Byte) :
    mixStatus ops x &&& 0xC7 = 0 ∨ mixStatus ops x &&& 0x40 = x &&& 0x40 := by
  induction ops generalizing x with
  | nil => exact .inr rfl
  | cons op ops ih =>
    have hcons : mixStatus (op::ops) x = mixStatus ops (op.apply x) := rfl
    rw [hcons]
    obtain hoff | hstop := mixOp_stop op x
    · rw [mixStatus_idle ops hoff]
      exact .inl hoff
    · rw [← hstop]
      exact ih _

end Mixer

section Actions

instance (s : State) (t : ℕ) : Decidable (Playing s t) := inferInstanceAs (Decidable (_ ∧ _))

/-- The parts of a run: the countdown of a track at the start of its tick, its restart and its
commands, the end of a tick, a pass of the mixer, and the calls of the program. -/
inductive Action
  | countdown (t : ℕ)
  | restart (t : ℕ)
  | command (p t : ℕ) (x : Command)
  | status (p : ℕ) (x : Word)
  | mixer (ops : ChanId → List MixOp)
  | call (e : Event) (he : e.IsCall)

/-- A track that does not exist is passed over, and one that has ended executes no commands. -/
def actStep (s : State) : Action → Option State
  | .countdown t =>
    if s.Exists t then walk gateVisit np numChannels s (s.links.head t) else some s
  | .restart t => some (if s.Exists t then restartTrack s t else s)
  | .command p t x => if Playing s t then Sequencer.command s p t x else some s
  | .status p x => some (s.setPlayer p { s.player p with status := x })
  | .mixer ops => step s (.mixer fun c => mixStatus (ops c) (s.chan c).status)
  | .call e _ => step s e

def runActions : State → List Action → Option State
  | s, [] => some s
  | s, a::as => (actStep s a).bind fun s => runActions s as

/-- The channel that a note starts. -/
def noteChannel (s : State) (p t : ℕ) (x : NoteArgs) : Option ChanId :=
  if x.nested then none
  else
    let s := s.setTrack t (noteOperands x (s.track t))
    allocate s t (notePriority (s.player p) (s.track t)) x.type

def tickActions (p : ℕ) (script : ℕ → List Command) (tracks : List ℕ) : List Action :=
  tracks.flatMap fun t => .countdown t::.restart t::(script t).map (.command p t)

end Actions

section Decomposition
variable {s : State} {p t : ℕ}

theorem runActions_append (as bs : List Action) (s : State) :
    runActions s (as++bs) = (runActions s as).bind fun s => runActions s bs := by
  induction as generalizing s with
  | nil => rfl
  | cons a as ih =>
    rw [List.cons_append,runActions,runActions,Option.bind_assoc]
    congr
    funext s
    exact ih s

/-- The commands of a tick are those that the track executes until it ends. -/
theorem commands_actions (xs : List Command) (h : Sound s)
    (hp : (s.track t).flags = 0 ∨ Playing s t) :
    runActions s (xs.map (.command p t)) =
      if (s.track t).flags = 0 then some s else commands p t xs s := by
  induction xs generalizing s with
  | nil => split_ifs <;> rfl
  | cons x xs ih =>
    rw [List.map_cons,runActions,actStep]
    by_cases hfl : (s.track t).flags = 0
    · have hnot : ¬Playing s t := by
        simp [Playing,State.Exists,hfl]
      rw [if_neg hnot,if_pos hfl,Option.bind_some,ih h (.inl hfl),if_pos hfl]
    · have hplay := hp.resolve_left hfl
      obtain ⟨lists,hwf⟩ := h
      obtain ⟨s',hs',hsound,hcase⟩ := command_sound (p := p) hwf hplay x
      rw [if_pos hplay,if_neg hfl,commands,hs',Option.bind_some,Option.bind_some,ih hsound hcase]

theorem tickTrack_actions (h : Sound s) (xs : List Command) :
    tickTrack p s t xs = runActions s (.countdown t::.restart t::xs.map (.command p t)) := by
  unfold tickTrack
  rw [runActions,actStep]
  by_cases ht : s.Exists t
  · obtain ⟨lists,hwf⟩ := h
    obtain ⟨w,hw,htr,lists',hwf',-⟩ := walk_wellFormed gateVisit_tidy hwf ht
    have hex : w.Exists t := by
      unfold State.Exists
      rw [htr]
      exact ht
    obtain ⟨hr,hst,hre⟩ := restartTrack_sound hwf' t
    have hplay : Playing (restartTrack w t) t := ⟨hre hex,hst⟩
    have hfl : ((restartTrack w t).track t).flags ≠ 0 := by
      intro hzero
      exact hplay.1 (by simp [hzero])
    rw [if_pos ht,if_pos ht,hw,Option.bind_some,Option.bind_some,runActions,actStep,if_pos hex,
      Option.bind_some,commands_actions xs ⟨lists',hr⟩ (.inr hplay),if_neg hfl]
  · have hskip : ∀ ys : List Command, runActions s (ys.map (.command p t)) = some s := by
      intro ys
      induction ys with
      | nil => rfl
      | cons y ys ih => rw [List.map_cons,runActions,actStep,if_neg fun hp => ht hp.1,
          Option.bind_some,ih]
    rw [if_neg ht,if_neg ht,Option.bind_some,runActions,actStep,if_neg ht,Option.bind_some,hskip]

theorem tickTracks_actions (script : ℕ → List Command) (tracks : List ℕ) (h : Sound s)
    (bit mask : Word) :
    (tickTracks p (tracks.map fun t => (t,script t)) s bit mask).map Prod.fst =
      runActions s (tickActions p script tracks) := by
  induction tracks generalizing s bit mask with
  | nil => rfl
  | cons t ts ih =>
    have hcons : tickActions p script (t::ts) =
        (.countdown t::.restart t::(script t).map (.command p t)) ++ tickActions p script ts := rfl
    obtain ⟨s',hs',hsound⟩ := tickTrack_preserves s p t (script t) h
    rw [hcons,runActions_append,← tickTrack_actions h,List.map_cons,tickTracks,hs',Option.bind_some,
      Option.bind_some,ih hsound]

/-- A tick counts down every track of its player once, before the commands of the track. -/
theorem tick_actions (h : Sound s) (p : ℕ) (script : ℕ → List Command) :
    ∃ x, tick s p script =
      runActions s (tickActions p script (s.player p).tracks ++ [.status p x]) := by
  obtain ⟨s',m,hs',-⟩ :=
    tickTracks_preserves p ((s.player p).tracks.map fun t => (t,script t)) s 1 0 h
  refine ⟨if m = 0 then 0x80000000 else m,?_⟩
  rw [runActions_append,← tickTracks_actions script _ h 1 0,tick,hs']
  rfl

end Decomposition

section Effects
variable {s s' : State} {lists : ℕ → List ChanId} {p t : ℕ} {a : Action} {c : ChanId}

/-- The channel that an action starts. -/
def started (s : State) : Action → Option ChanId
  | .command p t (.note x) => if Playing s t then noteChannel s p t x else none
  | _ => none

theorem plyNote_eq (s : State) (p t : ℕ) (x : NoteArgs) :
    plyNote s p t x = match noteChannel s p t x with
      | none => s.setTrack t (noteOperands x (s.track t))
      | some c => startChannel (s.setTrack t (noteOperands x (s.track t))) t
          (notePriority (s.player p) (noteOperands x (s.track t))) c := by
  have htrack : (s.setTrack t (noteOperands x (s.track t))).track t = noteOperands x (s.track t) :=
    Function.update_self ..
  unfold plyNote noteChannel
  cases x.nested <;> simp only [htrack] <;> rfl

/-- `ply_endtie` sets the stop flag of the first channel of the list that is held with the key. -/
theorem plyEndtie_eq (h : WellFormed s lists) (ht : s.Exists t) (key : Option Byte) :
    plyEndtie s t key =
      let w := s.setTrack t { s.track t with key := key.getD (s.track t).key }
      some (match (lists t).find? fun c => decide (Held (w.track t).key (s.chan c)) with
        | none => w
        | some c => w.setStatus c ((s.chan c).status ||| 0x40)) := by
  have hlink := h.owned.linked t ht
  have hlen := h.length_le t
  have hsame : s.setTrack t { s.track t with key := (s.track t).key } = s := by
    unfold State.setTrack
    rw [Function.update_eq_self]
  cases key with
  | none =>
    simp only [Option.getD_none,hsame]
    exact tieWalk_eq _ hlink hlen
  | some k =>
    exact tieWalk_eq (s := s.setTrack t { s.track t with key := k }) _ hlink hlen

/-- The countdown of the track. -/
def Action.counts (t : ℕ) : Action → Bool
  | .countdown u => u = t
  | _ => false

/-- Everything that an action which does not start the channel can do to it. -/
inductive Effect (s : State) (c : ChanId) (s' : State) : Action → Prop
  | untouched {a : Action} (hchan : s'.chan c = s.chan c)
      (howner : s'.links.owner c = s.links.owner c)
      (hcount : ∀ t, s.links.owner c = some t → a.counts t = false) : Effect s c s' a
  | counted (t : ℕ) (ht : s.links.owner c = some t) (hchan : s'.chan c = gateStep (s.chan c))
      (howner : s'.links.owner c = s.links.owner c ∨ s'.links.owner c = none)
      (hkept : ¬s.Idle c → s'.links.owner c = s.links.owner c) : Effect s c s' (.countdown t)
  | ended (p t : ℕ) (x : Command) (ht : s.links.owner c = some t) (hplay : Playing s t)
      (hx : x = .fine ∨ x = .patt ∧ 3 ≤ (s.track t).patternLevel)
      (hchan : s'.chan c = fineStep (s.chan c))
      (howner : s'.links.owner c = s.links.owner c ∨ s'.links.owner c = none) :
      Effect s c s' (.command p t x)
  | tied (p t : ℕ) (key : Option Byte) (ht : s.links.owner c = some t)
      (hclear : (s.chan c).status &&& 0x40 = 0)
      (hchan : s'.chan c = { s.chan c with status := (s.chan c).status ||| 0x40 })
      (howner : s'.links.owner c = s.links.owner c) : Effect s c s' (.command p t (.endtie key))
  | mixed (ops : ChanId → List MixOp)
      (hchan : s'.chan c = { s.chan c with status := mixStatus (ops c) (s.chan c).status })
      (howner : s'.links.owner c = s.links.owner c) : Effect s c s' (.mixer ops)
  | called (e : Event) (he : e.IsCall) (h : Quiet s s') : Effect s c s' (.call e he)

theorem plyFine_effect (h : WellFormed s lists) (hplay : Playing s t) {x : Command}
    (hx : x = .fine ∨ x = .patt ∧ 3 ≤ (s.track t).patternLevel) (hact : plyFine s t = some s') :
    Effect s c s' (.command p t x) := by
  obtain ⟨w,hw,hchan,hleft,howner⟩ := plyFine_spec h hplay.1
  obtain rfl : w = s' := Option.some.inj (hw.symm.trans hact)
  by_cases hc : s.links.owner c = some t
  · exact .ended p t x hc hplay hx (by rw [hchan,if_pos hc]) (hleft c)
  · exact .untouched (by rw [hchan,if_neg hc]) (howner c hc) fun _ _ => rfl

theorem command_effect (h : WellFormed s lists) (hplay : Playing s t) {x : Command}
    (hact : command s p t x = some s') (hc : started s (.command p t x) ≠ some c) :
    Effect s c s' (.command p t x) := by
  cases x with
  | note x =>
    obtain rfl := Option.some.inj hact
    rw [started,if_pos hplay] at hc
    rw [plyNote_eq]
    cases hnote : noteChannel s p t x with
    | none => exact .untouched rfl rfl fun _ _ => rfl
    | some d =>
      rw [hnote] at hc
      have hcd : c ≠ d := fun heq => hc (by rw [heq])
      obtain ⟨hchan,howner⟩ := startChannel_other (s.setTrack t (noteOperands x (s.track t))) t
        (notePriority (s.player p) (noteOperands x (s.track t))) hcd
      exact .untouched hchan howner fun _ _ => rfl
  | fine => exact plyFine_effect h hplay (.inl rfl) hact
  | patt =>
    simp only [command,plyPatt] at hact
    split_ifs at hact with hlevel
    · exact plyFine_effect h hplay (.inr ⟨rfl,hlevel⟩) hact
    · exact Option.some.inj hact ▸ .untouched rfl rfl fun _ _ => rfl
  | pend =>
    simp only [command,plyPend] at hact
    split_ifs at hact <;> exact Option.some.inj hact ▸ .untouched rfl rfl fun _ _ => rfl
  | endtie key =>
    simp only [command] at hact
    rw [plyEndtie_eq h hplay.1] at hact
    obtain rfl := Option.some.inj hact
    split
    · exact .untouched rfl rfl fun _ _ => rfl
    · rename_i d hfind
      by_cases hcd : c = d
      · subst hcd
        have hheld := List.find?_some hfind
        rw [decide_eq_true_eq] at hheld
        have hmem : c ∈ lists t := List.mem_of_find?_eq_some hfind
        exact .tied p t key ((h.owned.mem t c).mp hmem) hheld.2.1
          (by simp [State.setStatus,State.setChan,State.setTrack]) rfl
      · exact .untouched (by simp [State.setStatus,State.setChan,State.setTrack,hcd]) rfl fun _ _ => rfl
  | prio x => exact Option.some.inj hact ▸ .untouched rfl rfl fun _ _ => rfl
  | parameter marks => exact Option.some.inj hact ▸ .untouched rfl rfl fun _ _ => rfl

theorem actStep_effect (h : WellFormed s lists) (hact : actStep s a = some s')
    (hc : started s a ≠ some c) : Effect s c s' a := by
  cases a with
  | countdown t =>
    simp only [actStep] at hact
    split_ifs at hact with ht
    · obtain ⟨w,hw,hchan,hleft,howner⟩ := countdown_spec h ht
      obtain rfl : w = s' := Option.some.inj (hw.symm.trans hact)
      by_cases hct : s.links.owner c = some t
      · exact .counted t hct (by rw [hchan,if_pos hct]) (hleft c) fun hidle => howner c (.inr hidle)
      · refine .untouched (by rw [hchan,if_neg hct]) (howner c (.inl hct)) fun u hu => ?_
        exact decide_eq_false fun htu => hct (htu ▸ hu)
    · obtain rfl := Option.some.inj hact
      refine .untouched rfl rfl fun u hu => decide_eq_false fun htu => ht ?_
      exact h.owned.live_of_mem (htu ▸ (h.owned.mem u c).mpr hu)
  | restart t =>
    obtain rfl := Option.some.inj hact
    unfold restartTrack
    split_ifs <;> exact .untouched rfl rfl fun _ _ => rfl
  | command p t x =>
    simp only [actStep] at hact
    split_ifs at hact with hplay
    · exact command_effect h hplay hact hc
    · exact Option.some.inj hact ▸ .untouched rfl rfl fun _ _ => rfl
  | status p x => exact Option.some.inj hact ▸ .untouched rfl rfl fun _ _ => rfl
  | mixer ops => exact Option.some.inj hact ▸ .mixed ops rfl rfl
  | call e he => exact .called e he (step_quiet he hact)

end Effects

end Sequencer
end M4a
end AgbTools
