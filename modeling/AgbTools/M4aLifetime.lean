import AgbTools.M4aActions

/-! How long a note sounds: the gate that the ticks of `MPlayMain` count down, the end of a tie, and
the channel that `ply_endtie` finds. -/
namespace AgbTools
namespace M4a
namespace Sequencer

open OwnedLists

section Gate
variable {s s' : State} {lists : ℕ → List ChanId} {p t g n : ℕ} {a : Action} {c : ChanId}

/-- The note in the channel is not stolen, not ended and not stopped. -/
def Undisturbed (c : ChanId) (t : ℕ) (s : State) (a : Action) (s' : State) : Prop :=
  started s a ≠ some c ∧ match a with
    | .command _ u .fine => Playing s u → u ≠ t
    | .command _ u .patt => Playing s u → u = t → (s.track t).patternLevel < 3
    | .command _ _ (.endtie _) => (s'.chan c).status = (s.chan c).status
    | .mixer _ | .call _ _ => ¬s'.Idle c
    | _ => True

/-- A note of gate time `g` in the channel, counted down `n` times. -/
structure Sounding (s : State) (c : ChanId) (t g n : ℕ) : Prop where
  owner : s.links.owner c = some t
  active : ¬s.Idle c
  gate : (s.chan c).gateTime.toNat = g-n
  stop : (s.chan c).status &&& 0x40 ≠ 0 ↔ g ≠ 0 ∧ g ≤ n

theorem Sounding.congr (h : Sounding s c t g n) (howner : s'.links.owner c = s.links.owner c)
    (hactive : ¬s'.Idle c) (hgate : (s'.chan c).gateTime = (s.chan c).gateTime)
    (hstop : (s'.chan c).status &&& 0x40 = (s.chan c).status &&& 0x40) : Sounding s' c t g n where
  owner := howner.trans h.owner
  active := hactive
  gate := by rw [hgate,h.gate]
  stop := by rw [hstop,h.stop]

theorem stop_or (x : Byte) : (x ||| 0x40) &&& 0x40 ≠ 0 ∧ (x ||| 0x40) &&& 0xC7 ≠ 0 := by
  revert x
  decide

/-- The countdown of its track. -/
theorem Sounding.counted (h : Sounding s c t g n) (hchan : s'.chan c = gateStep (s.chan c))
    (howner : s'.links.owner c = s.links.owner c) : Sounding s' c t g (n+1) := by
  have hgate := h.gate
  have hstop := h.stop
  have hactive : (s.chan c).status &&& 0xC7 ≠ 0 := h.active
  unfold gateStep at hchan
  rw [if_neg hactive] at hchan
  split_ifs at hchan with hzero hlast
  · have hn : (s.chan c).gateTime.toNat = 0 := by rw [hzero]; rfl
    refine ⟨howner.trans h.owner,?_,?_,?_⟩
    · rw [State.Idle,hchan]
      exact hactive
    · rw [hchan]
      omega
    · rw [hchan,hstop]
      omega
  · have hone : (s.chan c).gateTime.toNat = 1 := by bv_omega
    refine ⟨howner.trans h.owner,?_,?_,?_⟩
    · rw [State.Idle,hchan]
      exact (stop_or _).2
    · rw [hchan]
      show 0 = g-(n+1)
      omega
    · rw [hchan]
      exact ⟨fun _ => by omega,fun _ => (stop_or _).1⟩
  · have hpred : ((s.chan c).gateTime-1).toNat+1 = (s.chan c).gateTime.toNat := by bv_omega
    have hpos : ((s.chan c).gateTime-1).toNat ≠ 0 := by bv_omega
    refine ⟨howner.trans h.owner,?_,?_,?_⟩
    · rw [State.Idle,hchan]
      exact hactive
    · rw [hchan]
      show ((s.chan c).gateTime-1).toNat = g-(n+1)
      omega
    · rw [hchan]
      show (s.chan c).status &&& 0x40 ≠ 0 ↔ _
      rw [hstop]
      omega

theorem Sounding.act (h : Sounding s c t g n) (hwf : WellFormed s lists)
    (hact : actStep s a = some s') (hund : Undisturbed c t s a s') :
    Sounding s' c t g (n + (a.counts t).toNat) := by
  obtain ⟨hstart,hkeep⟩ := hund
  have hother : ∀ u, s.links.owner c = some u → u = t :=
    fun u hu => Option.some.inj (hu.symm.trans h.owner)
  cases actStep_effect hwf hact hstart with
  | untouched hchan howner hcount =>
    have hactive : ¬s'.Idle c := by
      rw [State.Idle,hchan]
      exact h.active
    rw [hcount t h.owner]
    exact h.congr howner hactive (by rw [hchan]) (by rw [hchan])
  | counted u hu hchan howner hkept =>
    obtain rfl := hother u hu
    simpa [Action.counts] using h.counted hchan (hkept h.active)
  | ended p u x hu hplay hx hchan howner =>
    obtain rfl := hother u hu
    obtain rfl | ⟨rfl,hlevel⟩ := hx
    · exact absurd rfl (hkeep hplay)
    · exact absurd (hkeep hplay rfl) (BitVec.not_lt.mpr hlevel)
  | tied p u key hu hclear hchan howner =>
    have hstatus : (s'.chan c).status = (s.chan c).status := hkeep
    rw [hchan] at hstatus
    have hset := (stop_or (s.chan c).status).1
    rw [show (s.chan c).status ||| 0x40 = (s.chan c).status from hstatus] at hset
    exact absurd hclear hset
  | mixed ops hchan howner =>
    have hactive : ¬s'.Idle c := hkeep
    refine h.congr howner hactive (by rw [hchan]) ?_
    rw [State.Idle,hchan] at hactive
    rw [hchan]
    exact (mixStatus_stop (ops c) (s.chan c).status).resolve_left hactive
  | called e he hquiet =>
    have hactive : ¬s'.Idle c := hkeep
    have howner := (hquiet.owner c).resolve_right fun hidle => hactive hidle.1
    have hstatus := (hquiet.status c).resolve_right fun hzero => hactive (idle_of_zero hzero)
    exact h.congr howner hactive (hquiet.gate c) (by rw [hstatus])

end Gate

section Order
variable {s s' : State} {r : List ChanId} {p t : ℕ}

/-- The channels in the order of their last start, the latest first. -/
def recent (s : State) (r : List ChanId) (a : Action) : List ChanId :=
  match started s a with
  | some c => c::r.erase c
  | none => r

def recency : State → List ChanId → List Action → List ChanId
  | _, r, [] => r
  | s, r, a::as =>
    match actStep s a with
    | some s' => recency s' (recent s r a) as
    | none => r

/-- The list of every track is in the order of the last starts. -/
structure Ordered (s : State) (r : List ChanId) : Prop where
  nodup : r.Nodup
  lists : ∃ lists, WellFormed s lists ∧ ∀ u, (lists u).Sublist r

theorem Shrinks.ordered {x : Option State} (h : Shrinks s x) (ho : Ordered s r) :
    ∃ s', x = some s' ∧ Ordered s' r := by
  obtain ⟨lists,hwf,hsub⟩ := ho.lists
  obtain ⟨s',lists',hx,hwf',hsub'⟩ := h lists hwf
  exact ⟨s',hx,ho.nodup,lists',hwf',fun u => (hsub' u).trans (hsub u)⟩

/-- Only notes put channels into the lists. -/
theorem command_shrinks (hp : Playing s t) {x : Command} (hx : ∀ y, x ≠ .note y) :
    Shrinks s (command s p t x) := by
  have hset : ∀ r : Track, r.flags = (s.track t).flags → Shrinks s (some (s.setTrack t r)) :=
    fun r hr lists h => ⟨_,lists,rfl,h.setOperands hr,fun _ => List.Sublist.refl _⟩
  have hfine : Shrinks s (plyFine s t) := by
    intro lists h
    obtain ⟨s',hs',-,lists',hwf,hsub⟩ := plyFine_wellFormed h hp.1
    exact ⟨s',lists',hs',hwf,hsub⟩
  cases x with
  | note y => exact absurd rfl (hx y)
  | fine => exact hfine
  | patt =>
    simp only [command,plyPatt]
    split_ifs
    · exact hfine
    · exact hset _ rfl
  | pend =>
    simp only [command,plyPend]
    split_ifs
    · exact .same rfl rfl
    · exact hset _ rfl
  | endtie key =>
    intro lists h
    simp only [command]
    rw [plyEndtie_eq h hp.1]
    refine ⟨_,lists,rfl,?_,fun _ => List.Sublist.refl _⟩
    have hwf : WellFormed (s.setTrack t { s.track t with key := key.getD (s.track t).key }) lists :=
      h.setOperands rfl
    split
    · exact hwf
    · exact hwf.same rfl rfl
  | prio y => exact hset _ rfl
  | parameter marks =>
    intro lists h
    have hmark (b : Byte) (hb : 0x0F &&& b = 0) := mark_and (s.track t).flags marks b hb
    refine ⟨_,lists,rfl,?_,fun _ => List.Sublist.refl _⟩
    apply h.setTrack
    · rw [hmark exist (by decide)]
      rfl
    · rw [hmark start (by decide)]
      exact id

theorem plyNote_ordered (h : Ordered s r) (hp : Playing s t) (x : NoteArgs) :
    Ordered (plyNote s p t x) (match noteChannel s p t x with
      | some c => c::r.erase c
      | none => r) := by
  obtain ⟨lists,hwf,hsub⟩ := h.lists
  have hfl := noteOperands_flags x (s.track t)
  have hwf₁ := hwf.setOperands hfl
  have hplay₁ := playing_setTrack hp hfl
  rw [plyNote_eq]
  cases noteChannel s p t x with
  | none => exact ⟨h.nodup,lists,hwf₁,hsub⟩
  | some c =>
    refine ⟨?_,_,(startChannel_wellFormed hwf₁ hplay₁ _ c).1,fun u => ?_⟩
    · exact List.nodup_cons.mpr ⟨h.nodup.not_mem_erase,h.nodup.erase c⟩
    · by_cases hut : u = t
      · subst hut
        rw [Function.update_self]
        exact ((hsub u).erase c).cons_cons c
      · rw [Function.update_of_ne hut]
        exact ((hsub u).erase c).cons c

/-- Every action ends and keeps the lists in order. -/
theorem actStep_ordered (h : Ordered s r) (a : Action) :
    ∃ s', actStep s a = some s' ∧ Ordered s' (recent s r a) := by
  obtain ⟨lists,hwf,hsub⟩ := h.lists
  cases a with
  | countdown t =>
    simp only [actStep]
    split_ifs with ht
    · obtain ⟨s',hs',-,lists',hwf',hsub',-⟩ := walk_wellFormed gateVisit_tidy hwf ht
      exact ⟨s',hs',h.nodup,lists',hwf',fun u => (hsub' u).trans (hsub u)⟩
    · exact ⟨s,rfl,h⟩
  | restart t =>
    refine ⟨_,rfl,h.nodup,lists,?_,hsub⟩
    split_ifs
    · exact (restartTrack_sound hwf t).1
    · exact hwf
  | command p t x =>
    by_cases hp : Playing s t
    · simp only [actStep,if_pos hp]
      cases x with
      | note x =>
        refine ⟨_,rfl,?_⟩
        have hnote := plyNote_ordered (p := p) h hp x
        rw [recent,started,if_pos hp]
        exact hnote
      | _ => exact (command_shrinks hp (by simp)).ordered h
    · have hnone : started s (.command p t x) = none := by
        cases x <;> first | exact if_neg hp | rfl
      rw [actStep,if_neg hp,recent,hnone]
      exact ⟨s,rfl,h⟩
  | status p x => exact ⟨_,rfl,h.nodup,lists,hwf.same rfl rfl,hsub⟩
  | mixer ops => exact ⟨_,rfl,h.nodup,lists,hwf.same rfl rfl,hsub⟩
  | call e he =>
    have hshrinks : Shrinks s (step s e) := step_shrinks s fun p script heq => by
      rw [heq] at he
      exact he
    exact hshrinks.ordered h

theorem runActions_ordered (as : List Action) (h : Ordered s r) :
    ∃ s', runActions s as = some s' ∧ Ordered s' (recency s r as) := by
  induction as generalizing s r with
  | nil => exact ⟨s,rfl,h⟩
  | cons a as ih =>
    obtain ⟨s₁,h₁,ho₁⟩ := actStep_ordered h a
    obtain ⟨s₂,h₂,ho₂⟩ := ih ho₁
    refine ⟨s₂,by rw [runActions,h₁,Option.bind_some,h₂],?_⟩
    rw [recency,h₁]
    exact ho₂

/-- The channels of a track, in the order of their last starts, are its list. -/
theorem Ordered.filter_eq (h : Ordered s r) {lists : ℕ → List ChanId} (hwf : WellFormed s lists)
    (hsub : (lists t).Sublist r) :
    lists t = r.filter fun c => decide (s.links.owner c = some t) := by
  have hown : ∀ c ∈ lists t, decide (s.links.owner c = some t) = true :=
    fun c hc => decide_eq_true ((hwf.owned.mem t c).mp hc)
  have hfilter : (lists t).Sublist (r.filter fun c => decide (s.links.owner c = some t)) := by
    have hsub' := hsub.filter fun c => decide (s.links.owner c = some t)
    rwa [List.filter_eq_self.mpr hown] at hsub'
  have hmem : ∀ c, c ∈ lists t ↔ c ∈ r.filter fun c => decide (s.links.owner c = some t) := by
    intro c
    refine ⟨fun hc => hfilter.subset hc,fun hc => (hwf.owned.mem t c).mpr ?_⟩
    exact of_decide_eq_true (List.mem_filter.mp hc).2
  have hperm := (List.perm_ext_iff_of_nodup (hwf.owned.nodup t) (h.nodup.filter _)).mpr hmem
  exact hfilter.eq_of_length hperm.length_eq

/-- `ply_endtie` finds the channel of the track that was started last among those held with the
key. -/
theorem Ordered.endtie (h : Ordered s r) (hp : Playing s t) (key : Option Byte) :
    plyEndtie s t key =
      let w := s.setTrack t { s.track t with key := key.getD (s.track t).key }
      some (match r.find? fun c =>
          decide (s.links.owner c = some t ∧ Held (w.track t).key (s.chan c)) with
        | none => w
        | some c => w.setStatus c ((s.chan c).status ||| 0x40)) := by
  obtain ⟨lists,hwf,hsub⟩ := h.lists
  have hendtie := plyEndtie_eq hwf hp.1 key
  rw [h.filter_eq hwf (hsub t)] at hendtie
  simp only [List.find?_filter,Bool.decide_and,Bool.decide_eq_true] at hendtie ⊢
  exact hendtie

end Order

section Lifetime
variable {s s' : State} {r : List ChanId} {c : ChanId} {p t : ℕ} {a : Action} {x : NoteArgs}

/-- Along a run the note in the channel is not stolen, ended or stopped. -/
def UndisturbedRun (c : ChanId) (t : ℕ) : State → List Action → Prop
  | _, [] => True
  | s, a::as => ∀ s', actStep s a = some s' → Undisturbed c t s a s' ∧ UndisturbedRun c t s' as

/-- Along a run no other note gets the channel. -/
def Unstolen (c : ChanId) : State → List Action → Prop
  | _, [] => True
  | s, a::as => started s a ≠ some c ∧ ∀ s', actStep s a = some s' → Unstolen c s' as

theorem Sounding.run {g n : ℕ} (as : List Action) (h : Sounding s c t g n) (ho : Ordered s r)
    (hund : UndisturbedRun c t s as) :
    ∃ s', runActions s as = some s' ∧ Sounding s' c t g (n + as.countP (Action.counts t)) := by
  induction as generalizing s r n with
  | nil => exact ⟨s,rfl,h⟩
  | cons a as ih =>
    obtain ⟨s₁,h₁,ho₁⟩ := actStep_ordered ho a
    obtain ⟨hund₁,hrest⟩ := hund s₁ h₁
    obtain ⟨lists,hwf,-⟩ := ho.lists
    obtain ⟨s₂,h₂,hs₂⟩ := ih (h.act hwf h₁ hund₁) ho₁ hrest
    refine ⟨s₂,by rw [runActions,h₁,Option.bind_some,h₂],?_⟩
    have hcount : n + (a.counts t).toNat + as.countP (Action.counts t) =
        n + (a::as).countP (Action.counts t) := by
      rw [List.countP_cons]
      cases a.counts t
      · simp
      · simp
        omega
    rwa [hcount] at hs₂

/-- The channel a note has just started. -/
theorem sounding_start (hnote : noteChannel s p t x = some c) :
    Sounding (plyNote s p t x) c t (noteOperands x (s.track t)).gateTime.toNat 0 := by
  rw [plyNote_eq,hnote]
  have hchan : ((startChannel (s.setTrack t (noteOperands x (s.track t))) t
      (notePriority (s.player p) (noteOperands x (s.track t))) c).chan c) =
      ⟨0x80,(noteOperands x (s.track t)).gateTime,(noteOperands x (s.track t)).key,
        notePriority (s.player p) (noteOperands x (s.track t))⟩ := by
    simp [startChannel,State.setFlags,State.setTrack,State.setChan,realClearChain]
  refine ⟨?_,?_,?_,?_⟩
  · simp [startChannel,State.setFlags,State.setTrack,State.setChan,realClearChain,Links.push]
  · dsimp only
    rw [State.Idle,hchan]
    exact show ¬(0x80 : Byte) &&& 0xC7 = 0 by decide
  · dsimp only
    rw [hchan]
    rfl
  · dsimp only
    rw [hchan]
    have hclear : (0x80 : Byte) &&& 0x40 = 0 := by decide
    refine ⟨fun hstop => absurd hclear hstop,fun hg => ?_⟩
    omega

/-- A tie in the channel, as long as no other note gets it. -/
structure Tied (s : State) (c : ChanId) (t : ℕ) : Prop where
  gate : (s.chan c).gateTime = 0
  owner : s.links.owner c = some t ∨ s.links.owner c = none

theorem gateStep_zero {x : Channel} (h : x.gateTime = 0) : gateStep x = x := by
  unfold gateStep
  split_ifs <;> rfl

theorem Tied.act (h : Tied s c t) (ho : Ordered s r) (hact : actStep s a = some s')
    (hstart : started s a ≠ some c) : Tied s' c t := by
  obtain ⟨lists,hwf,-⟩ := ho.lists
  have hleft : s'.links.owner c = s.links.owner c ∨ s'.links.owner c = none →
      s'.links.owner c = some t ∨ s'.links.owner c = none := by
    rintro (heq | heq)
    · rw [heq]
      exact h.owner
    · exact .inr heq
  cases actStep_effect hwf hact hstart with
  | untouched hchan howner => exact ⟨by rw [hchan,h.gate],hleft (.inl howner)⟩
  | counted u hu hchan howner => exact ⟨by rw [hchan,gateStep_zero h.gate,h.gate],hleft howner⟩
  | ended p u x hu hplay hx hchan howner =>
    refine ⟨?_,hleft howner⟩
    rw [hchan,fineStep]
    split_ifs <;> exact h.gate
  | tied p u key hu hclear hchan howner => exact ⟨by rw [hchan]; exact h.gate,hleft (.inl howner)⟩
  | mixed ops hchan howner => exact ⟨by rw [hchan]; exact h.gate,hleft (.inl howner)⟩
  | called e he hquiet =>
    exact ⟨(hquiet.gate c).trans h.gate,hleft ((hquiet.owner c).imp_right And.right)⟩

theorem Tied.run (as : List Action) {bs : List Action} (h : Tied s c t) (ho : Ordered s r)
    (hun : Unstolen c s (as++bs)) (has : runActions s as = some s') :
    Tied s' c t ∧ (∃ r', Ordered s' r') ∧ Unstolen c s' bs := by
  induction as generalizing s r with
  | nil =>
    obtain rfl := Option.some.inj has
    exact ⟨h,⟨r,ho⟩,hun⟩
  | cons a as ih =>
    obtain ⟨s₁,h₁,ho₁⟩ := actStep_ordered ho a
    rw [runActions,h₁,Option.bind_some] at has
    exact ih (h.act ho h₁ hun.1) ho₁ (hun.2 s₁ h₁) has

/-- What gives a tie its stop flag. -/
theorem Tied.cause (h : Tied s c t) (ho : Ordered s r) (hact : actStep s a = some s')
    (hstart : started s a ≠ some c) (hclear : (s.chan c).status &&& 0x40 = 0)
    (hset : (s'.chan c).status &&& 0x40 ≠ 0) :
    ∃ p, (∃ key, a = .command p t (.endtie key)) ∨ a = .command p t .fine ∨
      a = .command p t .patt ∧ 3 ≤ (s.track t).patternLevel := by
  obtain ⟨lists,hwf,-⟩ := ho.lists
  have hother : ∀ u, s.links.owner c = some u → u = t := by
    intro u hu
    have howner := h.owner.resolve_right (by simp [hu])
    exact Option.some.inj (hu.symm.trans howner)
  cases actStep_effect hwf hact hstart with
  | untouched hchan howner =>
    rw [hchan] at hset
    exact absurd hclear hset
  | counted u hu hchan howner =>
    rw [hchan,gateStep_zero h.gate] at hset
    exact absurd hclear hset
  | ended p u x hu hplay hx hchan howner =>
    obtain rfl := hother u hu
    obtain rfl | ⟨rfl,hlevel⟩ := hx
    · exact ⟨p,.inr (.inl rfl)⟩
    · exact ⟨p,.inr (.inr ⟨rfl,hlevel⟩)⟩
  | tied p u key hu hclear hchan howner =>
    obtain rfl := hother u hu
    exact ⟨p,.inl ⟨key,rfl⟩⟩
  | mixed ops hchan howner =>
    rw [hchan] at hset
    obtain hoff | hsame := mixStatus_stop (ops c) (s.chan c).status
    · exact absurd (stop_of_idle hoff) hset
    · exact absurd (hsame.trans hclear) hset
  | called e he hquiet =>
    obtain heq | hzero := hquiet.status c
    · rw [heq] at hset
      exact absurd hclear hset
    · rw [hzero] at hset
      exact absurd rfl hset

/-- The notes of every run: the gate of a note closes at the tick it names, a tie ends with its
command or its track, `ply_endtie` ends the latest such note, and a tick counts down every track of
its player once. -/
theorem note_lifetime (player : ℕ → Player) (track : ℕ → Track) (head : ℕ → Option ChanId)
    (n : Fin 13) (as : List Action) :
    ∃ s, runActions (initial player track head n) as = some s ∧
      (∀ p t x c, Playing s t → noteChannel s p t x = some c →
        let g := (noteOperands x (s.track t)).gateTime.toNat
        (∀ bs, UndisturbedRun c t (plyNote s p t x) bs →
          ∃ s', runActions (plyNote s p t x) bs = some s' ∧
            ((s'.chan c).status &&& 0x40 ≠ 0 ↔ g ≠ 0 ∧ g ≤ bs.countP (Action.counts t))) ∧
        (g = 0 → ∀ bs a s' s'', Unstolen c (plyNote s p t x) (bs++[a]) →
          runActions (plyNote s p t x) bs = some s' → actStep s' a = some s'' →
          (s'.chan c).status &&& 0x40 = 0 → (s''.chan c).status &&& 0x40 ≠ 0 →
          ∃ q, (∃ key, a = .command q t (.endtie key)) ∨ a = .command q t .fine ∨
            a = .command q t .patt ∧ 3 ≤ (s'.track t).patternLevel)) ∧
      (∀ t key, Playing s t → plyEndtie s t key =
        let w := s.setTrack t { s.track t with key := key.getD (s.track t).key }
        some (match (recency (initial player track head n) [] as).find? fun c =>
            decide (s.links.owner c = some t ∧ Held (w.track t).key (s.chan c)) with
          | none => w
          | some c => w.setStatus c ((s.chan c).status ||| 0x40))) ∧
      ∀ p script, ∃ x, tick s p script =
        runActions s (tickActions p script (s.player p).tracks ++ [.status p x]) := by
  have hinit : Ordered (initial player track head n) [] :=
    ⟨List.nodup_nil,_,initial_wellFormed player track head n,fun _ => List.Sublist.refl _⟩
  obtain ⟨s,hs,ho⟩ := runActions_ordered as hinit
  refine ⟨s,hs,fun p t x c hp hnote => ?_,fun t key hp => ho.endtie hp key,fun p script => ?_⟩
  · have hnote' := plyNote_ordered (p := p) ho hp x
    have hstart := sounding_start hnote
    refine ⟨fun bs hund => ?_,fun hg bs a s' s'' hun hbs ha hclear hset => ?_⟩
    · obtain ⟨s',hs',hsound⟩ := hstart.run bs hnote' hund
      rw [Nat.zero_add] at hsound
      exact ⟨s',hs',hsound.stop⟩
    · have htied : Tied (plyNote s p t x) c t :=
        ⟨BitVec.eq_of_toNat_eq (by rw [hstart.gate,hg]; rfl),.inl hstart.owner⟩
      obtain ⟨htied',⟨r,ho'⟩,hun'⟩ := htied.run bs hnote' hun hbs
      exact htied'.cause ho' ha hun'.1 hclear hset
  · obtain ⟨lists,hwf,-⟩ := ho.lists
    exact tick_actions ⟨lists,hwf⟩ p script

/-- A player with one track that plays one note for two ticks. -/
def solo : ℕ → Player := fun _ => ⟨[1],0,false,0,0,0,0,0⟩

def soloNote : NoteArgs := ⟨2,some 60,some 100,none,0,false,by decide⟩

theorem note_lifetime_solo :
    ∃ s s', runActions (initial solo (fun _ => ⟨0,0,0,0,0,0,0⟩) (fun _ => none) 8)
        [.call (.mPlayStart 0 ⟨1,0⟩) trivial,.countdown 1,.restart 1] = some s ∧
      runActions (plyNote s 0 1 soloNote) [.countdown 1,.countdown 1] = some s' ∧
      (s'.chan (.direct 0)).status &&& 0x40 ≠ 0 := by
  obtain ⟨s,hs,hnote,-⟩ := note_lifetime solo (fun _ => ⟨0,0,0,0,0,0,0⟩) (fun _ => none) 8
    [.call (.mPlayStart 0 ⟨1,0⟩) trivial,.countdown 1,.restart 1]
  have hstate : (runActions (initial solo (fun _ => ⟨0,0,0,0,0,0,0⟩) (fun _ => none) 8)
      [.call (.mPlayStart 0 ⟨1,0⟩) trivial,.countdown 1,.restart 1]).map
        (fun s => decide (Playing s 1 ∧ noteChannel s 0 1 soloNote = some (.direct 0) ∧
          (noteOperands soloNote (s.track 1)).gateTime = 2)) = some true := by decide
  rw [hs,Option.map_some,Option.some.injEq,decide_eq_true_eq] at hstate
  obtain ⟨hplay,hchannel,hgate⟩ := hstate
  obtain ⟨s',hs',hstop⟩ := (hnote 0 1 soloNote (.direct 0) hplay hchannel).1
    [.countdown 1,.countdown 1] (fun _ _ => ⟨⟨by simp [started],trivial⟩,fun _ _ =>
      ⟨⟨by simp [started],trivial⟩,trivial⟩⟩)
  refine ⟨s,s',hs,hs',hstop.mpr ?_⟩
  rw [hgate]
  decide

end Lifetime

end Sequencer
end M4a
end AgbTools
