import AgbTools.M4aFade

/-! The tempo of a player: the accumulator of `MPlayMain`, the loop of ticks that it drives, and the
functions that change the tempo. -/
namespace AgbTools
namespace M4a
namespace Sequencer

section Model

/-- The fields of a player that its tempo works with; `clock` is kept modulo 2^32 in the source. -/
structure Tempo where
  tempoD : BitVec 16
  tempoU : BitVec 16
  tempoI : BitVec 16
  tempoC : BitVec 16
  clock : ℕ

structure TempoState where
  seq : State
  tempo : ℕ → Tempo

def TempoState.setTempo (w : TempoState) (p : ℕ) (m : Tempo) : TempoState :=
  { w with tempo := Function.update w.tempo p m }

def plyTempo (m : Tempo) (x : Byte) : Tempo :=
  let r3 : Word := x.zeroExtend 32 <<< 1
  let tempoD : BitVec 16 := r3.truncate 16
  let r3 := (r3*m.tempoU.zeroExtend 32) >>> 8
  { m with tempoD := tempoD, tempoI := r3.truncate 16 }

def m4aMPlayTempoControl (w : TempoState) (p : ℕ) (tempo : BitVec 16) : TempoState :=
  let m := w.tempo p
  w.setTempo p
    { m with
      tempoU := tempo
      tempoI := ((m.tempoD.zeroExtend 32*tempo.zeroExtend 32 : Word) >>> 8).truncate 16 }

/-- `MPlayStart` with the tempo of the player. -/
def tempoStart (w : TempoState) (p : ℕ) (song : Song) : Option TempoState :=
  (mPlayStart w.seq p song).map fun s =>
    let w' : TempoState := { w with seq := s }
    if w.seq.Startable p song then
      w'.setTempo p { tempoD := 150, tempoU := 0x100, tempoI := 150, tempoC := 0, clock := 0 }
    else w'

/-- What one tick executes: the commands of each track, and the operands of the tempo commands
among all of them. -/
structure TickScript where
  commands : ℕ → List Command
  tempos : List Byte

/-- From _081DD874 to _081DD9B6: one tick, and whether a track was alive in it. -/
def tempoTick (w : TempoState) (p : ℕ) (x : TickScript) : Option (TempoState × Bool) :=
  let tracks := (w.seq.player p).tracks.map fun t => (t,x.commands t)
  (tickTracks p tracks w.seq 1 0).map fun (s,mask) =>
    let m := x.tempos.foldl plyTempo (w.tempo p)
    let s := s.setPlayer p { s.player p with status := if mask = 0 then 0x80000000 else mask }
    (TempoState.setTempo { w with seq := s } p { m with clock := m.clock+1 },mask ≠ 0)

/-- The loop at _081DD9BC, which a tick without live tracks leaves. -/
def tickLoop (p : ℕ) : ℕ → (ℕ → TickScript) → Word → TempoState → Option (TempoState × Bool)
  | 0, _, _, _ => none
  | fuel+1, xs, r0, w =>
    let w := w.setTempo p { w.tempo p with tempoC := r0.truncate 16 }
    if r0 < 0x96 then some (w,true)
    else
      (tempoTick w p (xs 0)).bind fun (w,alive) =>
        if alive then
          tickLoop p fuel (fun i => xs (i+1)) ((w.tempo p).tempoC.zeroExtend 32-0x96) w
        else some (w,false)

/-- No value of the accumulator makes more ticks than this. -/
def maxTicks : ℕ := 440

/-- One call of `MPlayMain` for a player that is not locked. -/
def mPlayMain (w : TempoState) (p : ℕ) (xs : ℕ → TickScript) : Option TempoState :=
  if (w.seq.player p).status.toInt < 0 then some w
  else
    (fadeOutBody w.seq p).bind fun s =>
      let w : TempoState := { w with seq := s }
      if (s.player p).status.toInt < 0 then some w
      else
        let r0 : Word := (w.tempo p).tempoC.zeroExtend 32+(w.tempo p).tempoI.zeroExtend 32
        (tickLoop p maxTicks xs r0 w).bind fun (w,alive) =>
          if alive then
            (eachTrack updateTrack (w.seq.player p).tracks w.seq).map fun s => { w with seq := s }
          else some w

/-- What happens to the players; `other` are the events of the sequencer that are no part of
`MPlayStart` and of `MPlayMain`. -/
inductive TempoEvent
  | mPlayStart (p : ℕ) (song : Song)
  | m4aMPlayTempoControl (p : ℕ) (tempo : BitVec 16)
  | mPlayMain (p : ℕ) (xs : ℕ → TickScript)
  | other (e : Event)

def tempoStep (w : TempoState) : TempoEvent → Option TempoState
  | .mPlayStart p song => tempoStart w p song
  | .m4aMPlayTempoControl p tempo => some (m4aMPlayTempoControl w p tempo)
  | .mPlayMain p xs => mPlayMain w p xs
  | .other (.mPlayStart _ _) => some w
  | .other (.tick _ _) => some w
  | .other e => (step w.seq e).map fun s => { w with seq := s }

def runTempo : TempoState → List TempoEvent → Option TempoState
  | w, [] => some w
  | w, e::es => (tempoStep w e).bind fun w => runTempo w es

/-- Opened players: their records are cleared. -/
def initialTempo (player : ℕ → Player) (track : ℕ → Track) (head : ℕ → Option ChanId) (n : Fin 13) :
    TempoState where
  seq := initial player track head n
  tempo _ := { tempoD := 0, tempoU := 0, tempoI := 0, tempoC := 0, clock := 0 }

end Model

section Interval

/-- The interval is the tempo of the song scaled by that of the player. -/
def Tempo.Scaled (m : Tempo) : Prop :=
  m.tempoI.toNat = m.tempoD.toNat*m.tempoU.toNat / 256 % 2^16

theorem scaled_word (a b : Word) (h : a.toNat*b.toNat < 2^32) :
    (((a*b) >>> 8).truncate 16 : BitVec 16).toNat = a.toNat*b.toNat / 256 % 2^16 := by
  rw [BitVec.toNat_setWidth,BitVec.toNat_ushiftRight,BitVec.toNat_mul,Nat.mod_eq_of_lt h,
    Nat.shiftRight_eq_div_pow]

theorem product_lt (a b : BitVec 16) :
    (a.zeroExtend 32 : Word).toNat*(b.zeroExtend 32 : Word).toNat < 2^32 := by
  have ha := a.isLt
  have hb := b.isLt
  rw [BitVec.toNat_setWidth,BitVec.toNat_setWidth,Nat.mod_eq_of_lt (by omega : a.toNat < 2^32),
    Nat.mod_eq_of_lt (by omega : b.toNat < 2^32)]
  calc a.toNat*b.toNat < 2^16*2^16 := Nat.mul_lt_mul'' ha hb
    _ = 2^32 := rfl

theorem toNat_extend (a : BitVec 16) : (a.zeroExtend 32 : Word).toNat = a.toNat := by
  have ha := a.isLt
  rw [BitVec.toNat_setWidth,Nat.mod_eq_of_lt (by omega)]

theorem plyTempo_scaled (m : Tempo) (x : Byte) : (plyTempo m x).Scaled := by
  have hx := x.isLt
  have hdouble : (x.zeroExtend 32 <<< 1 : Word).toNat = x.toNat*2 := by
    rw [BitVec.toNat_shiftLeft,BitVec.toNat_setWidth,Nat.shiftLeft_eq]
    omega
  have hextend : (((x.zeroExtend 32 <<< 1 : Word).truncate 16 : BitVec 16).zeroExtend 32 : Word) =
      x.zeroExtend 32 <<< 1 := by
    apply BitVec.eq_of_toNat_eq
    rw [toNat_extend,BitVec.toNat_setWidth,hdouble]
    omega
  have hlt := product_lt ((x.zeroExtend 32 <<< 1 : Word).truncate 16) m.tempoU
  have hscaled := scaled_word _ _ hlt
  rw [toNat_extend,toNat_extend,hextend] at hscaled
  exact hscaled

theorem tempoControl_scaled (m : Tempo) (tempo : BitVec 16) :
    Tempo.Scaled { m with
      tempoU := tempo
      tempoI := ((m.tempoD.zeroExtend 32*tempo.zeroExtend 32 : Word) >>> 8).truncate 16 } := by
  have hscaled := scaled_word _ _ (product_lt m.tempoD tempo)
  rwa [toNat_extend,toNat_extend] at hscaled

theorem foldl_scaled {m : Tempo} (h : m.Scaled) (xs : List Byte) : (xs.foldl plyTempo m).Scaled := by
  induction xs generalizing m with
  | nil => exact h
  | cons x xs ih => exact ih (plyTempo_scaled m x)

theorem foldl_remainder (m : Tempo) (xs : List Byte) :
    (xs.foldl plyTempo m).tempoC = m.tempoC ∧ (xs.foldl plyTempo m).clock = m.clock := by
  induction xs generalizing m with
  | nil => exact ⟨rfl,rfl⟩
  | cons x xs ih => exact ih (plyTempo m x)

end Interval

section Loop

variable {w w' : TempoState} {p : ℕ}

def Paused (w : TempoState) (p : ℕ) : Prop := (w.seq.player p).status.toInt < 0

instance (w : TempoState) (p : ℕ) : Decidable (Paused w p) := inferInstanceAs (Decidable (_ < _))

/-- What a step for the player `p` keeps: the lists of channels, the law of the intervals, and the
tempo of the other players. -/
structure Kept (p : ℕ) (w w' : TempoState) : Prop where
  sound : Sound w'.seq
  scaled : ∀ q, (w.tempo q).Scaled → (w'.tempo q).Scaled
  others : ∀ q ≠ p, w'.tempo q = w.tempo q

theorem Kept.trans {w'' : TempoState} (h : Kept p w w') (h' : Kept p w' w'') : Kept p w w'' :=
  ⟨h'.sound,fun q hq => h'.scaled q (h.scaled q hq),
    fun q hq => (h'.others q hq).trans (h.others q hq)⟩

theorem Kept.same (hs : Sound w'.seq) (h : w'.tempo = w.tempo) : Kept p w w' :=
  ⟨hs,fun q hq => by rwa [h],fun q _ => by rw [h]⟩

@[simp] theorem setTempo_self (w : TempoState) (p : ℕ) (m : Tempo) :
    (w.setTempo p m).tempo p = m := Function.update_self ..

theorem setTempo_of_ne (w : TempoState) {p q : ℕ} (h : q ≠ p) (m : Tempo) :
    (w.setTempo p m).tempo q = w.tempo q := Function.update_of_ne h ..

@[simp] theorem setTempo_seq (w : TempoState) (p : ℕ) (m : Tempo) :
    (w.setTempo p m).seq = w.seq := rfl

theorem Kept.set {m : Tempo} (hs : Sound w.seq) (h : (w.tempo p).Scaled → m.Scaled) :
    Kept p w (w.setTempo p m) := by
  refine ⟨hs,fun q hq => ?_,fun q hq => setTempo_of_ne w hq m⟩
  by_cases hqp : q = p
  · subst hqp
    rw [setTempo_self]
    exact h hq
  · rwa [setTempo_of_ne w hqp]

theorem tempoTick_kept (hs : Sound w.seq) (x : TickScript) : ∃ w' alive,
    tempoTick w p x = some (w',alive) ∧ Kept p w w' ∧ (alive = false → Paused w' p) ∧
      (w'.tempo p).tempoC = (w.tempo p).tempoC ∧ (w'.tempo p).clock = (w.tempo p).clock+1 := by
  obtain ⟨s,mask,hrun,hsound⟩ :=
    tickTracks_preserves p ((w.seq.player p).tracks.map fun t => (t,x.commands t)) w.seq 1 0 hs
  obtain ⟨hc,hclock⟩ := foldl_remainder (w.tempo p) x.tempos
  let s' := s.setPlayer p { s.player p with status := if mask = 0 then 0x80000000 else mask }
  let m := x.tempos.foldl plyTempo (w.tempo p)
  refine ⟨TempoState.setTempo { w with seq := s' } p { m with clock := m.clock+1 },mask ≠ 0,?_,?_,?_,
    ?_,?_⟩
  · simp only [tempoTick,hrun,Option.map_some]
    rfl
  · have hsame : Kept p w { w with seq := s' } := .same (hsound.same rfl rfl) rfl
    exact hsame.trans (.set (hsound.same rfl rfl) fun h => foldl_scaled h x.tempos)
  · intro hdead
    have hmask : mask = 0 := by simpa using hdead
    have hstatus : (s'.player p).status = 0x80000000 := by simp [s',hmask]
    change (s'.player p).status.toInt < 0
    rw [hstatus]
    decide
  · rw [setTempo_self]
    exact hc
  · rw [setTempo_self]
    exact congrArg (·+1) hclock

/-- What the loop leaves: with a live track in every tick the player is not paused by it. -/
def Leaves (p : ℕ) (w : TempoState) (r : Option (TempoState × Bool))
    (law : TempoState → Prop) : Prop :=
  ∃ w' alive, r = some (w',alive) ∧ Kept p w w' ∧ (alive = false → Paused w' p) ∧
    (alive = true → law w')

/-- The last test of the loop. -/
theorem tickLoop_done {r0 : Word} (hr : r0 < 0x96) (hs : Sound w.seq) (fuel : ℕ)
    (xs : ℕ → TickScript) : Leaves p w (tickLoop p (fuel+1) xs r0 w) fun w' =>
      (w'.tempo p).tempoC = r0.truncate 16 ∧ (w'.tempo p).clock = (w.tempo p).clock := by
  refine ⟨w.setTempo p { w.tempo p with tempoC := r0.truncate 16 },true,?_,.set hs fun h => h,by simp,
    fun _ => by simp⟩
  rw [tickLoop]
  exact if_pos hr

/-- A tick of the loop, and then what the rest of it does. -/
theorem tickLoop_tick {r0 : Word} (hr : ¬r0 < 0x96) (hs : Sound w.seq) (fuel : ℕ)
    (xs : ℕ → TickScript) (law : ℕ → TempoState → Prop)
    (rest : ∀ w, Sound w.seq → Leaves p w
      (tickLoop p fuel (fun i => xs (i+1)) ((r0.truncate 16 : BitVec 16).zeroExtend 32-0x96) w)
      (law (w.tempo p).clock)) :
    Leaves p w (tickLoop p (fuel+1) xs r0 w) (law ((w.tempo p).clock+1)) := by
  have hset : Kept p w (w.setTempo p { w.tempo p with tempoC := r0.truncate 16 }) :=
    .set hs fun h => h
  obtain ⟨w',alive,hw',hkept,hdead,hc,hclock⟩ :=
    tempoTick_kept (p := p) (w := w.setTempo p { w.tempo p with tempoC := r0.truncate 16 }) hs (xs 0)
  rw [setTempo_self] at hc hclock
  have hloop : tickLoop p (fuel+1) xs r0 w = if alive then
      tickLoop p fuel (fun i => xs (i+1)) ((w'.tempo p).tempoC.zeroExtend 32-0x96) w'
      else some (w',false) := by
    rw [tickLoop]
    dsimp only
    rw [if_neg hr,hw',Option.bind_some]
  cases halive : alive with
  | false =>
    rw [hloop,halive]
    exact ⟨w',false,rfl,hset.trans hkept,fun _ => hdead halive,by simp⟩
  | true =>
    obtain ⟨v,alive',hv,hkept',hdead',hlaw⟩ := rest w' hkept.sound
    rw [hloop,halive,if_pos rfl,hc]
    rw [hclock] at hlaw
    exact ⟨v,alive',hv,(hset.trans hkept).trans hkept',hdead',hlaw⟩

/-- Below 2^16 the loop divides by the period. -/
theorem tickLoop_small (fuel : ℕ) (xs : ℕ → TickScript) {r0 : Word} (hs : Sound w.seq)
    (hr : r0.toNat < 2^16) (hfuel : r0.toNat < 150*fuel) :
    Leaves p w (tickLoop p fuel xs r0 w) fun w' =>
      (w'.tempo p).tempoC.toNat = r0.toNat % 150 ∧
        (w'.tempo p).clock = (w.tempo p).clock+r0.toNat / 150 := by
  induction fuel generalizing xs r0 w with
  | zero => omega
  | succ fuel ih =>
    have hcond : r0 < 0x96 ↔ r0.toNat < 150 := Iff.rfl
    by_cases hsmall : r0 < 0x96
    · obtain ⟨w',alive,hw',hkept,hdead,hlaw⟩ := tickLoop_done (p := p) hsmall hs fuel xs
      rw [hcond] at hsmall
      refine ⟨w',alive,hw',hkept,hdead,fun halive => ?_⟩
      obtain ⟨hc,hclock⟩ := hlaw halive
      rw [hc,hclock,BitVec.toNat_setWidth]
      omega
    · have hlarge : 150 ≤ r0.toNat := not_lt.mp (hcond.not.mp hsmall)
      have hnext : ((r0.truncate 16 : BitVec 16).zeroExtend 32-0x96 : Word).toNat =
          r0.toNat-150 := by
        rw [BitVec.toNat_sub_of_le]
        · rw [toNat_extend,BitVec.toNat_setWidth,Nat.mod_eq_of_lt hr]
          rfl
        · rw [BitVec.le_def,toNat_extend,BitVec.toNat_setWidth,Nat.mod_eq_of_lt hr]
          exact hlarge
      have htick := tickLoop_tick (p := p) hsmall hs fuel xs
        (fun c w' => (w'.tempo p).tempoC.toNat = (r0.toNat-150) % 150 ∧
          (w'.tempo p).clock = c+(r0.toNat-150) / 150) (fun v hv => by
          have hrest := @ih v (fun i => xs (i+1)) _ hv (hnext.trans_lt (by omega))
            (hnext.trans_lt (by omega))
          rwa [hnext] at hrest)
      obtain ⟨w',alive,hw',hkept,hdead,hlaw⟩ := htick
      refine ⟨w',alive,hw',hkept,hdead,fun halive => ?_⟩
      obtain ⟨hc,hclock⟩ := hlaw halive
      omega

/-- The loop ends from every value of the accumulator: a value that is too large for its field is
at most taken below zero once. -/
theorem tickLoop_total (fuel : ℕ) (xs : ℕ → TickScript) (r0 : Word) (hs : Sound w.seq)
    (hfuel : 2^16 ≤ 150*fuel) :
    Leaves p w (tickLoop p (fuel+2) xs r0 w) fun _ => True := by
  have hlt (r : Word) : r < 0x96 ↔ r.toNat < 150 := Iff.rfl
  have hext (r : Word) : ((r.truncate 16 : BitVec 16).zeroExtend 32 : Word).toNat =
      r.toNat % 2^16 := by rw [toNat_extend,BitVec.toNat_setWidth]
  have small {v : TempoState} {r : Word} {ys : ℕ → TickScript} {n : ℕ} (hv : Sound v.seq)
      (hn : fuel ≤ n) (hr : 150 ≤ r.toNat % 2^16) : Leaves p v
      (tickLoop p n ys ((r.truncate 16 : BitVec 16).zeroExtend 32-0x96) v) fun _ => True := by
    have hle : 0x96 ≤ ((r.truncate 16 : BitVec 16).zeroExtend 32 : Word) := by
      rw [BitVec.le_def,hext]
      exact hr
    have hsub : ((r.truncate 16 : BitVec 16).zeroExtend 32-0x96 : Word).toNat < 2^16 := by
      rw [BitVec.toNat_sub_of_le hle,hext]
      omega
    obtain ⟨w',alive,hw',hkept,hdead,_⟩ := tickLoop_small (p := p) n ys hv hsub
      (by omega)
    exact ⟨w',alive,hw',hkept,hdead,fun _ => trivial⟩
  by_cases hr : r0 < 0x96
  · obtain ⟨w',alive,hw',hkept,hdead,_⟩ := tickLoop_done (p := p) hr hs (fuel+1) xs
    exact ⟨w',alive,hw',hkept,hdead,fun _ => trivial⟩
  refine tickLoop_tick hr hs _ _ (fun _ _ => True) fun v hv => ?_
  by_cases hlarge : 150 ≤ r0.toNat % 2^16
  · exact small hv (by omega) hlarge
  have hneg : ((r0.truncate 16 : BitVec 16).zeroExtend 32-0x96 : Word).toNat =
      2^32-150+r0.toNat % 2^16 := by
    rw [BitVec.toNat_sub,hext,show (0x96 : Word).toNat = 150 from rfl]
    omega
  refine tickLoop_tick ?_ hv _ _ (fun _ _ => True) fun u hu => small hu le_rfl ?_
  · rw [hlt,hneg]
    omega
  · rw [hneg]
    omega

end Loop

section Calls

variable {w w' : TempoState} {p : ℕ}

/-- A call of `MPlayMain` returns. When it leaves the player running, it made the ticks of the
accumulator and kept its remainder. -/
theorem mPlayMain_law (hs : Sound w.seq) (xs : ℕ → TickScript) : ∃ w',
    mPlayMain w p xs = some w' ∧ Kept p w w' ∧
      (¬Paused w' p → (w.tempo p).tempoC.toNat+(w.tempo p).tempoI.toNat < 2^16 →
        (w'.tempo p).tempoC.toNat =
          ((w.tempo p).tempoC.toNat+(w.tempo p).tempoI.toNat) % 150 ∧
        (w'.tempo p).clock = (w.tempo p).clock+
          ((w.tempo p).tempoC.toNat+(w.tempo p).tempoI.toNat) / 150) := by
  unfold mPlayMain
  by_cases hpaused : (w.seq.player p).status.toInt < 0
  · rw [if_pos hpaused]
    exact ⟨w,rfl,.same hs rfl,fun h => absurd hpaused h⟩
  rw [if_neg hpaused]
  obtain ⟨s,hs',hsound⟩ := (fadeOutBody_shrinks w.seq p).preserves hs
  rw [hs',Option.bind_some]
  dsimp only
  by_cases hfaded : (s.player p).status.toInt < 0
  · rw [if_pos hfaded]
    exact ⟨_,rfl,.same hsound rfl,fun h => absurd hfaded h⟩
  rw [if_neg hfaded]
  let r0 : Word := (w.tempo p).tempoC.zeroExtend 32+(w.tempo p).tempoI.zeroExtend 32
  have hr0 : r0.toNat = (w.tempo p).tempoC.toNat+(w.tempo p).tempoI.toNat := by
    have hc := (w.tempo p).tempoC.isLt
    have hi := (w.tempo p).tempoI.isLt
    rw [BitVec.toNat_add,toNat_extend,toNat_extend,Nat.mod_eq_of_lt (by omega)]
  have hloop : Leaves p { w with seq := s } (tickLoop p maxTicks xs r0 { w with seq := s })
      fun w' => r0.toNat < 2^16 → (w'.tempo p).tempoC.toNat = r0.toNat % 150 ∧
        (w'.tempo p).clock = (w.tempo p).clock+r0.toNat / 150 := by
    by_cases hsmall : r0.toNat < 2^16
    · obtain ⟨v,alive,hv,hkept,hdead,hlaw⟩ :=
        tickLoop_small (p := p) (w := { w with seq := s }) maxTicks xs hsound hsmall
          (by simp only [maxTicks]; omega)
      exact ⟨v,alive,hv,hkept,hdead,fun h _ => hlaw h⟩
    · obtain ⟨v,alive,hv,hkept,hdead,_⟩ :=
        tickLoop_total (p := p) (w := { w with seq := s }) 438 xs r0 hsound
          (by omega)
      exact ⟨v,alive,hv,hkept,hdead,fun _ h => absurd h hsmall⟩
  obtain ⟨v,alive,hv,hkept,hdead,hlaw⟩ := hloop
  have hfirst : Kept p w { w with seq := s } := .same hsound rfl
  rw [hv,Option.bind_some]
  cases halive : alive with
  | false =>
    exact ⟨v,rfl,hfirst.trans hkept,fun h => absurd (hdead halive) h⟩
  | true =>
    obtain ⟨u,hu,husound⟩ :=
      (eachTrack_shrinks updateTrack_shrinks (v.seq.player p).tracks v.seq).preserves hkept.sound
    refine ⟨{ v with seq := u },by simp [hu],(hfirst.trans hkept).trans (.same husound rfl),
      fun _ hsmall => ?_⟩
    rw [← hr0] at hsmall ⊢
    exact hlaw halive hsmall

theorem tempoStart_law (hs : Sound w.seq) (song : Song) : ∃ w',
    tempoStart w p song = some w' ∧ Kept p w w' := by
  obtain ⟨s,hrun,hsound⟩ := (mPlayStart_shrinks w.seq p song).preserves hs
  have hsame : Kept p w { w with seq := s } := .same hsound rfl
  by_cases hstart : w.seq.Startable p song
  · refine ⟨TempoState.setTempo { w with seq := s } p ⟨150,0x100,150,0,0⟩,?_,hsame.trans ?_⟩
    · simp only [tempoStart,hrun,Option.map_some,if_pos hstart]
    · exact .set hsound fun _ => by unfold Tempo.Scaled; decide
  · exact ⟨_,by simp only [tempoStart,hrun,Option.map_some,if_neg hstart],hsame⟩

def startsPlayer (p : ℕ) : TempoEvent → Bool
  | .mPlayStart q _ => q == p
  | _ => false

def callsMain (p : ℕ) : TempoEvent → Bool
  | .mPlayMain q _ => q == p
  | _ => false

/-- What an event keeps: the lists of channels, the law of the intervals, and the accumulator of a
player that it does not start or run. -/
structure StepKept (e : TempoEvent) (w w' : TempoState) : Prop where
  sound : Sound w'.seq
  scaled : ∀ q, (w.tempo q).Scaled → (w'.tempo q).Scaled
  others : ∀ q, startsPlayer q e = false → callsMain q e = false →
    (w'.tempo q).tempoC = (w.tempo q).tempoC ∧ (w'.tempo q).clock = (w.tempo q).clock

/-- A step for one player is judged by what it does to that player. -/
theorem Kept.step {w' : TempoState} {e : TempoEvent} (h : Kept p w w')
    (hp : startsPlayer p e = false → callsMain p e = false →
      (w'.tempo p).tempoC = (w.tempo p).tempoC ∧ (w'.tempo p).clock = (w.tempo p).clock) :
    StepKept e w w' where
  sound := h.sound
  scaled := h.scaled
  others := by
    intro q hstart hmain
    by_cases hqp : q = p
    · subst hqp
      exact hp hstart hmain
    · rw [h.others q hqp]
      exact ⟨rfl,rfl⟩

/-- Every event of the players ends. -/
theorem tempoStep_law (hs : Sound w.seq) (e : TempoEvent) :
    ∃ w', tempoStep w e = some w' ∧ StepKept e w w' := by
  have hother (e' : Event) (he : tempoStep w e = (step w.seq e').map fun s => { w with seq := s }) :
      ∃ w', tempoStep w e = some w' ∧ StepKept e w w' := by
    obtain ⟨s,hrun,hsound⟩ := step_preserves w.seq e' hs
    exact ⟨{ w with seq := s },by rw [he,hrun]; rfl,hsound,fun _ h => h,fun _ _ _ => ⟨rfl,rfl⟩⟩
  have hsame (he : tempoStep w e = some w) : ∃ w', tempoStep w e = some w' ∧ StepKept e w w' :=
    ⟨w,he,hs,fun _ h => h,fun _ _ _ => ⟨rfl,rfl⟩⟩
  cases e with
  | mPlayStart p song =>
    obtain ⟨w',hw',hkept⟩ := tempoStart_law (p := p) hs song
    exact ⟨w',hw',hkept.step fun hp _ => by simp [startsPlayer] at hp⟩
  | m4aMPlayTempoControl p tempo =>
    have hkept : Kept p w (m4aMPlayTempoControl w p tempo) :=
      .set hs fun _ => tempoControl_scaled (w.tempo p) tempo
    exact ⟨_,rfl,hkept.step fun _ _ => by simp [m4aMPlayTempoControl]⟩
  | mPlayMain p xs =>
    obtain ⟨w',hw',hkept,_⟩ := mPlayMain_law (p := p) hs xs
    exact ⟨w',hw',hkept.step fun _ hp => by simp [callsMain] at hp⟩
  | other e =>
    cases e with
    | mPlayStart p song => exact hsame rfl
    | tick p script => exact hsame rfl
    | m4aMPlayStop p => exact hother (.m4aMPlayStop p) rfl
    | m4aMPlayContinue p => exact hother (.m4aMPlayContinue p) rfl
    | m4aMPlayImmInit p => exact hother (.m4aMPlayImmInit p) rfl
    | fade p speed fadeOV => exact hother (.fade p speed fadeOV) rfl
    | fadeOutBody p => exact hother (.fadeOutBody p) rfl
    | update p => exact hother (.update p) rfl
    | mixer status => exact hother (.mixer status) rfl
    | maxChans n => exact hother (.maxChans n) rfl

end Calls

section Runs

variable {w w' : TempoState} {p : ℕ}

theorem runTempo_total (es : List TempoEvent) (hs : Sound w.seq) : ∃ w',
    runTempo w es = some w' ∧ Sound w'.seq ∧
      ∀ q, (w.tempo q).Scaled → (w'.tempo q).Scaled := by
  induction es generalizing w with
  | nil => exact ⟨w,rfl,hs,fun _ h => h⟩
  | cons e es ih =>
    obtain ⟨v,hv,hsound,hscaled,-⟩ := tempoStep_law hs e
    obtain ⟨w',hw',hsound',hscaled'⟩ := ih hsound
    exact ⟨w',by rw [runTempo,hv,Option.bind_some,hw'],hsound',fun q hq => hscaled' q (hscaled q hq)⟩

/-- A stretch of a run in which the player is not started again, is called with the interval `i`,
and is never left paused by a call, so that a track is alive in each of its ticks. -/
def Steady (p : ℕ) (i : BitVec 16) : TempoState → List TempoEvent → Prop
  | _, [] => True
  | w, e::es => startsPlayer p e = false ∧ (callsMain p e = true → (w.tempo p).tempoI = i) ∧
    ∀ w', tempoStep w e = some w' → (callsMain p e = true → ¬Paused w' p) ∧ Steady p i w' es

/-- The number of calls of `MPlayMain` for the player. -/
def mainCalls (p : ℕ) (es : List TempoEvent) : ℕ := es.countP (callsMain p)

theorem steady_law {i : BitVec 16} (hi : i.toNat+149 < 2^16) {es : List TempoEvent}
    (hs : Sound w.seq) (hc : (w.tempo p).tempoC.toNat < 150) (h : Steady p i w es) : ∃ w',
    runTempo w es = some w' ∧
      (w'.tempo p).clock = (w.tempo p).clock+
        ((w.tempo p).tempoC.toNat+mainCalls p es*i.toNat) / 150 ∧
      (w'.tempo p).tempoC.toNat = ((w.tempo p).tempoC.toNat+mainCalls p es*i.toNat) % 150 := by
  induction es generalizing w with
  | nil =>
    refine ⟨w,rfl,?_,?_⟩ <;> simp only [mainCalls,List.countP_nil] <;> omega
  | cons e es ih =>
    obtain ⟨hstart,hinterval,hnext⟩ := h
    obtain ⟨v,hv,hsound,-,hkeep⟩ := tempoStep_law hs e
    obtain ⟨hrunning,hrest⟩ := hnext v hv
    cases hmain : callsMain p e with
    | false =>
      obtain ⟨hcv,hclock⟩ := hkeep p hstart hmain
      obtain ⟨w',hw',hclock',hc'⟩ := ih hsound (by rwa [hcv]) hrest
      have hcount : mainCalls p (e::es) = mainCalls p es := by simp [mainCalls,hmain]
      rw [hcv] at hclock' hc'
      rw [hcount]
      exact ⟨w',by rw [runTempo,hv,Option.bind_some,hw'],by rw [hclock',hclock],hc'⟩
    | true =>
      obtain ⟨xs,rfl⟩ : ∃ xs, e = .mPlayMain p xs := by
        cases e with
        | mPlayMain q xs => exact ⟨xs,by simpa [callsMain] using hmain⟩
        | _ => simp [callsMain] at hmain
      obtain ⟨v',hv',_,hlaw⟩ := mPlayMain_law (p := p) hs xs
      obtain rfl : v' = v := Option.some.inj (hv'.symm.trans hv)
      rw [hinterval hmain] at hlaw
      obtain ⟨hcv,hclock⟩ := hlaw (hrunning hmain) (by omega)
      obtain ⟨w',hw',hclock',hc'⟩ := ih hsound (by omega) hrest
      have hcount : mainCalls p (.mPlayMain p xs::es)*i.toNat =
          mainCalls p es*i.toNat+i.toNat := by
        rw [mainCalls,List.countP_cons_of_pos hmain,Nat.succ_mul]
        rfl
      refine ⟨w',by rw [runTempo,hv,Option.bind_some,hw'],?_,?_⟩ <;> rw [hcount] <;> omega

end Runs

/-- In every run the interval of each player is its scaled tempo, and along a steady stretch the
ticks and the remainder are quotient and remainder of the intervals that were added. -/
theorem tempo_exact (player : ℕ → Player) (track : ℕ → Track) (head : ℕ → Option ChanId)
    (n : Fin 13) (es₀ : List TempoEvent) : ∃ w,
    runTempo (initialTempo player track head n) es₀ = some w ∧
    (∀ p, (w.tempo p).Scaled) ∧ (∀ m x, (plyTempo m x).Scaled) ∧
    ∀ p i es, i.toNat+149 < 2^16 → (w.tempo p).tempoC.toNat < 150 → Steady p i w es → ∃ w',
      runTempo w es = some w' ∧
      (w'.tempo p).clock = (w.tempo p).clock+
        ((w.tempo p).tempoC.toNat+mainCalls p es*i.toNat) / 150 ∧
      (w'.tempo p).tempoC.toNat =
        ((w.tempo p).tempoC.toNat+mainCalls p es*i.toNat) % 150 := by
  obtain ⟨w,hw,hsound,hscaled⟩ := runTempo_total (w := initialTempo player track head n) es₀
    ⟨_,initial_wellFormed player track head n⟩
  refine ⟨w,hw,fun p => hscaled p ?_,plyTempo_scaled,fun p i es hi hc h => steady_law hi hsound hc h⟩
  simp [Tempo.Scaled,initialTempo]

def quietPlayer (_ : ℕ) : Player := ⟨[0],0,false,0,0,0,0,0⟩
def quietTrack (_ : ℕ) : Track := ⟨0,0,0,0,0,0,0⟩
def quietScript (_ : ℕ) : TickScript := ⟨fun _ => [],[]⟩

/-- The start of a song of one track, and a first call of `MPlayMain` that makes one tick. -/
theorem tempo_exact_quiet : ∃ w w',
    runTempo (initialTempo quietPlayer quietTrack (fun _ => none) 8) [.mPlayStart 0 ⟨1,0⟩] = some w ∧
    runTempo w [.mPlayMain 0 quietScript] = some w' ∧
    (w'.tempo 0).clock = (w.tempo 0).clock+((w.tempo 0).tempoC.toNat+1*150) / 150 := by
  obtain ⟨w,hw,_,_,hlaw⟩ := tempo_exact quietPlayer quietTrack (fun _ => none) 8
    [.mPlayStart 0 ⟨1,0⟩]
  have hstart : (runTempo (initialTempo quietPlayer quietTrack (fun _ => none) 8)
      [.mPlayStart 0 ⟨1,0⟩]).all (fun w => decide ((w.tempo 0).tempoC.toNat < 150) &&
        decide ((w.tempo 0).tempoI = 150) &&
        (tempoStep w (.mPlayMain 0 quietScript)).all fun w' => !decide (Paused w' 0)) = true := by
    decide +kernel
  rw [hw] at hstart
  simp only [Option.all_some,Bool.and_eq_true,decide_eq_true_eq] at hstart
  obtain ⟨⟨hc,hi⟩,hrun⟩ := hstart
  have hsteady : Steady 0 150 w [.mPlayMain 0 quietScript] := by
    refine ⟨rfl,fun _ => hi,fun w' hw' => ⟨fun _ => ?_,trivial⟩⟩
    rw [hw'] at hrun
    simpa using hrun
  obtain ⟨w',hw',hclock,_⟩ := hlaw 0 150 [.mPlayMain 0 quietScript] (by decide) hc hsteady
  exact ⟨w,w',hw,hw',hclock⟩

end Sequencer
end M4a
end AgbTools
