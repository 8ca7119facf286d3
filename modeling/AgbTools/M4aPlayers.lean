import AgbTools.HandlerChain
import AgbTools.M4aLock
import AgbTools.Runs
import Mathlib.Data.Fintype.Card

/-! The players that a frame of `SoundMain` plays, by way of the callbacks that `MPlayOpen` chains, when
it may come between any two steps of a call. -/
namespace AgbTools
namespace M4a
namespace Players

open HandlerChain

section Code

variable (ι β : Type)

/-- A `MusicPlayerInfo`: `func` and `intp` are none or `MPlayMain` for a player; `rest` is what is
neither its lock nor its callback. -/
structure MusicPlayerInfo where
  ident : Word
  func : Option ι
  rest : β

/-- The steps of a call of the program behind the locks that it takes. -/
inductive Micro
  | link (mplayInfo : ι) (rest : β)
  | releaseSound
  | edit (mplayInfo : ι) (f : β → β)
  | release (mplayInfo : ι)

/-- `ident`, `func` and `intp` of `SoundInfo`, and the players. `log` holds the players that were
played, in this order. -/
structure State where
  ident : Word
  func : Option ι
  player : ι → MusicPlayerInfo ι β
  todo : List (Micro ι β)
  log : List ι

/-- `MPlayOpen`, with what it stores in the player, or one of the calls that take the lock of a player:
`MPlayStart`, `m4aMPlayStop` and the controls. -/
inductive Call
  | mPlayOpen (mplayInfo : ι) (trackCount : Byte) (rest : β)
  | locked (mplayInfo : ι) (f : β → β)

inductive Event
  | call (y : Call ι β)
  | step
  | soundMain

variable {ι β} [DecidableEq ι]

def State.setPlayer (p : ι) (x : MusicPlayerInfo ι β) (s : State ι β) : State ι β :=
  { s with player := Function.update s.player p x }

def State.setIdent (p : ι) (ident : Word) (s : State ι β) : State ι β :=
  s.setPlayer p { s.player p with ident := ident }

/-- The player's own part of `MPlayMain`, up to the end of its lock. -/
def State.play (work : ι → β → β) (p : ι) (s : State ι β) : State ι β :=
  { s.setPlayer p { s.player p with ident := idNumber, rest := work p (s.player p).rest } with
    log := s.log++[p] }

/-- `MPlayMain`: the callback comes first, with the player locked. -/
def mPlayMain (work : ι → β → β) : ℕ → State ι β → ι → Option (State ι β)
  | 0, _, _ => none
  | fuel+1, s, p =>
    if (s.player p).ident ≠ idNumber then some s
    else
      let s := s.setIdent p ((s.player p).ident+1)
      let called := match (s.player p).func with
        | none => some s
        | some q => mPlayMain work fuel s q
      called.map (State.play work p)

/-- The callback of `SoundMain`. -/
def callback (work : ι → β → β) (fuel : ℕ) (s : State ι β) : Option ι → Option (State ι β)
  | none => some s
  | some p => mPlayMain work fuel s p

def soundMain (work : ι → β → β) (fuel : ℕ) (s : State ι β) : Option (State ι β) :=
  if s.ident ≠ idNumber then some s
  else
    let s := { s with ident := s.ident+1 }
    (callback work fuel s s.func).map fun s => { s with ident := idNumber }

/-- A call up to its first lock; without the lock it does nothing. -/
def begin (s : State ι β) : Call ι β → State ι β
  | .mPlayOpen p trackCount rest =>
    if trackCount = 0 ∨ s.ident ≠ idNumber then s
    else { s with ident := s.ident+1, todo := [.link p rest,.releaseSound,.release p] }
  | .locked p f =>
    if (s.player p).ident ≠ idNumber then s
    else { s.setIdent p ((s.player p).ident+1) with todo := [.edit p f,.release p] }

/-- `Clear64byte`, and the callback of `SoundInfo` that the player takes over. -/
def link (p : ι) (rest : β) (s : State ι β) : State ι β :=
  { s.setPlayer p ⟨0,s.func,rest⟩ with func := some p }

def micro (s : State ι β) : Micro ι β → State ι β
  | .link p rest => link p rest s
  | .releaseSound => { s with ident := idNumber }
  | .edit p f => s.setPlayer p { s.player p with rest := f (s.player p).rest }
  | .release p => s.setIdent p idNumber

/-- The program does one call at a time; `SoundMain` is called by the interrupt at any time. -/
def event (work : ι → β → β) (fuel : ℕ) (s : State ι β) : Event ι β → Option (State ι β)
  | .call y => some (if s.todo.isEmpty then begin s y else s)
  | .step =>
    match s.todo with
    | [] => some s
    | x::todo => some (micro { s with todo := todo } x)
  | .soundMain => soundMain work fuel s

def events (work : ι → β → β) (fuel : ℕ) : List (Event ι β) → State ι β → Option (State ι β)
  | [], s => some s
  | e::es, s => (event work fuel s e).bind (events work fuel es)

/-- Behind `SoundInit`. -/
def initial (rest : ι → β) : State ι β where
  ident := idNumber
  func := none
  player p := ⟨0,none,rest p⟩
  todo := []
  log := []

end Code

section Order

variable {ι β : Type} [DecidableEq ι]

/-- What the calls amount to: the players in the order of their callbacks, the last one first. -/
structure Order (ι β : Type) where
  chain : List ι
  opened : ι → Bool
  rest : ι → β
  todo : List (Micro ι β)
  log : List ι

/-- The player whose lock is held. -/
def holder : List (Micro ι β) → Option ι
  | [.releaseSound,.release p] | [.release p] | [.edit _ _,.release p] => some p
  | _ => none

/-- The lock of `SoundInfo` is held. -/
def silent : List (Micro ι β) → Bool
  | [.link ..,.releaseSound,.release _] | [.releaseSound,.release _] => true
  | _ => false

def Order.begin (a : Order ι β) : Call ι β → Order ι β
  | .mPlayOpen p trackCount rest =>
    if trackCount = 0 then a else { a with todo := [.link p rest,.releaseSound,.release p] }
  | .locked p f => if a.opened p then { a with todo := [.edit p f,.release p] } else a

def Order.micro (a : Order ι β) : Micro ι β → Order ι β
  | .link p rest =>
    { a with
      chain := registered p a.chain
      opened := Function.update a.opened p true
      rest := Function.update a.rest p rest }
  | .edit p f => { a with rest := Function.update a.rest p (f (a.rest p)) }
  | .releaseSound | .release _ => a

/-- The players of a frame: all of the chain, or those in front of the locked one, the first that was
opened first. -/
def Order.played (a : Order ι β) : List ι := (a.chain.takeWhile (holder a.todo ≠ some ·)).reverse

def Order.event (work : ι → β → β) (a : Order ι β) : Event ι β → Order ι β
  | .call y => if a.todo.isEmpty then a.begin y else a
  | .step =>
    match a.todo with
    | [] => a
    | x::todo => { a with todo := todo }.micro x
  | .soundMain =>
    if silent a.todo then a
    else
      { a with
        rest := fun p => if p ∈ a.played then work p (a.rest p) else a.rest p
        log := a.log++a.played }

def Order.initial (rest : ι → β) : Order ι β := ⟨[],fun _ => false,rest,[],[]⟩

end Order

section Walk

variable {ι β : Type} [DecidableEq ι] {work : ι → β → β} {fuel : ℕ} {s : State ι β} {p q : ι}

@[simp] theorem setPlayer_same (x : MusicPlayerInfo ι β) (s : State ι β) : (s.setPlayer p x).player p = x := by
  simp [State.setPlayer]

@[simp] theorem setPlayer_other (x : MusicPlayerInfo ι β) (s : State ι β) (h : q ≠ p) :
    (s.setPlayer p x).player q = s.player q := by
  simp [State.setPlayer,h]

@[simp] theorem setIdent_func (p : ι) (ident : Word) (s : State ι β) (q : ι) :
    ((s.setIdent p ident).player q).func = (s.player q).func := by
  by_cases h : q = p <;> simp [State.setIdent,h]

@[simp] theorem setIdent_rest (p : ι) (ident : Word) (s : State ι β) (q : ι) :
    ((s.setIdent p ident).player q).rest = (s.player q).rest := by
  by_cases h : q = p <;> simp [State.setIdent,h]

theorem setIdent_ident (p : ι) (ident : Word) (s : State ι β) (q : ι) :
    ((s.setIdent p ident).player q).ident = if q = p then ident else (s.player q).ident := by
  by_cases h : q = p <;> simp [State.setIdent,h]

/-- A state in which some of the players were played. -/
def State.plays (work : ι → β → β) (ps : List ι) (s : State ι β) : State ι β :=
  { s with
    player := fun p => if p ∈ ps then { s.player p with rest := work p (s.player p).rest } else s.player p
    log := s.log++ps }

theorem plays_last (hp : (s.player p).ident = idNumber) {ps : List ι} (hps : p ∉ ps) :
    ((s.setIdent p ((s.player p).ident+1)).plays work ps).play work p = s.plays work (ps++[p]) := by
  have hplayer : ((s.setIdent p ((s.player p).ident+1)).plays work ps).player p =
      { s.player p with ident := (s.player p).ident+1 } := by
    simp [State.plays,State.setIdent,hps]
  rw [State.play,hplayer]
  simp only [State.setPlayer,State.plays,State.setIdent,List.append_assoc]
  congr 1
  funext q
  by_cases hq : q = p
  · subst hq
    simp [← hp]
  · simp [hq]

/-- The callbacks play the players of the chain up to the first one that is locked, and those that came
first are played first. -/
theorem callback_plays {back l : List ι} {start : Option ι}
    (hthreaded : Threaded (fun p => (s.player p).func) back start l) (hnodup : l.Nodup)
    (hback : ∀ p ∈ back, p ∉ l → (s.player p).ident ≠ idNumber) (hfuel : l.length < fuel) :
    callback work fuel s start =
      some (s.plays work (l.takeWhile fun p => (s.player p).ident = idNumber).reverse) := by
  induction l generalizing s fuel start with
  | nil =>
    have hnone : s.plays work [] = s := by simp [State.plays]
    cases start with
    | none => simp [callback,hnone]
    | some p =>
      obtain ⟨fuel,rfl⟩ := Nat.exists_eq_succ_of_ne_zero (Nat.ne_of_gt hfuel)
      have hbusy := hback p (hthreaded p rfl) (List.not_mem_nil)
      simp [callback,mPlayMain,hbusy,hnone]
  | cons p l ih =>
    obtain ⟨rfl,hrest⟩ := hthreaded
    obtain ⟨hp,hl⟩ := List.nodup_cons.mp hnodup
    obtain ⟨fuel,rfl⟩ := Nat.exists_eq_succ_of_ne_zero (Nat.ne_of_gt (Nat.zero_lt_of_lt hfuel))
    by_cases hfree : (s.player p).ident = idNumber
    · set t := s.setIdent p ((s.player p).ident+1) with ht
      have hother (q : ι) (hq : q ≠ p) : t.player q = s.player q := setPlayer_other _ s hq
      have hlocked : (t.player p).ident ≠ idNumber := by
        simp [ht,State.setIdent,hfree,idNumber]
      have hthreaded : Threaded (fun q => (t.player q).func) back (s.player p).func l :=
        hrest.congr fun q _ => setIdent_func p _ s q
      have hcalled := ih hthreaded hl (fun q hq hql => ?_) (Nat.lt_of_succ_lt_succ hfuel)
      · have hsame : (l.takeWhile fun q => (t.player q).ident = idNumber) =
            l.takeWhile fun q => (s.player q).ident = idNumber :=
          takeWhile_congr fun q hq => by rw [hother q fun heq => hp (heq ▸ hq)]
        have hnot : p ∉ (l.takeWhile fun q => (s.player q).ident = idNumber).reverse := fun hmem =>
          hp ((List.takeWhile_sublist _).subset (List.mem_reverse.mp hmem))
        have hmain : callback work (fuel+1) s (some p) =
            (callback work fuel t (s.player p).func).map (State.play work p) := by
          rw [← setIdent_func p ((s.player p).ident+1) s p,← ht,callback,mPlayMain,if_neg (not_not.mpr hfree)]
          dsimp only
          rw [← ht]
          cases (t.player p).func <;> rfl
        rw [hsame] at hcalled
        rw [hmain,hcalled,Option.map_some,List.takeWhile_cons_of_pos (by simp [hfree]),List.reverse_cons,
          ← plays_last hfree hnot]
      · by_cases heq : q = p
        · exact heq ▸ hlocked
        · rw [hother q heq]
          exact hback q hq fun hmem => (List.mem_cons.mp hmem).elim heq hql
    · rw [List.takeWhile_cons_of_neg (by simp [hfree])]
      simp [callback,mPlayMain,hfree,State.plays]

end Walk

section Refinement

theorem locked_ident : idNumber+1 ≠ idNumber := by decide

variable {ι β : Type} [DecidableEq ι]

/-- What a call can have left to do. -/
inductive Shape : List (Micro ι β) → Prop
  | idle : Shape []
  | clearing (p : ι) (rest : β) : Shape [.link p rest,.releaseSound,.release p]
  | linked (p : ι) : Shape [.releaseSound,.release p]
  | locked (p : ι) (f : β → β) : Shape [.edit p f,.release p]
  | ending (p : ι) : Shape [.release p]

/-- The players and their callbacks, as an order of players. -/
structure Refines (s : State ι β) (a : Order ι β) : Prop where
  todo : s.todo = a.todo
  log : s.log = a.log
  rest : ∀ p, (s.player p).rest = a.rest p
  nodup : a.chain.Nodup
  threaded : Threaded (fun p => (s.player p).func) a.chain s.func a.chain
  chained : ∀ p ∈ a.chain, a.opened p
  shape : Shape a.todo
  held : ∀ p, holder a.todo = some p → a.opened p
  sound : s.ident = idNumber ↔ silent a.todo = false
  free : ∀ p, (s.player p).ident = idNumber ↔ a.opened p ∧ holder a.todo ≠ some p

variable {work : ι → β → β} {fuel : ℕ} {s : State ι β} {a : Order ι β}

omit [DecidableEq ι] in
theorem Refines.sound_idle (h : Refines s a) (hidle : a.todo = []) : s.ident = idNumber :=
  h.sound.mpr (by rw [hidle]; rfl)

omit [DecidableEq ι] in
theorem Refines.free_idle (h : Refines s a) (hidle : a.todo = []) (p : ι) :
    (s.player p).ident = idNumber ↔ a.opened p := by
  rw [h.free,hidle]
  simp [holder]

theorem Refines.call (h : Refines s a) (hidle : a.todo = []) (y : Call ι β) :
    Refines (begin s y) (a.begin y) := by
  have hsound := h.sound_idle hidle
  cases y with
  | mPlayOpen p trackCount rest =>
    by_cases hnone : trackCount = 0
    · rw [begin,Order.begin,if_pos (.inl hnone),if_pos hnone]
      exact h
    · rw [begin,Order.begin,if_neg (not_or.mpr ⟨hnone,not_not.mpr hsound⟩),if_neg hnone]
      refine ⟨rfl,h.log,h.rest,h.nodup,h.threaded,h.chained,.clearing p rest,fun _ hq => (by cases hq),?_,fun q => ?_⟩
      · rw [hsound]
        exact iff_of_false locked_ident fun hsilent => (by cases hsilent)
      · exact (h.free_idle hidle q).trans (by simp [holder])
  | locked p f =>
    have hfree := h.free_idle hidle p
    rw [begin,Order.begin]
    by_cases hopened : a.opened p
    · have hident := hfree.mpr hopened
      rw [if_neg (not_not.mpr hident),if_pos hopened]
      refine ⟨rfl,h.log,fun q => (setIdent_rest p _ s q).trans (h.rest q),h.nodup,
        h.threaded.congr fun q _ => setIdent_func p _ s q,h.chained,.locked p f,?_,?_,fun q => ?_⟩
      · intro q hq
        cases hq
        exact hopened
      · exact iff_of_true hsound rfl
      · dsimp only
        rw [setIdent_ident]
        by_cases hq : q = p
        · subst hq
          rw [if_pos rfl,hident]
          exact iff_of_false locked_ident fun hheld => hheld.2 rfl
        · rw [if_neg hq,h.free_idle hidle]
          simp [holder,Ne.symm hq]
    · rw [if_pos (mt hfree.mp hopened),if_neg hopened]
      exact h

theorem Refines.step {todo : List (Micro ι β)} {x : Micro ι β} (h : Refines s a) (htodo : a.todo = x::todo) :
    Refines (micro { s with todo := todo } x) ({ a with todo := todo }.micro x) := by
  obtain ⟨-,hlog,hrest,hnodup,hthreaded,hchained,hshape,hheld,hsound,hfree⟩ := h
  rw [htodo] at hshape hheld hsound hfree
  cases hshape with
  | clearing p rest =>
    have hother (q : ι) (hq : q ≠ p) :
        (link p rest { s with todo := [.releaseSound,.release p] }).player q = s.player q :=
      setPlayer_other _ _ hq
    have hnew : (link p rest { s with todo := [.releaseSound,.release p] }).player p = ⟨0,s.func,rest⟩ :=
      setPlayer_same _ _
    have hopened (q : ι) (hq : q ≠ p) : Function.update a.opened p true q = a.opened q :=
      Function.update_of_ne hq ..
    refine ⟨rfl,hlog,fun q => ?_,registered_nodup hnodup p,?_,fun q hq => ?_,.linked p,?_,hsound,fun q => ?_⟩
    · by_cases hq : q = p
      · subst hq
        simp [micro,hnew,Order.micro]
      · simp [micro,hother q hq,Order.micro,hq,hrest]
    · exact hthreaded.register (congrArg MusicPlayerInfo.func hnew) fun q hq =>
        congrArg MusicPlayerInfo.func (hother q hq)
    · dsimp only [Order.micro]
      by_cases hqp : q = p
      · simp [hqp]
      · rw [hopened q hqp]
        refine hchained q ((List.takeWhile_sublist (· ≠ p)).subset ?_)
        exact (List.mem_cons.mp hq).resolve_left hqp
    · intro q hq
      cases hq
      simp [Order.micro]
    · by_cases hq : q = p
      · subst hq
        simp [micro,hnew,Order.micro,holder,idNumber]
      · dsimp only [micro,Order.micro]
        rw [hother q hq,hopened q hq,hfree]
        simp [holder,Ne.symm hq]
  | linked p => exact ⟨rfl,hlog,hrest,hnodup,hthreaded,hchained,.ending p,hheld,iff_of_true rfl rfl,hfree⟩
  | locked p f =>
    have hother (q : ι) (hq : q ≠ p) : (micro { s with todo := [.release p] } (.edit p f)).player q = s.player q :=
      setPlayer_other _ _ hq
    have hedited : (micro { s with todo := [.release p] } (.edit p f)).player p =
        { s.player p with rest := f (s.player p).rest } := setPlayer_same _ _
    refine ⟨rfl,hlog,fun q => ?_,hnodup,hthreaded.congr fun q _ => ?_,hchained,.ending p,hheld,hsound,fun q => ?_⟩
    · by_cases hq : q = p
      · subst hq
        simp [hedited,Order.micro,hrest]
      · simp [hother q hq,Order.micro,hq,hrest]
    · by_cases hq : q = p
      · rw [hq,hedited]
      · rw [hother q hq]
    · have hident : ((micro { s with todo := [.release p] } (.edit p f)).player q).ident = (s.player q).ident := by
        by_cases hq : q = p
        · rw [hq,hedited]
        · rw [hother q hq]
      rw [hident]
      exact hfree q
  | ending p =>
    refine ⟨rfl,hlog,fun q => (setIdent_rest p _ _ q).trans (hrest q),hnodup,
      hthreaded.congr fun q _ => setIdent_func p _ _ q,hchained,.idle,fun _ hq => (by cases hq),hsound,fun q => ?_⟩
    dsimp only [micro,Order.micro]
    rw [setIdent_ident]
    by_cases hq : q = p
    · subst hq
      simp [holder,hheld q rfl]
    · rw [if_neg hq,hfree]
      simp [holder,Ne.symm hq]

variable [Fintype ι]

theorem Refines.soundMain (work : ι → β → β) (h : Refines s a) (hsilent : silent a.todo = false) :
    ∃ s', soundMain work (Fintype.card ι+1) s = some s' ∧
      Refines s' { a with
        rest := fun p => if p ∈ a.played then work p (a.rest p) else a.rest p
        log := a.log++a.played } := by
  have hsound := h.sound.mpr hsilent
  have hplayed : (a.chain.takeWhile fun p => (s.player p).ident = idNumber).reverse = a.played := by
    unfold Order.played
    congr 1
    refine takeWhile_congr fun p hp => ?_
    simp [h.free p,h.chained p hp]
  have hfuel : a.chain.length < Fintype.card ι+1 := Nat.lt_succ_of_le h.nodup.length_le_card
  have hcalled := @callback_plays ι β _ work _ { s with ident := s.ident+1 } _ _ _ h.threaded h.nodup
    (fun p hp hnot => absurd hp hnot) hfuel
  dsimp only at hcalled
  rw [hplayed] at hcalled
  have hkeep (p : ι) : ((s.plays work a.played).player p).ident = (s.player p).ident ∧
      ((s.plays work a.played).player p).func = (s.player p).func := by
    dsimp only [State.plays]
    split_ifs <;> exact ⟨rfl,rfl⟩
  refine ⟨{ s.plays work a.played with ident := idNumber },?_,?_⟩
  · rw [Players.soundMain,if_neg (not_not.mpr hsound)]
    dsimp only
    rw [hcalled]
    rfl
  · refine ⟨h.todo,congrArg (·++a.played) h.log,fun p => ?_,h.nodup,h.threaded.congr fun p _ => (hkeep p).2,
      h.chained,h.shape,h.held,iff_of_true rfl hsilent,fun p => ?_⟩
    · dsimp only [State.plays]
      split_ifs
      · exact congrArg (work p) (h.rest p)
      · exact h.rest p
    · dsimp only
      rw [(hkeep p).1]
      exact h.free p

theorem Refines.event (work : ι → β → β) (h : Refines s a) (e : Event ι β) :
    ∃ s', event work (Fintype.card ι+1) s e = some s' ∧ Refines s' (a.event work e) := by
  cases e with
  | call y =>
    refine ⟨_,rfl,?_⟩
    dsimp only [Order.event]
    rw [h.todo]
    split_ifs with hidle
    · exact h.call (List.isEmpty_iff.mp hidle) y
    · exact h
  | step =>
    cases htodo : a.todo with
    | nil =>
      refine ⟨s,?_,?_⟩
      · simp [Players.event,h.todo,htodo]
      · simpa [Order.event,htodo] using h
    | cons x todo =>
      refine ⟨micro { s with todo := todo } x,by simp [Players.event,h.todo,htodo],?_⟩
      simpa [Order.event,htodo] using h.step htodo
  | soundMain =>
    cases hsilent : silent a.todo with
    | true =>
      have hlocked : s.ident ≠ idNumber := fun hident => by
        rw [h.sound.mp hident] at hsilent
        cases hsilent
      refine ⟨s,if_pos hlocked,?_⟩
      simpa [Order.event,hsilent] using h
    | false =>
      obtain ⟨s',hs',hrefines⟩ := h.soundMain work hsilent
      refine ⟨s',hs',?_⟩
      simpa [Order.event,hsilent] using hrefines

theorem Refines.events (work : ι → β → β) (h : Refines s a) (es : List (Event ι β)) :
    ∃ s', events work (Fintype.card ι+1) es s = some s' ∧ Refines s' (Runs.run (Order.event work) a es) := by
  induction es generalizing s a with
  | nil => exact ⟨s,rfl,h⟩
  | cons e es ih =>
    obtain ⟨s₁,hs₁,h₁⟩ := h.event work e
    obtain ⟨s',hs',hrefines⟩ := ih h₁
    refine ⟨s',?_,hrefines⟩
    rw [Players.events,hs₁]
    exact hs'

end Refinement

end Players
end M4a
end AgbTools
