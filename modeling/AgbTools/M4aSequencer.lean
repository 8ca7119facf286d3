import Mathlib.Data.Fintype.Sum
import Mathlib.Tactic.DeriveFintype
import AgbTools.OwnedLists
import AgbTools.M4aLock

/-! The sequencer of the sound engine and the lists of channels that its tracks own: starting and
stopping players, the ticks of `MPlayMain`, and the allocation of channels to notes. -/
namespace AgbTools
namespace M4a
namespace Sequencer

open OwnedLists

/-- The direct-sound channels and the Game Boy channels. -/
inductive ChanId
  | direct (i : Fin 12)
  | cgb (i : Fin 4)
deriving DecidableEq, Fintype, Repr

/-- The part of a channel that decides about its ownership. -/
structure Channel where
  status : Byte
  gateTime : Byte
  midiKey : Byte
  priority : Byte
deriving Repr

structure Track where
  flags : Byte
  key : Byte
  gateTime : Byte
  velocity : Byte
  priority : Byte
  patternLevel : Byte
  volX : Byte
deriving Repr

/-- A music player; its tracks are given by their addresses. -/
structure Player where
  tracks : List ℕ
  unkB : Byte
  hasSong : Bool
  status : Word
  priority : Byte
  fadeOI : BitVec 16
  fadeOC : BitVec 16
  fadeOV : BitVec 16

/-- The pointers `np`, `pp` and `track` of the channels and `chan` of the tracks are the fields
`next`, `prev`, `owner` and `head` of `links`. -/
structure State where
  chan : ChanId → Channel
  links : Links ChanId ℕ
  track : ℕ → Track
  player : ℕ → Player
  maxChans : Fin 13

def exist : Byte := 0x80
def start : Byte := 0x40
def volChg : Byte := 0x03

def State.Exists (s : State) (t : ℕ) : Prop := (s.track t).flags &&& exist ≠ 0
def State.Starting (s : State) (t : ℕ) : Prop := (s.track t).flags &&& start ≠ 0

instance (s : State) (t : ℕ) : Decidable (s.Exists t) := inferInstanceAs (Decidable (_ ≠ _))
instance (s : State) (t : ℕ) : Decidable (s.Starting t) := inferInstanceAs (Decidable (_ ≠ _))

def State.setTrack (s : State) (t : ℕ) (x : Track) : State :=
  { s with track := Function.update s.track t x }

def State.setFlags (s : State) (t : ℕ) (f : Byte) : State :=
  s.setTrack t { s.track t with flags := f }

def State.setChan (s : State) (c : ChanId) (x : Channel) : State :=
  { s with chan := Function.update s.chan c x }

def State.setStatus (s : State) (c : ChanId) (x : Byte) : State :=
  s.setChan c { s.chan c with status := x }

def State.setPlayer (s : State) (p : ℕ) (x : Player) : State :=
  { s with player := Function.update s.player p x }

/-- The address in a track pointer, zero for the null pointer. -/
def State.ownerAddress (s : State) (c : ChanId) : ℕ := (s.links.owner c).getD 0

def State.Idle (s : State) (c : ChanId) : Prop := (s.chan c).status &&& 0xC7 = 0

instance (s : State) (c : ChanId) : Decidable (s.Idle c) := inferInstanceAs (Decidable (_ = _))

/-- No list is longer than the number of channels, so no walk visits more nodes. -/
def numChannels : ℕ := 16

def np (s : State) (c : ChanId) : Option ChanId := s.links.next c

def realClearChain (s : State) (c : ChanId) : State := { s with links := s.links.unlink c }

section Stopping

def fineVisit (s : State) (c : ChanId) : State × Bool :=
  let s := if s.Idle c then s else s.setStatus c ((s.chan c).status ||| 0x40)
  (realClearChain s c,false)

def plyFine (s : State) (t : ℕ) : Option State :=
  (walk fineVisit np numChannels s (s.links.head t)).map fun s => s.setFlags t 0

def stopVisit (s : State) (c : ChanId) : State × Bool :=
  let s := if (s.chan c).status = 0 then s else s.setStatus c 0
  ({ s with links := s.links.disown c },false)

def trackStop (s : State) (t : ℕ) : Option State :=
  if s.Exists t then
    (walk stopVisit np numChannels s (s.links.head t)).map fun s =>
      { s with links := s.links.setHead t none }
  else some s

/-- The tracks of a player one after the other. -/
def eachTrack (f : State → ℕ → Option State) : List ℕ → State → Option State
  | [], s => some s
  | t::ts, s => (f s t).bind (eachTrack f ts)

def m4aMPlayStop (s : State) (p : ℕ) : Option State :=
  let s := s.setPlayer p { s.player p with status := (s.player p).status ||| 0x80000000 }
  eachTrack trackStop (s.player p).tracks s

structure Song where
  trackCount : ℕ
  priority : Byte

/-- A track that the song uses is stopped and marked for its restart. -/
def beginTrack (s : State) (t : ℕ) : Option State :=
  (trackStop s t).map fun s =>
    let s := s.setFlags t (exist ||| start)
    { s with links := s.links.setHead t none }

def endTrack (s : State) (t : ℕ) : Option State := (trackStop s t).map fun s => s.setFlags t 0

def State.firstFlags (s : State) (p : ℕ) : Byte :=
  match (s.player p).tracks with
  | [] => 0
  | t::_ => (s.track t).flags

/-- A player without interruption priority always takes the song; otherwise the current song must
have ended or be of no higher priority. -/
def State.Startable (s : State) (p : ℕ) (song : Song) : Prop :=
  let x := s.player p
  x.unkB = 0 ∨
  ((x.hasSong = false ∨ s.firstFlags p &&& start = 0) ∧
    (x.status &&& 0xFFFF = 0 ∨ x.status &&& 0x80000000 ≠ 0)) ∨
  x.priority ≤ song.priority

instance (s : State) (p : ℕ) (song : Song) : Decidable (s.Startable p song) :=
  inferInstanceAs (Decidable (_ ∨ _))

def mPlayStart (s : State) (p : ℕ) (song : Song) : Option State :=
  if s.Startable p song then
    let x := s.player p
    let s := s.setPlayer p
      { x with status := 0, hasSong := true, priority := song.priority, fadeOI := 0 }
    (eachTrack beginTrack (x.tracks.take song.trackCount) s).bind
      (eachTrack endTrack (x.tracks.drop song.trackCount))
  else some s

/-- The end of a fade-out; a temporary one keeps the flags of the tracks. -/
def fadeStopTrack (temporary : Bool) (s : State) (t : ℕ) : Option State :=
  (trackStop s t).map fun s => if temporary then s else s.setFlags t 0

def fadeVolume (fadeOV : BitVec 16) (s : State) (t : ℕ) : Option State :=
  some (if s.Exists t then
    s.setTrack t { s.track t with
      volX := (fadeOV >>> 2).truncate 8, flags := (s.track t).flags ||| volChg }
  else s)

def fadeOutBody (s : State) (p : ℕ) : Option State :=
  let x := s.player p
  if x.fadeOI = 0 then some s
  else if x.fadeOC-1 ≠ 0 then some (s.setPlayer p { x with fadeOC := x.fadeOC-1 })
  else
    let x := { x with fadeOC := x.fadeOI }
    if x.fadeOV &&& 2 ≠ 0 then
      let x := { x with fadeOV := x.fadeOV+16 }
      let x := if 256 ≤ x.fadeOV then { x with fadeOV := 256, fadeOI := 0 } else x
      eachTrack (fadeVolume x.fadeOV) x.tracks (s.setPlayer p x)
    else
      let x := { x with fadeOV := x.fadeOV-16 }
      if x.fadeOV.toInt ≤ 0 then
        let temporary := x.fadeOV &&& 1 ≠ 0
        (eachTrack (fadeStopTrack temporary) x.tracks (s.setPlayer p x)).map fun s =>
          let status := if temporary then x.status ||| 0x80000000 else 0x80000000
          s.setPlayer p { x with status := status, fadeOI := 0 }
      else eachTrack (fadeVolume x.fadeOV) x.tracks (s.setPlayer p x)

end Stopping

section Notes

/-- A note command: the clock table entry, the operands that follow, and the tone it resolves to.
A tone of a key split or rhythm table that is a table itself is not played. -/
structure NoteArgs where
  clock : Byte
  key : Option Byte
  velocity : Option Byte
  gate : Option Byte
  type : Byte
  nested : Bool
  type_le : (type &&& 7).toNat ≤ 4

/-- The operands of a note; each is only looked for when the one before it was there. -/
def noteOperands (x : NoteArgs) (r : Track) : Track :=
  let r := { r with gateTime := x.clock }
  match x.key,x.velocity,x.gate with
  | none,_,_ => r
  | some k,none,_ => { r with key := k }
  | some k,some v,none => { r with key := k, velocity := v }
  | some k,some v,some g => { r with key := k, velocity := v, gateTime := r.gateTime+g }

def notePriority (x : Player) (r : Track) : Byte :=
  if x.priority.toNat+r.priority.toNat ≤ 255 then x.priority+r.priority else 255

/-- The best candidate so far among the channels in use. -/
structure Candidate where
  releasing : Bool
  priority : Byte
  owner : ℕ
  best : Option ChanId

def Candidate.compare (a : Candidate) (s : State) (c : ChanId) : Candidate :=
  let priority := (s.chan c).priority
  let owner := s.ownerAddress c
  if priority < a.priority then { a with priority := priority, owner := owner, best := some c }
  else if a.priority < priority then a
  else if a.owner < owner then { a with owner := owner, best := some c }
  else if owner < a.owner then a
  else { a with best := some c }

def Candidate.consider (a : Candidate) (s : State) (c : ChanId) : Candidate :=
  if (s.chan c).status &&& 0x40 ≠ 0 then
    if a.releasing then a.compare s c
    else
      { releasing := true, priority := (s.chan c).priority, owner := s.ownerAddress c
        best := some c }
  else if a.releasing then a
  else a.compare s c

def searchChannel (s : State) : List ChanId → Candidate → Option ChanId
  | [], a => a.best
  | c::cs, a => if s.Idle c then some c else searchChannel s cs (a.consider s c)

/-- The direct-sound channels that the search visits, at least one. -/
def directChannels (maxChans : Fin 13) : List ChanId :=
  ((List.finRange 12).take (max 1 maxChans)).map .direct

/-- A Game Boy channel is taken if it is free or releasing, or its note is not preferred. -/
def cgbChannel (s : State) (t : ℕ) (priority : Byte) (c : ChanId) : Option ChanId :=
  let x := s.chan c
  if s.Idle c ∨ x.status &&& 0x40 ≠ 0 ∨ x.priority < priority ∨
      x.priority = priority ∧ t ≤ s.ownerAddress c then some c
  else none

def allocate (s : State) (t : ℕ) (priority : Byte) (type : Byte) : Option ChanId :=
  if type &&& 7 = 0 then
    searchChannel s (directChannels s.maxChans)
      { releasing := false, priority := priority, owner := t, best := none }
  else cgbChannel s t priority (.cgb (Fin.ofNat 4 ((type &&& 7).toNat-1)))

/-- The channel is taken from its list, put in front of the list of the track, and started. -/
def startChannel (s : State) (t : ℕ) (priority : Byte) (c : ChanId) : State :=
  let s := realClearChain s c
  let s := { s with links := s.links.push t c }
  let r := s.track t
  let s := s.setChan c
    { status := 0x80, gateTime := r.gateTime, midiKey := r.key, priority := priority }
  s.setFlags t (r.flags &&& 0xF0)

def plyNote (s : State) (p t : ℕ) (x : NoteArgs) : State :=
  let s := s.setTrack t (noteOperands x (s.track t))
  let priority := notePriority (s.player p) (s.track t)
  if x.nested then s
  else
    match allocate s t priority x.type with
    | none => s
    | some c => startChannel s t priority c

end Notes

section Ticks

/-- The commands of a track program that matter for the channels. The commands that set a
parameter of the track only mark its volumes or its pitch as changed. -/
inductive Command
  | note (x : NoteArgs)
  | fine
  | patt
  | pend
  | endtie (key : Option Byte)
  | prio (x : Byte)
  | parameter (marks : Byte)

/-- `ply_endtie` looks for the first held channel with the key. -/
def tieVisit (key : Byte) (s : State) (c : ChanId) : State × Bool :=
  let x := s.chan c
  if x.status &&& 0x83 ≠ 0 ∧ x.status &&& 0x40 = 0 ∧ x.midiKey = key then
    (s.setStatus c (x.status ||| 0x40),true)
  else (s,false)

def plyEndtie (s : State) (t : ℕ) (key : Option Byte) : Option State :=
  let r := s.track t
  let s := match key with
    | some k => s.setTrack t { r with key := k }
    | none => s
  walk (tieVisit (s.track t).key) np numChannels s (s.links.head t)

/-- A pattern call on the third level ends the track. -/
def plyPatt (s : State) (t : ℕ) : Option State :=
  let r := s.track t
  if 3 ≤ r.patternLevel then plyFine s t
  else some (s.setTrack t { r with patternLevel := r.patternLevel+1 })

def plyPend (s : State) (t : ℕ) : State :=
  let r := s.track t
  if r.patternLevel = 0 then s else s.setTrack t { r with patternLevel := r.patternLevel-1 }

def command (s : State) (p t : ℕ) : Command → Option State
  | .note x => some (plyNote s p t x)
  | .fine => plyFine s t
  | .patt => plyPatt s t
  | .pend => some (plyPend s t)
  | .endtie key => plyEndtie s t key
  | .prio x => some (s.setTrack t { s.track t with priority := x })
  | .parameter marks => some (s.setFlags t ((s.track t).flags ||| (marks &&& 0x0F)))

/-- The commands of one tick; a track that has ended executes no more of them. -/
def commands (p t : ℕ) : List Command → State → Option State
  | [], s => some s
  | x::xs, s =>
    (command s p t x).bind fun s =>
      if (s.track t).flags = 0 then some s else commands p t xs s

/-- The clean-up of `MPlayMain`: an ended channel leaves the list, a gate that closes releases. -/
def gateVisit (s : State) (c : ChanId) : State × Bool :=
  let x := s.chan c
  if s.Idle c then (realClearChain s c,false)
  else if x.gateTime = 0 then (s,false)
  else if x.gateTime-1 = 0 then (s.setChan c { x with gateTime := 0, status := x.status ||| 0x40 },false)
  else (s.setChan c { x with gateTime := x.gateTime-1 },false)

def freshTrack (r : Track) : Track :=
  { r with flags := exist, key := 0, gateTime := 0, velocity := 0, priority := 0, patternLevel := 0
           volX := 0x40 }

/-- The restart of a track that was marked by `MPlayStart`. -/
def restartTrack (s : State) (t : ℕ) : State :=
  if s.Starting t then
    let s := s.setTrack t (freshTrack (s.track t))
    { s with links := s.links.setHead t none }
  else s

def tickTrack (p : ℕ) (s : State) (t : ℕ) (xs : List Command) : Option State :=
  if s.Exists t then
    (walk gateVisit np numChannels s (s.links.head t)).bind fun s =>
      commands p t xs (restartTrack s t)
  else some s

/-- The tracks of a tick in order, with the mask of those that exist. -/
def tickTracks (p : ℕ) : List (ℕ × List Command) → State → Word → Word → Option (State × Word)
  | [], s, _, mask => some (s,mask)
  | (t,xs)::rest, s, bit, mask =>
    let mask := if s.Exists t then mask ||| bit else mask
    (tickTrack p s t xs).bind fun s => tickTracks p rest s (bit <<< 1) mask

/-- One tick of a player: what its tracks execute is given by `script`. -/
def tick (s : State) (p : ℕ) (script : ℕ → List Command) : Option State :=
  let tracks := (s.player p).tracks.map fun t => (t,script t)
  (tickTracks p tracks s 1 0).map fun (s,mask) =>
    s.setPlayer p { s.player p with status := if mask = 0 then 0x80000000 else mask }

/-- The second walk of `MPlayMain`; the new volumes and frequencies of live channels are not
part of this model. -/
def pitchVisit (s : State) (c : ChanId) : State × Bool :=
  if s.Idle c then (realClearChain s c,false) else (s,false)

def updateTrack (s : State) (t : ℕ) : Option State :=
  if s.Exists t ∧ (s.track t).flags &&& 0x0F ≠ 0 then
    (walk pitchVisit np numChannels s (s.links.head t)).map fun s =>
      s.setFlags t ((s.track t).flags &&& 0xF0)
  else some s

def immInitTrack (s : State) (t : ℕ) : Option State :=
  some (if s.Exists t ∧ s.Starting t then restartTrack s t else s)

/-- What happens to the sequencer. The mixer may change the status of every channel. -/
inductive Event
  | mPlayStart (p : ℕ) (song : Song)
  | m4aMPlayStop (p : ℕ)
  | m4aMPlayContinue (p : ℕ)
  | m4aMPlayImmInit (p : ℕ)
  | fade (p : ℕ) (speed fadeOV : BitVec 16)
  | fadeOutBody (p : ℕ)
  | tick (p : ℕ) (script : ℕ → List Command)
  | update (p : ℕ)
  | mixer (status : ChanId → Byte)
  | maxChans (n : Fin 13)

def step (s : State) : Event → Option State
  | .mPlayStart p song => mPlayStart s p song
  | .m4aMPlayStop p => m4aMPlayStop s p
  | .m4aMPlayContinue p =>
    some (s.setPlayer p { s.player p with status := (s.player p).status &&& 0x7FFFFFFF })
  | .m4aMPlayImmInit p => eachTrack immInitTrack (s.player p).tracks s
  | .fade p speed fadeOV =>
    some (s.setPlayer p { s.player p with fadeOC := speed, fadeOI := speed, fadeOV := fadeOV })
  | .fadeOutBody p => fadeOutBody s p
  | .tick p script => tick s p script
  | .update p => eachTrack updateTrack (s.player p).tracks s
  | .mixer status => some { s with chan := fun c => { s.chan c with status := status c } }
  | .maxChans n =>
    some { s with
      maxChans := n
      chan := fun c => match c with
        | .direct _ => { s.chan c with status := 0 }
        | .cgb _ => s.chan c }

def runEvents : State → List Event → Option State
  | s, [] => some s
  | s, e::es => (step s e).bind fun s => runEvents s es

/-- The state after `m4aSoundInit`: cleared channels, and opened players whose tracks do not exist.
The `chan` pointers of such tracks are not cleared. -/
def initial (player : ℕ → Player) (track : ℕ → Track) (head : ℕ → Option ChanId) (n : Fin 13) :
    State where
  chan _ := { status := 0, gateTime := 0, midiKey := 0, priority := 0 }
  links := { next := fun _ => none, prev := fun _ => none, owner := fun _ => none, head := head }
  track t := { track t with flags := 0 }
  player := player
  maxChans := n

end Ticks

section Invariant

/-- The lists of the tracks: what `Owned` says of them, and a track that waits for its restart
has none. -/
structure WellFormed (s : State) (lists : ℕ → List ChanId) : Prop where
  owned : Owned s.links s.Exists lists
  starting : ∀ t, s.Starting t → lists t = []

variable {s s' : State} {lists : ℕ → List ChanId} {t : ℕ} {c : ChanId}

theorem WellFormed.congr (h : WellFormed s lists) (hl : s'.links = s.links)
    (he : ∀ t, s'.Exists t ↔ s.Exists t) (hs : ∀ t, s'.Starting t → s.Starting t) :
    WellFormed s' lists := by
  have hex : s'.Exists = s.Exists := by
    funext t
    exact propext (he t)
  refine ⟨?_,fun t ht => h.starting t (hs t ht)⟩
  rw [hl,hex]
  exact h.owned

theorem WellFormed.same (h : WellFormed s lists) (hl : s'.links = s.links)
    (ht : s'.track = s.track) : WellFormed s' lists := by
  apply h.congr hl
  · intro t
    unfold State.Exists
    rw [ht]
  · intro t
    unfold State.Starting
    rw [ht]
    exact id

theorem WellFormed.clearChain (h : WellFormed s lists) (c : ChanId) :
    WellFormed (realClearChain s c) fun t => (lists t).erase c := by
  refine ⟨h.owned.unlink c,fun t ht => ?_⟩
  rw [h.starting t ht]
  rfl

theorem card_chanId : Fintype.card ChanId = numChannels := by decide

theorem WellFormed.length_le (h : WellFormed s lists) (t : ℕ) :
    (lists t).length ≤ numChannels := by
  rw [← card_chanId]
  exact h.owned.length_le t

/-- A visit that keeps the tracks and at most takes the visited channel out of its list. -/
def Tidy (visit : State → ChanId → State × Bool) : Prop :=
  ∀ s c, (visit s c).1.track = s.track ∧
    ((visit s c).1.links = s.links ∨ (visit s c).1.links = s.links.unlink c)

/-- A visit that always takes the visited channel out and goes on. -/
def Clears (visit : State → ChanId → State × Bool) : Prop :=
  ∀ s c, (visit s c).1.links = s.links.unlink c ∧ (visit s c).2 = false

/-- One visit of a walk: the visited channel stays in its list or leaves it, and the walk goes on
with the rest. -/
theorem WellFormed.visit {visit : State → ChanId → State × Bool} (hv : Tidy visit)
    (h : WellFormed s lists) (ht : s.Exists t) {before l : List ChanId}
    (hl : lists t = before ++ c::l) :
    ∃ lists' before', WellFormed (visit s c).1 lists' ∧ (∀ u, (lists' u).Sublist (lists u)) ∧
      lists' t = before' ++ l ∧ (Clears visit → before' = before) ∧
      np (visit s c).1 c = l.head? := by
  obtain ⟨htr,hlinks⟩ := hv s c
  have hlinked := h.owned.linked t ht
  rw [hl] at hlinked
  have hnext := hlinked.next_of_append
  have hc : c ∈ lists t := by simp [hl]
  have hown := (h.owned.mem t c).mp hc
  have hnd := h.owned.nodup t
  rcases hlinks with hlinks | hlinks
  · refine ⟨lists,before++[c],h.same hlinks htr,fun _ => List.Sublist.refl _,by simp [hl],?_,?_⟩
    · intro hcl
      have hun := unlink_owner s.links c c
      rw [← (hcl s c).1,hlinks,hown] at hun
      simp at hun
    · unfold np
      rw [hlinks]
      exact hnext
  · have hwf : WellFormed (visit s c).1 fun u => (lists u).erase c :=
      (h.clearChain c).same hlinks htr
    have hbefore : c ∉ before := by
      rw [hl] at hnd
      have hdis := List.disjoint_of_nodup_append hnd
      exact fun hcb => hdis hcb List.mem_cons_self
    refine ⟨_,before,hwf,fun u => List.erase_sublist,?_,fun _ => rfl,?_⟩
    · rw [hl,List.erase_append_right _ hbefore,List.erase_cons_head]
    · unfold np
      rw [hlinks,h.owned.unlink_next_self hc]
      exact hnext

/-- Every walk along the list of an existing track ends and keeps the lists well formed and in
order, and a walk that clears leaves the track without channels. -/
theorem walk_wellFormed {visit : State → ChanId → State × Bool} (hv : Tidy visit)
    (h : WellFormed s lists) (ht : s.Exists t) :
    ∃ s', walk visit np numChannels s (s.links.head t) = some s' ∧ s'.track = s.track ∧
      ∃ lists', WellFormed s' lists' ∧ (∀ u, (lists' u).Sublist (lists u)) ∧
        (Clears visit → lists' t = []) := by
  -- visited channels that stayed are `before`, those still to come are `l`
  let inv (x : State) (l : List ChanId) : Prop :=
    x.track = s.track ∧ ∃ lists' before, WellFormed x lists' ∧ (∀ u, (lists' u).Sublist (lists u)) ∧
      lists' t = before++l ∧ (Clears visit → before = [])
  have hhead : s.links.head t = (lists t).head? := (h.owned.linked t ht).head
  have hstep (x : State) (c : ChanId) (l : List ChanId) (hx : inv x (c::l)) :
      inv (visit x c).1 l ∧ np (visit x c).1 c = l.head? := by
    obtain ⟨htr,lists',before,hwf,hsub,hl,hb⟩ := hx
    have hex : x.Exists t := by
      unfold State.Exists
      rw [htr]
      exact ht
    obtain ⟨lists'',before',hwf',hsub',hl',hb',hnext⟩ := hwf.visit hv hex hl
    exact ⟨⟨(hv x c).1.trans htr,lists'',before',hwf',fun u => (hsub' u).trans (hsub u),hl',
      fun hcl => (hb' hcl).trans (hb hcl)⟩,hnext⟩
  have hpost (x : State) (l : List ChanId) (hx : inv x l) (hd : Clears visit → l = []) :
      x.track = s.track ∧ ∃ lists', WellFormed x lists' ∧ (∀ u, (lists' u).Sublist (lists u)) ∧
        (Clears visit → lists' t = []) := by
    obtain ⟨htr,lists',before,hwf,hsub,hl,hb⟩ := hx
    refine ⟨htr,lists',hwf,hsub,fun hcl => ?_⟩
    rw [hl,hb hcl,hd hcl]
    rfl
  have hs : inv s (lists t) := ⟨rfl,lists,[],h,fun u => List.Sublist.refl _,rfl,fun _ => rfl⟩
  rw [hhead]
  apply walk_ends (fun x c l hx hleave => ?_) (fun x c l hx _ => hstep x c l hx)
    (fun x hx => hpost x [] hx fun _ => rfl) hs (h.length_le t)
  refine hpost _ l (hstep x c l hx).1 fun hcl => ?_
  simp [(hcl x c).2] at hleave

theorem fineVisit_tidy : Tidy fineVisit := by
  intro s c
  simp only [fineVisit]
  split <;> exact ⟨rfl,.inr rfl⟩

theorem fineVisit_clears : Clears fineVisit := by
  intro s c
  unfold fineVisit
  split <;> exact ⟨rfl,rfl⟩

theorem gateVisit_tidy : Tidy gateVisit := by
  intro s c
  simp only [gateVisit]
  split
  · exact ⟨rfl,.inr rfl⟩
  · split
    · exact ⟨rfl,.inl rfl⟩
    · split <;> exact ⟨rfl,.inl rfl⟩

theorem pitchVisit_tidy : Tidy pitchVisit := by
  intro s c
  simp only [pitchVisit]
  split
  · exact ⟨rfl,.inr rfl⟩
  · exact ⟨rfl,.inl rfl⟩

theorem tieVisit_tidy (key : Byte) : Tidy (tieVisit key) := by
  intro s c
  simp only [tieVisit]
  split <;> exact ⟨rfl,.inl rfl⟩

/-- A change of one track that neither makes it exist or not, nor marks it for a restart. -/
theorem WellFormed.setTrack {x : Track} (h : WellFormed s lists)
    (he : x.flags &&& exist ≠ 0 ↔ s.Exists t) (hs : x.flags &&& start ≠ 0 → s.Starting t) :
    WellFormed (s.setTrack t x) lists := by
  refine h.congr rfl (fun u => ?_) fun u => ?_
  · by_cases hu : u = t
    · subst hu
      simpa [State.Exists,State.setTrack] using he
    · simp [State.Exists,State.setTrack,hu]
  · by_cases hu : u = t
    · subst hu
      simpa [State.Starting,State.setTrack] using hs
    · simp [State.Starting,State.setTrack,hu]

/-- A track without channels may end, or be marked for its restart with a cleared list. -/
theorem WellFormed.renew {x : Track} (h : WellFormed s lists) (he : lists t = [])
    (hl : s'.links.next = s.links.next) (hp : s'.links.prev = s.links.prev)
    (ho : s'.links.owner = s.links.owner) (hh : ∀ u, u ≠ t → s'.links.head u = s.links.head u)
    (ht : s'.track = Function.update s.track t x) (hx : s'.Exists t → s'.links.head t = none) :
    WellFormed s' lists := by
  have hother (u : ℕ) (hu : u ≠ t) : s'.track u = s.track u := by
    rw [ht,Function.update_of_ne hu]
  refine ⟨h.owned.relive he (fun u hu => ?_) hl hp ho hh hx,fun u hu => ?_⟩
  · unfold State.Exists
    rw [hother u hu]
  · by_cases hut : u = t
    · rw [hut,he]
    · apply h.starting
      unfold State.Starting at hu ⊢
      rwa [hother u hut] at hu

theorem plyFine_wellFormed (h : WellFormed s lists) (ht : s.Exists t) :
    ∃ s', plyFine s t = some s' ∧ (s'.track t).flags = 0 ∧
      ∃ lists', WellFormed s' lists' ∧ ∀ u, (lists' u).Sublist (lists u) := by
  obtain ⟨w,hw,htr,lists',hwf,hsub,hcl⟩ := walk_wellFormed fineVisit_tidy h ht
  refine ⟨w.setFlags t 0,?_,?_,lists',?_,hsub⟩
  · simp [plyFine,hw]
  · simp [State.setFlags,State.setTrack]
  · refine hwf.renew (hcl fineVisit_clears) rfl rfl rfl (fun _ _ => rfl) rfl fun hx => ?_
    simp [State.Exists,State.setFlags,State.setTrack] at hx

theorem stopWalk (h : WellFormed s lists) (ht : s.Exists t) :
    ∃ s', walk stopVisit np numChannels s (s.links.head t) = some s' ∧ s'.track = s.track ∧
      s'.links.next = s.links.next ∧ s'.links.prev = s.links.prev ∧
      s'.links.head = s.links.head ∧
      ∀ c, s'.links.owner c = if c ∈ lists t then none else s.links.owner c := by
  -- the links never change, the owners of the visited channels are gone
  let inv (x : State) (l : List ChanId) : Prop :=
    x.track = s.track ∧ x.links.next = s.links.next ∧ x.links.prev = s.links.prev ∧
    x.links.head = s.links.head ∧ ∃ before, lists t = before++l ∧
      ∀ c, x.links.owner c = if c ∈ before then none else s.links.owner c
  have hlinked := h.owned.linked t ht
  have hstep (x : State) (c : ChanId) (l : List ChanId) (hx : inv x (c::l)) :
      inv (stopVisit x c).1 l ∧ np (stopVisit x c).1 c = l.head? := by
    obtain ⟨htr,hn,hp,hh,before,hl,ho⟩ := hx
    have hv : (stopVisit x c).1.track = x.track ∧ (stopVisit x c).1.links = x.links.disown c := by
      simp only [stopVisit]
      split <;> exact ⟨rfl,rfl⟩
    refine ⟨⟨hv.1.trans htr,?_,?_,?_,before++[c],by simp [hl],fun d => ?_⟩,?_⟩
    · rw [hv.2]
      exact hn
    · rw [hv.2]
      exact hp
    · rw [hv.2]
      exact hh
    · rw [hv.2]
      by_cases hd : d = c
      · simp [Links.disown,hd]
      · simp [Links.disown,hd,ho]
    · unfold np
      rw [hv.2]
      rw [hl] at hlinked
      exact (congrFun hn c).trans hlinked.next_of_append
  have hend (x : State) (hx : inv x []) : x.track = s.track ∧ x.links.next = s.links.next ∧
      x.links.prev = s.links.prev ∧ x.links.head = s.links.head ∧
      ∀ c, x.links.owner c = if c ∈ lists t then none else s.links.owner c := by
    obtain ⟨htr,hn,hp,hh,before,hl,ho⟩ := hx
    rw [hl,List.append_nil]
    exact ⟨htr,hn,hp,hh,ho⟩
  have hs : inv s (lists t) := ⟨rfl,rfl,rfl,rfl,[],rfl,by simp⟩
  rw [hlinked.head]
  refine walk_ends (fun x c l _ hleave => ?_) (fun x c l hx _ => hstep x c l hx) hend hs
    (h.length_le t)
  simp [stopVisit] at hleave

/-- `TrackStop` drops all channels of the track and nothing else. -/
theorem trackStop_wellFormed (h : WellFormed s lists) (t : ℕ) :
    ∃ s', trackStop s t = some s' ∧ s'.track = s.track ∧
      WellFormed s' (Function.update lists t []) := by
  by_cases ht : s.Exists t
  · obtain ⟨w,hw,htr,hn,hp,hh,ho⟩ := stopWalk h ht
    refine ⟨{ w with links := w.links.setHead t none },?_,htr,?_,fun u hu => ?_⟩
    · simp [trackStop,ht,hw]
    · have hex : State.Exists { w with links := w.links.setHead t none } = s.Exists := by
        funext u
        simp [State.Exists,htr]
      rw [hex]
      exact h.owned.drop hn hp ho (by simp [Links.setHead,hh])
    · by_cases hut : u = t
      · simp [hut]
      · rw [Function.update_of_ne hut]
        apply h.starting
        unfold State.Starting at hu ⊢
        rwa [← htr]
  · refine ⟨s,by simp [trackStop,ht],rfl,?_⟩
    have hsame : Function.update lists t [] = lists := by
      rw [← h.owned.empty t ht]
      exact Function.update_eq_self t lists
    rw [hsame]
    exact h

end Invariant

section Flags

theorem mark_and (f m b : Byte) (hb : 0x0F &&& b = 0) : (f ||| (m &&& 0x0F)) &&& b = f &&& b := by
  rw [BitVec.and_or_distrib_right,BitVec.and_assoc,hb]
  simp

theorem clear_and (f b : Byte) (hb : 0xF0 &&& b = b) : (f &&& 0xF0) &&& b = f &&& b := by
  rw [BitVec.and_assoc,hb]

end Flags

section Steps

variable {s s' : State} {lists : ℕ → List ChanId} {p t : ℕ}

/-- The lists are well formed. -/
def Sound (s : State) : Prop := ∃ lists, WellFormed s lists

theorem Sound.same (h : Sound s) (hl : s'.links = s.links) (ht : s'.track = s.track) : Sound s' := by
  obtain ⟨lists,h⟩ := h
  exact ⟨lists,h.same hl ht⟩

/-- An operation ends, and keeps the lists well formed. -/
def Preserves (s : State) (r : Option State) : Prop := Sound s → ∃ s', r = some s' ∧ Sound s'

/-- An operation ends, keeps the lists well formed, and at most takes channels out of them. -/
def Shrinks (s : State) (r : Option State) : Prop :=
  ∀ lists, WellFormed s lists →
    ∃ s' lists', r = some s' ∧ WellFormed s' lists' ∧ ∀ t, (lists' t).Sublist (lists t)

theorem Shrinks.preserves {r : Option State} (h : Shrinks s r) : Preserves s r := by
  rintro ⟨lists,hs⟩
  obtain ⟨s',lists',hr,hs',-⟩ := h lists hs
  exact ⟨s',hr,lists',hs'⟩

theorem Shrinks.same (hl : s'.links = s.links) (ht : s'.track = s.track) :
    Shrinks s (some s') :=
  fun lists h => ⟨s',lists,rfl,h.same hl ht,fun _ => List.Sublist.refl _⟩

/-- The fields of a player may change before and after. -/
theorem Shrinks.after {s₀ : State} {r : Option State} (h : Shrinks s₀ r)
    (hl : s₀.links = s.links) (ht : s₀.track = s.track) : Shrinks s r :=
  fun lists hs => h lists (hs.same hl ht)

theorem Shrinks.map {r : Option State} {f : State → State} (h : Shrinks s r)
    (hf : ∀ s, (f s).links = s.links ∧ (f s).track = s.track) : Shrinks s (r.map f) := by
  intro lists hs
  obtain ⟨s',lists',rfl,hs',hsub⟩ := h lists hs
  exact ⟨f s',lists',rfl,hs'.same (hf s').1 (hf s').2,hsub⟩

theorem Shrinks.bind {r : Option State} {f : State → Option State} (h : Shrinks s r)
    (hf : ∀ s, Shrinks s (f s)) : Shrinks s (r.bind f) := by
  intro lists hs
  obtain ⟨s',lists',rfl,hs',hsub⟩ := h lists hs
  obtain ⟨s'',lists'',hr,hs'',hsub'⟩ := hf s' lists' hs'
  exact ⟨s'',lists'',hr,hs'',fun t => (hsub' t).trans (hsub t)⟩

theorem eachTrack_shrinks {f : State → ℕ → Option State} (hf : ∀ s t, Shrinks s (f s t))
    (ts : List ℕ) (s : State) : Shrinks s (eachTrack f ts s) := by
  induction ts generalizing s with
  | nil => exact .same rfl rfl
  | cons t ts ih => exact (hf s t).bind ih

theorem update_nil_sublist (lists : ℕ → List ChanId) (t u : ℕ) :
    (Function.update lists t [] u).Sublist (lists u) := by
  by_cases hut : u = t
  · rw [hut,Function.update_self]
    exact List.nil_sublist _
  · rw [Function.update_of_ne hut]

theorem trackStop_shrinks (s : State) (t : ℕ) : Shrinks s (trackStop s t) := by
  intro lists h
  obtain ⟨s',hs',_,hwf⟩ := trackStop_wellFormed h t
  exact ⟨s',_,hs',hwf,update_nil_sublist lists t⟩

theorem endTrack_shrinks (s : State) (t : ℕ) : Shrinks s (endTrack s t) := by
  intro lists h
  obtain ⟨s',hs',_,hwf⟩ := trackStop_wellFormed h t
  refine ⟨s'.setFlags t 0,Function.update lists t [],by simp [endTrack,hs'],?_,
    update_nil_sublist lists t⟩
  refine hwf.renew (Function.update_self ..) rfl rfl rfl (fun _ _ => rfl) rfl fun hx => ?_
  simp [State.Exists,State.setFlags,State.setTrack] at hx

theorem beginTrack_shrinks (s : State) (t : ℕ) : Shrinks s (beginTrack s t) := by
  intro lists h
  obtain ⟨s',hs',_,hwf⟩ := trackStop_wellFormed h t
  let w := s'.setFlags t (exist ||| start)
  refine ⟨{ w with links := w.links.setHead t none },Function.update lists t [],
    by simp [beginTrack,hs',w],?_,update_nil_sublist lists t⟩
  refine hwf.renew (Function.update_self ..) rfl rfl rfl (fun u hu => ?_) rfl fun _ => ?_
  · exact Function.update_of_ne hu _ _
  · exact Function.update_self ..

theorem fadeStopTrack_shrinks (temporary : Bool) (s : State) (t : ℕ) :
    Shrinks s (fadeStopTrack temporary s t) := by
  cases temporary with
  | true => simpa [fadeStopTrack] using trackStop_shrinks s t
  | false => simpa [fadeStopTrack,endTrack] using endTrack_shrinks s t

theorem fadeVolume_shrinks (fadeOV : BitVec 16) (s : State) (t : ℕ) :
    Shrinks s (fadeVolume fadeOV s t) := by
  intro lists h
  refine ⟨_,lists,rfl,?_,fun _ => List.Sublist.refl _⟩
  split
  · have hand (b : Byte) (hb : 0x0F &&& b = 0) :
        ((s.track t).flags ||| volChg) &&& b = (s.track t).flags &&& b := mark_and _ 0x03 b hb
    apply h.setTrack
    · rw [hand exist (by decide)]
      rfl
    · rw [hand start (by decide)]
      exact id
  · exact h

theorem restartTrack_sound (h : WellFormed s lists) (t : ℕ) :
    WellFormed (restartTrack s t) lists ∧ ¬ (restartTrack s t).Starting t ∧
      (s.Exists t → (restartTrack s t).Exists t) := by
  unfold restartTrack
  by_cases ht : s.Starting t
  · rw [if_pos ht]
    refine ⟨?_,?_,?_⟩
    · refine h.renew (h.starting t ht) rfl rfl rfl (fun u hu => ?_) rfl fun _ => ?_
      · exact Function.update_of_ne hu _ _
      · exact Function.update_self ..
    · simp [State.Starting,State.setTrack,freshTrack,exist,start]
    · simp [State.Exists,State.setTrack,freshTrack,exist]
  · rw [if_neg ht]
    exact ⟨h,ht,id⟩

theorem immInitTrack_shrinks (s : State) (t : ℕ) : Shrinks s (immInitTrack s t) := by
  intro lists h
  refine ⟨_,lists,rfl,?_,fun _ => List.Sublist.refl _⟩
  split
  · exact (restartTrack_sound h t).1
  · exact h

theorem updateTrack_shrinks (s : State) (t : ℕ) : Shrinks s (updateTrack s t) := by
  intro lists h
  unfold updateTrack
  split
  · rename_i ht
    obtain ⟨w,hw,htr,lists',hwf,hsub,_⟩ := walk_wellFormed pitchVisit_tidy h ht.1
    refine ⟨w.setFlags t ((w.track t).flags &&& 0xF0),lists',by simp [hw],?_,hsub⟩
    apply hwf.setTrack
    · rw [clear_and _ exist (by decide)]
      rfl
    · rw [clear_and _ start (by decide)]
      exact id
  · exact ⟨s,lists,rfl,h,fun _ => List.Sublist.refl _⟩

theorem mPlayStart_shrinks (s : State) (p : ℕ) (song : Song) : Shrinks s (mPlayStart s p song) := by
  unfold mPlayStart
  split
  · let s₀ := s.setPlayer p
      { s.player p with status := 0, hasSong := true, priority := song.priority, fadeOI := 0 }
    have hbegin : Shrinks s
        (eachTrack beginTrack ((s.player p).tracks.take song.trackCount) s₀) :=
      (eachTrack_shrinks beginTrack_shrinks _ s₀).after rfl rfl
    exact hbegin.bind (eachTrack_shrinks endTrack_shrinks _)
  · exact .same rfl rfl

theorem fadeOutBody_shrinks (s : State) (p : ℕ) : Shrinks s (fadeOutBody s p) := by
  simp only [fadeOutBody]
  split
  · exact .same rfl rfl
  · split
    · exact .same rfl rfl
    · split
      · exact (eachTrack_shrinks (fadeVolume_shrinks _) _ _).after rfl rfl
      · split
        · refine Shrinks.map ?_ fun _ => ⟨rfl,rfl⟩
          exact (eachTrack_shrinks (fadeStopTrack_shrinks _) _ _).after rfl rfl
        · exact (eachTrack_shrinks (fadeVolume_shrinks _) _ _).after rfl rfl

/-- What a command leaves: a track that has ended, or one that exists and is not restarting. -/
def Playing (s : State) (t : ℕ) : Prop := s.Exists t ∧ ¬ s.Starting t

theorem playing_setTrack {x : Track} (h : Playing s t) (he : x.flags = (s.track t).flags) :
    Playing (s.setTrack t x) t := by
  simpa [Playing,State.Exists,State.Starting,State.setTrack,he] using h

theorem WellFormed.setOperands {x : Track} (h : WellFormed s lists)
    (he : x.flags = (s.track t).flags) : WellFormed (s.setTrack t x) lists := by
  apply h.setTrack
  · rw [he]
    rfl
  · rw [he]
    exact id

theorem noteOperands_flags (x : NoteArgs) (r : Track) : (noteOperands x r).flags = r.flags := by
  unfold noteOperands
  split <;> rfl

/-- The started channel is the first of its new list and in no other. -/
theorem startChannel_wellFormed (h : WellFormed s lists) (hp : Playing s t) (priority : Byte)
    (c : ChanId) :
    WellFormed (startChannel s t priority c)
        (Function.update (fun u => (lists u).erase c) t (c::(lists t).erase c)) ∧
      Playing (startChannel s t priority c) t := by
  have hcl := h.clearChain c
  have hnone : (realClearChain s c).links.owner c = none := by
    simp [realClearChain,unlink_owner]
  have hpush := hcl.owned.push hnone hp.1
  have hfl : ((startChannel s t priority c).track t).flags = (s.track t).flags &&& 0xF0 := by
    simp [startChannel,State.setFlags,State.setTrack,State.setChan,realClearChain]
  have hother (u : ℕ) (hu : u ≠ t) : (startChannel s t priority c).track u = s.track u := by
    simp [startChannel,State.setFlags,State.setTrack,State.setChan,realClearChain,hu]
  have hex (u : ℕ) : (startChannel s t priority c).Exists u ↔ s.Exists u := by
    by_cases hu : u = t
    · subst hu
      unfold State.Exists
      rw [hfl,clear_and _ exist (by decide)]
    · unfold State.Exists
      rw [hother u hu]
  have hst (u : ℕ) : (startChannel s t priority c).Starting u ↔ s.Starting u := by
    by_cases hu : u = t
    · subst hu
      unfold State.Starting
      rw [hfl,clear_and _ start (by decide)]
    · unfold State.Starting
      rw [hother u hu]
  refine ⟨⟨?_,fun u hu => ?_⟩,(hex t).mpr hp.1,fun hs => hp.2 ((hst t).mp hs)⟩
  · have heq : (startChannel s t priority c).Exists = s.Exists := by
      funext u
      exact propext (hex u)
    rw [heq]
    exact hpush
  · have hut : u ≠ t := by
      rintro rfl
      exact hp.2 ((hst u).mp hu)
    rw [Function.update_of_ne hut]
    exact hcl.starting u ((hst u).mp hu)

theorem plyNote_sound (h : WellFormed s lists) (hp : Playing s t) (x : NoteArgs) :
    Sound (plyNote s p t x) ∧ Playing (plyNote s p t x) t := by
  have hfl := noteOperands_flags x (s.track t)
  have hwf := h.setOperands hfl
  have hpl := playing_setTrack hp hfl
  simp only [plyNote]
  split
  · exact ⟨⟨lists,hwf⟩,hpl⟩
  · split
    · exact ⟨⟨lists,hwf⟩,hpl⟩
    · obtain ⟨hwf',hpl'⟩ := startChannel_wellFormed hwf hpl _ _
      exact ⟨⟨_,hwf'⟩,hpl'⟩

theorem plyEndtie_sound (h : WellFormed s lists) (hp : Playing s t) (key : Option Byte) :
    ∃ s', plyEndtie s t key = some s' ∧ Sound s' ∧ Playing s' t := by
  have hk : ∃ w : State, plyEndtie s t key =
        walk (tieVisit (w.track t).key) np numChannels w (w.links.head t) ∧
      WellFormed w lists ∧ Playing w t := by
    cases key with
    | none => exact ⟨s,rfl,h,hp⟩
    | some k =>
      exact ⟨s.setTrack t { s.track t with key := k },rfl,h.setOperands rfl,playing_setTrack hp rfl⟩
  obtain ⟨w,hw,hwf,hpl⟩ := hk
  obtain ⟨s',hs',htr,lists',hwf',-⟩ := walk_wellFormed (tieVisit_tidy (w.track t).key) hwf hpl.1
  refine ⟨s',hw.trans hs',⟨lists',hwf'⟩,?_⟩
  unfold Playing State.Exists State.Starting
  rw [htr]
  exact hpl

/-- Every command ends; it keeps the lists well formed and the track playing, or ends the track. -/
theorem command_sound (h : WellFormed s lists) (hp : Playing s t) (x : Command) :
    ∃ s', command s p t x = some s' ∧ Sound s' ∧ ((s'.track t).flags = 0 ∨ Playing s' t) := by
  have hfine : ∃ s', plyFine s t = some s' ∧ Sound s' ∧ ((s'.track t).flags = 0 ∨ Playing s' t) := by
    obtain ⟨s',hs',hfl,lists',hwf,-⟩ := plyFine_wellFormed h hp.1
    exact ⟨s',hs',⟨lists',hwf⟩,.inl hfl⟩
  have hset (x : Track) (hx : x.flags = (s.track t).flags) : ∃ s', some (s.setTrack t x) = some s' ∧
      Sound s' ∧ ((s'.track t).flags = 0 ∨ Playing s' t) :=
    ⟨_,rfl,⟨lists,h.setOperands hx⟩,.inr (playing_setTrack hp hx)⟩
  cases x with
  | note x =>
    obtain ⟨hs,hpl⟩ := @plyNote_sound s lists p t h hp x
    exact ⟨_,rfl,hs,.inr hpl⟩
  | fine => exact hfine
  | patt =>
    simp only [command,plyPatt]
    split
    · exact hfine
    · exact hset _ rfl
  | pend =>
    simp only [command,plyPend]
    split
    · exact ⟨s,rfl,⟨lists,h⟩,.inr hp⟩
    · exact hset _ rfl
  | endtie key =>
    obtain ⟨s',hs',hsound,hpl⟩ := plyEndtie_sound h hp key
    exact ⟨s',hs',hsound,.inr hpl⟩
  | prio x => exact hset _ rfl
  | parameter marks =>
    have hmark (b : Byte) (hb : 0x0F &&& b = 0) := mark_and (s.track t).flags marks b hb
    refine ⟨_,rfl,⟨lists,?_⟩,.inr ?_⟩
    · apply h.setTrack
      · rw [hmark exist (by decide)]
        rfl
      · rw [hmark start (by decide)]
        exact id
    · simp only [Playing,State.Exists,State.Starting,State.setFlags,State.setTrack,
        Function.update_self]
      rw [hmark exist (by decide),hmark start (by decide)]
      exact hp

theorem commands_sound (xs : List Command) (h : Sound s) (hp : Playing s t) :
    ∃ s', commands p t xs s = some s' ∧ Sound s' := by
  induction xs generalizing s with
  | nil => exact ⟨s,rfl,h⟩
  | cons x xs ih =>
    obtain ⟨lists,hwf⟩ := h
    obtain ⟨s₁,h₁,hs₁,hcase⟩ := @command_sound s lists p t hwf hp x
    simp only [commands,h₁,Option.bind_some]
    split
    · exact ⟨s₁,rfl,hs₁⟩
    · rename_i hfl
      exact ih hs₁ (hcase.resolve_left hfl)

theorem tickTrack_preserves (s : State) (p t : ℕ) (xs : List Command) :
    Preserves s (tickTrack p s t xs) := by
  rintro ⟨lists,h⟩
  unfold tickTrack
  split
  · rename_i ht
    obtain ⟨w,hw,htr,lists',hwf,-⟩ := walk_wellFormed gateVisit_tidy h ht
    have hex : w.Exists t := by
      unfold State.Exists
      rw [htr]
      exact ht
    obtain ⟨hr,hst,hre⟩ := restartTrack_sound hwf t
    rw [hw]
    exact commands_sound xs ⟨lists',hr⟩ ⟨hre hex,hst⟩
  · exact ⟨s,rfl,lists,h⟩

theorem tickTracks_preserves (p : ℕ) (ts : List (ℕ × List Command)) (s : State) (bit mask : Word)
    (h : Sound s) : ∃ s' m, tickTracks p ts s bit mask = some (s',m) ∧ Sound s' := by
  induction ts generalizing s bit mask with
  | nil => exact ⟨s,mask,rfl,h⟩
  | cons x ts ih =>
    obtain ⟨t,xs⟩ := x
    obtain ⟨s₁,h₁,hs₁⟩ := tickTrack_preserves s p t xs h
    simp only [tickTracks,h₁,Option.bind_some]
    exact ih s₁ _ _ hs₁

theorem tick_preserves (s : State) (p : ℕ) (script : ℕ → List Command) :
    Preserves s (tick s p script) := by
  intro h
  obtain ⟨s',m,hs',hsound⟩ :=
    tickTracks_preserves p ((s.player p).tracks.map fun t => (t,script t)) s 1 0 h
  simp only [tick,hs',Option.map_some]
  exact ⟨_,rfl,hsound.same rfl rfl⟩

/-- Only a tick puts channels into the lists. -/
theorem step_shrinks (s : State) {e : Event} (h : ∀ p script, e ≠ .tick p script) :
    Shrinks s (step s e) := by
  cases e with
  | mPlayStart p song => exact mPlayStart_shrinks s p song
  | m4aMPlayStop p => exact (eachTrack_shrinks trackStop_shrinks _ _).after rfl rfl
  | m4aMPlayContinue p => exact .same rfl rfl
  | m4aMPlayImmInit p => exact eachTrack_shrinks immInitTrack_shrinks _ s
  | fade p speed fadeOV => exact .same rfl rfl
  | fadeOutBody p => exact fadeOutBody_shrinks s p
  | tick p script => exact absurd rfl (h p script)
  | update p => exact eachTrack_shrinks updateTrack_shrinks _ s
  | mixer status => exact .same rfl rfl
  | maxChans n => exact .same rfl rfl

theorem step_preserves (s : State) (e : Event) : Preserves s (step s e) := by
  by_cases htick : ∃ p script, e = .tick p script
  · obtain ⟨p,script,rfl⟩ := htick
    exact tick_preserves s p script
  · exact (step_shrinks s fun p script he => htick ⟨p,script,he⟩).preserves

theorem runEvents_preserves (es : List Event) (s : State) : Preserves s (runEvents s es) := by
  induction es generalizing s with
  | nil => exact fun h => ⟨s,rfl,h⟩
  | cons e es ih =>
    intro h
    obtain ⟨s₁,h₁,hs₁⟩ := step_preserves s e h
    obtain ⟨s₂,h₂,hs₂⟩ := ih s₁ hs₁
    exact ⟨s₂,by simp [runEvents,h₁,h₂],hs₂⟩

theorem initial_wellFormed (player : ℕ → Player) (track : ℕ → Track) (head : ℕ → Option ChanId)
    (n : Fin 13) : WellFormed (initial player track head n) fun _ => [] := by
  refine ⟨⟨?_,?_,?_,?_⟩,fun _ _ => rfl⟩
  · intro t c
    simp [initial]
  · intro t
    exact List.nodup_nil
  · intro t ht
    simp [initial,State.Exists] at ht
  · intro t _
    rfl

/-- Every run of the sequencer ends each of its walks, and then every existing track has a list of
channels: linked from its `chan` pointer through `np`, back through `pp`, without repetition,
with exactly the channels that point to the track, and disjoint from the lists of other tracks. -/
theorem ownership_lists (player : ℕ → Player) (track : ℕ → Track) (head : ℕ → Option ChanId)
    (n : Fin 13) (es : List Event) :
    ∃ s, runEvents (initial player track head n) es = some s ∧ ∃ lists : ℕ → List ChanId,
      (∀ t, s.Exists t → (lists t).Nodup ∧
        Linked s.links none (s.links.head t) (lists t) ∧
        ∀ c, c ∈ lists t ↔ s.links.owner c = some t) ∧
      ∀ t u, s.Exists t → s.Exists u → t ≠ u → (lists t).Disjoint (lists u) := by
  obtain ⟨s,hs,lists,h⟩ := runEvents_preserves es _ ⟨_,initial_wellFormed player track head n⟩
  refine ⟨s,hs,lists,fun t ht => ?_,fun t u _ _ htu c hct hcu => ?_⟩
  · exact ⟨h.owned.nodup t,h.owned.linked t ht,h.owned.mem t⟩
  · exact htu (h.owned.eq_of_mem hct hcu)

end Steps

end Sequencer
end M4a
end AgbTools
