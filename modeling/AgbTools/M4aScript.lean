import AgbTools.M4aActions
import AgbTools.M4aSong

/-! What the bytes of a song tell the sequencer. A tick of a track at its bytes is a tick of the
sequencer with the commands that the bytes spell. -/
namespace AgbTools
namespace M4a
namespace Song

section Script

variable (template : Word) (mem : Word → Byte)

/-- The fields of a track that the sequencer works with. -/
def Track.core (s : Track) : Sequencer.Track :=
  ⟨s.flags,s.key,s.gateTime,s.velocity,s.priority,s.patternLevel,s.volX⟩

def Tone.keySplitTable (x : Tone) : Word := x.release++x.sustain++x.decay++x.attack

/-- The type of the tone that `ply_note` finds, if it is not a table inside a table. -/
def noteType (s : Track) : Option Byte :=
  if s.tone.type &&& 0xC0 = 0 then some s.tone.type
  else
    let key := if s.tone.type &&& 0x40 ≠ 0 then mem (s.tone.keySplitTable+s.key.zeroExtend 32) else s.key
    let type := mem (s.tone.wav+12*key.zeroExtend 32)
    if type &&& 0xC0 = 0 then some type else none

/-- An operand that is only there when it is no command byte. -/
def operandAt (a : Word) : Option Byte := if 0x80 ≤ mem a then none else some (mem a)

theorem noType : ((0 : Byte) &&& 7).toNat ≤ 4 := by decide

/-- The operands of a note, unless there is no channel for the type of its tone. -/
def noteArgs (clock : Byte) (s : Track) : Option Sequencer.NoteArgs :=
  let key := operandAt mem s.cmdPtr
  let velocity := operandAt mem (s.cmdPtr+1)
  let gate := operandAt mem (s.cmdPtr+2)
  match noteType mem (noteOperands mem clock s) with
  | none => some ⟨clock,key,velocity,gate,0,true,noType⟩
  | some type =>
    if h : (type &&& 7).toNat ≤ 4 then some ⟨clock,key,velocity,gate,type,false,h⟩ else none

/-- The entries of the jump table. -/
def heardTable (s : Track) : ℕ → Sequencer.Command
  | 2 => .patt
  | 3 => .pend
  | 9 => .prio (Control.ldrbR3R2 template mem s.cmdPtr)
  | 1 | 4 | 8 | 10 | 12 | 18 | 27 => .parameter 0
  | 13 | 14 => .parameter 0x03
  | 11 | 15 | 16 | 23 => .parameter 0x0C
  | 17 | 19 =>
    .parameter (if mem s.cmdPtr = 0 then if s.modT = 0 then 0x0C else 0x03 else 0)
  | 20 => .parameter (if s.modT = Control.ldrbR3R2 template mem s.cmdPtr then 0 else 0x0F)
  | 28 => if mem s.cmdPtr = 0 ∨ mem s.cmdPtr = 3 then .fine else .parameter 0
  | 29 => .endtie (operandAt mem s.cmdPtr)
  | _ => .fine

/-- What the command `r1`, with the operands that follow, is for the sequencer. -/
def heard (r1 : Byte) (s : Track) : Option Sequencer.Command :=
  if 0xCF ≤ r1 then (noteArgs mem (gClockTable.getD (r1.toNat-0xCF) 0) s).map .note
  else if 0xB0 < r1 then some (heardTable template mem s (r1.toNat-0xB1))
  else some (.parameter 0)

/-- The next command of a track. -/
def heardNext (s : Track) : Option Sequencer.Command :=
  let (r1,c) := Control.fetch mem s.toTrack
  heard template mem r1 { s with toTrack := c }

/-- Whether the sequencer finds a channel for a note. -/
def gets (q : Sequencer.State) (p t : ℕ) : Sequencer.Command → Bool
  | .note x => (Sequencer.noteChannel q p t x).isSome
  | _ => false

/-- The commands that a track executes until it waits, as the sequencer hears them. A note gets a
channel when the sequencer finds one. -/
def script (p t : ℕ) : ℕ → State → Sequencer.State → Option (List Sequencer.Command × State)
  | 0, _, _ => none
  | fuel+1, s, q =>
    if s.track.flags = 0 ∨ s.track.wait ≠ 0 then some ([],s)
    else
      (heardNext template mem s.track).bind fun x =>
        (execute template mem s (gets q p t x)).bind fun s' =>
          (Sequencer.command q p t x).bind fun q' =>
            (script p t fuel s' q').map fun (xs,s) => (x::xs,s)

/-- The track at the beginning of its commands. -/
def restarted (s : State) : State := if s.track.flags &&& 0x40 ≠ 0 then s.edit freshTrack else s

/-- A tick of a track. What the LFO marks is the last command. -/
def tickScript (p t fuel : ℕ) (s : State) (q : Sequencer.State) :
    Option (List Sequencer.Command × State) :=
  if s.track.flags &&& 0x80 = 0 then some ([],s)
  else
    (OwnedLists.walk Sequencer.gateVisit Sequencer.np Sequencer.numChannels q (q.links.head t)).bind fun q =>
      (script template mem p t fuel (restarted s) (Sequencer.restartTrack q t)).map fun (xs,s) =>
        (xs++[.parameter (tickEnd s).track.flags],tickEnd s)

/-- The tracks of a player, which share its fields. -/
structure Tracks where
  track : ℕ → Track
  player : Player
  out : List Sound

def Tracks.state (w : Tracks) (t : ℕ) : State := ⟨w.track t,w.player,w.out⟩

def Tracks.store (w : Tracks) (t : ℕ) (s : State) : Tracks :=
  ⟨Function.update w.track t s.track,s.player,s.out⟩

/-- A tick of the tracks of a player one after the other. -/
def tracksScript (p fuel : ℕ) : List ℕ → Tracks → Sequencer.State →
    Option (List (ℕ × List Sequencer.Command) × Tracks)
  | [], w, _ => some ([],w)
  | t::ts, w, q =>
    (tickScript template mem p t fuel (w.state t) q).bind fun (xs,s) =>
      (Sequencer.tickTrack p q t xs).bind fun q =>
        (tracksScript p fuel ts (w.store t s) q).map fun (rest,w) => ((t,xs)::rest,w)

/-- A tick at the bytes alone; the function says which notes of a track get a channel. -/
def tickTracks (fuel : ℕ) (got : ℕ → ℕ → Bool) : List ℕ → Tracks → Option Tracks
  | [], w => some w
  | t::ts, w => (tick template mem (got t) fuel (w.state t)).bind fun s => tickTracks fuel got ts (w.store t s)

/-- The commands of a track among those of all tracks. -/
def scriptOf : List (ℕ × List Sequencer.Command) → ℕ → List Sequencer.Command
  | [], _ => []
  | (t,xs)::rest, u => if u = t then xs else scriptOf rest u

/-- Ticks of a player, at the bytes and in the sequencer. -/
def ticksScript (p fuel : ℕ) : ℕ → Tracks → Sequencer.State → Option (Tracks × Sequencer.State)
  | 0, w, q => some (w,q)
  | n+1, w, q =>
    (tracksScript template mem p fuel (q.player p).tracks w q).bind fun (rest,w) =>
      (Sequencer.tick q p (scriptOf rest)).bind (ticksScript p fuel n w)

end Script

section Cores

variable {template : Word} {mem : Word → Byte}

theorem setVolume_core (s : Track) : (setVolume s).core = s.core := by
  unfold setVolume
  split_ifs <;> rfl

theorem setPitch_core (s : Track) : (setPitch s).core = s.core := by
  unfold setPitch
  split_ifs <;> rfl

theorem delayLfo_core (s : Track) : (delayLfo s).core = { s.core with flags := (delayLfo s).flags } := by
  unfold delayLfo
  dsimp only
  split_ifs <;> rfl

theorem noteStarted_core (s : Track) : (noteStarted s).core = { s.core with flags := s.flags &&& 0xF0 } := by
  have hcore : (noteStarted s).core = { (trkVolPitSet (delayLfo s)).core with flags := (noteStarted s).flags } :=
    rfl
  have hset : (trkVolPitSet (delayLfo s)).core =
      { (setPitch (setVolume (delayLfo s))).core with flags := (trkVolPitSet (delayLfo s)).flags } := rfl
  rw [hcore,hset,setPitch_core,setVolume_core,delayLfo_core,noteStarted_flags]

theorem noteOperands_core {clock : Byte} {s : Track} {x : Sequencer.NoteArgs} (hx : noteArgs mem clock s = some x) :
    (noteOperands mem clock s).core = Sequencer.noteOperands x s.core := by
  obtain ⟨hclock,hkey,hvelocity,hgate⟩ : x.clock = clock ∧ x.key = operandAt mem s.cmdPtr ∧
      x.velocity = operandAt mem (s.cmdPtr+1) ∧ x.gate = operandAt mem (s.cmdPtr+2) := by
    unfold noteArgs at hx
    split at hx
    · cases hx
      exact ⟨rfl,rfl,rfl,rfl⟩
    · split_ifs at hx
      cases hx
      exact ⟨rfl,rfl,rfl,rfl⟩
  unfold noteOperands Sequencer.noteOperands
  rw [hclock,hkey,hvelocity,hgate]
  unfold operandAt
  dsimp only
  split_ifs <;> rfl

/-- What a command does to the fields of its track. -/
def afterCommand (r : Sequencer.Track) (got : Bool) : Sequencer.Command → Sequencer.Track
  | .note x =>
    let r := Sequencer.noteOperands x r
    if got then { r with flags := r.flags &&& 0xF0 } else r
  | .fine => { r with flags := 0 }
  | .patt => if 3 ≤ r.patternLevel then { r with flags := 0 } else { r with patternLevel := r.patternLevel+1 }
  | .pend => if r.patternLevel = 0 then r else { r with patternLevel := r.patternLevel-1 }
  | .endtie key => { r with key := key.getD r.key }
  | .prio x => { r with priority := x }
  | .parameter marks => { r with flags := r.flags ||| (marks &&& 0x0F) }

end Cores

section Sequencer

open Sequencer

variable {q q' : Sequencer.State} {lists : ℕ → List ChanId} {p t : ℕ}

theorem plyFine_track (h : WellFormed q lists) (ht : q.Exists t) (hq : Sequencer.plyFine q t = some q') :
    q'.track = Function.update q.track t { q.track t with flags := 0 } := by
  obtain ⟨w,hw,htr,-⟩ := walk_wellFormed fineVisit_tidy h ht
  rw [Sequencer.plyFine,hw] at hq
  cases hq
  show Function.update w.track t { w.track t with flags := 0 } = _
  rw [htr]

theorem plyEndtie_track (h : WellFormed q lists) (ht : q.Exists t) {key : Option Byte}
    (hq : Sequencer.plyEndtie q t key = some q') :
    q'.track = Function.update q.track t { q.track t with key := key.getD (q.track t).key } := by
  rw [plyEndtie_eq h ht] at hq
  cases hq
  dsimp only
  split <;> rfl

theorem plyNote_track (x : NoteArgs) : (Sequencer.plyNote q p t x).track =
    Function.update q.track t (afterCommand (q.track t) (gets q p t (.note x)) (.note x)) := by
  rw [plyNote_eq,gets,afterCommand]
  cases noteChannel q p t x with
  | none => rfl
  | some c =>
    simp [startChannel,State.setFlags,State.setTrack,State.setChan,realClearChain]

/-- A command of the sequencer changes its own track only. -/
theorem command_track (h : WellFormed q lists) (ht : q.Exists t) (x : Sequencer.Command)
    (hq : Sequencer.command q p t x = some q') :
    q'.track = Function.update q.track t (afterCommand (q.track t) (gets q p t x) x) := by
  cases x with
  | note x =>
    cases hq
    exact plyNote_track x
  | fine => exact plyFine_track h ht hq
  | patt =>
    simp only [command,Sequencer.plyPatt] at hq
    simp only [afterCommand]
    by_cases hlevel : 3 ≤ (q.track t).patternLevel
    · rw [if_pos hlevel] at hq ⊢
      exact plyFine_track h ht hq
    · rw [if_neg hlevel] at hq ⊢
      cases hq
      rfl
  | pend =>
    cases hq
    simp only [Sequencer.plyPend,afterCommand]
    by_cases hlevel : (q.track t).patternLevel = 0
    · rw [if_pos hlevel,if_pos hlevel]
      exact (Function.update_eq_self t q.track).symm
    · rw [if_neg hlevel,if_neg hlevel]
      rfl
  | endtie key => exact plyEndtie_track h ht hq
  | prio x =>
    cases hq
    rfl
  | parameter marks =>
    cases hq
    rfl

end Sequencer

section Commands

variable {template : Word} {mem : Word → Byte} {got : Bool} {s s' : State} {x : Sequencer.Command}

theorem plyNote_core {clock : Byte} {x : Sequencer.NoteArgs} (hx : noteArgs mem clock s.track = some x) :
    (plyNote mem got clock s).track.core = afterCommand s.track.core got (.note x) := by
  simp only [afterCommand,← noteOperands_core hx]
  cases got with
  | false => rfl
  | true => exact noteStarted_core _

theorem afterCommand_none (r : Sequencer.Track) : afterCommand r got (.parameter 0) = r := by
  simp [afterCommand]

theorem plyPatt_core (s : State) : (plyPatt template mem s).track.core = afterCommand s.track.core got .patt := by
  simp only [afterCommand]
  unfold plyPatt
  by_cases hlevel : 3 ≤ s.track.patternLevel
  · rw [if_pos hlevel,if_pos (show 3 ≤ s.track.core.patternLevel from hlevel)]
    rfl
  · rw [if_neg hlevel,if_neg (show ¬3 ≤ s.track.core.patternLevel from hlevel)]
    have hpatt : Control.plyPatt template mem s.track.toTrack = _ := if_neg hlevel
    show ({ s.track with toTrack := Control.plyPatt template mem s.track.toTrack } : Track).core = _
    rw [hpatt]
    rfl

theorem plyPend_core (s : Track) : (s.steer Control.plyPend).core = afterCommand s.core got .pend := by
  simp only [afterCommand]
  unfold Track.steer Control.plyPend
  by_cases hlevel : s.patternLevel = 0
  · rw [if_pos hlevel,if_pos (show s.core.patternLevel = 0 from hlevel)]
  · rw [if_neg hlevel,if_neg (show ¬s.core.patternLevel = 0 from hlevel)]
    rfl

theorem plyRept_core (s : Track) : (s.steer (Control.plyRept template mem)).core = s.core := by
  unfold Track.steer Control.plyRept
  dsimp only [Control.ldR3TpAdrI]
  split_ifs <;> rfl

theorem plyMemacc_core (s : State) : (plyMemacc template mem s).track.core = s.track.core := by
  have hjump (cond : Bool) (r : State) : (condJump template mem cond r).track.core = r.track.core := by
    cases cond <;> rfl
  unfold plyMemacc
  dsimp only
  split
  · rfl
  · exact hjump _ _
  · rfl

theorem plyVoice_core (tone : Word) (s : Track) : (plyVoice template mem tone s).core = s.core := by
  unfold plyVoice withUnchecked
  generalize toneAt template mem _ = voice
  rfl

theorem mark_core (s : Track) {m : Byte} (hm : m &&& 0x0F = m) :
    (s.mark m).core = afterCommand s.core got (.parameter m) := by
  simp only [afterCommand,hm]
  rfl

/-- Commands that also reset the LFO when their operand is 0. -/
theorem clears_core {s r : Track} (x : Byte) (hr : r.core = s.core) (hmodt : r.modT = s.modT) :
    (if x = 0 then clearModM r else r).core = afterCommand s.core got
      (.parameter (if x = 0 then if s.modT = 0 then 0x0C else 0x03 else 0)) := by
  by_cases hx : x = 0
  · rw [if_pos hx,if_pos hx,← hr,← hmodt]
    have hmask : (if r.modT = 0 then 0x0C else 0x03 : Byte) &&& 0x0F = if r.modT = 0 then 0x0C else 0x03 := by
      split_ifs <;> rfl
    exact mark_core { r with modM := 0, lfoSpeedC := 0 } hmask
  · rw [if_neg hx,if_neg hx,afterCommand_none]
    exact hr

theorem modt_core (x : Byte) (s : Track) : (if s.modT = x then s else ({ s with modT := x }).mark 0x0F).core =
    afterCommand s.core got (.parameter (if s.modT = x then 0 else 0x0F)) := by
  by_cases hsame : s.modT = x
  · rw [if_pos hsame,if_pos hsame,afterCommand_none]
  · rw [if_neg hsame,if_neg hsame]
    exact mark_core { s with modT := x } (by decide)

theorem gXcmdTable_core (got : Bool) {n : ℕ} {f : State → State} (h : gXcmdTable mem n = some f) (s : State) :
    (f s).track.core = afterCommand s.track.core got (if n = 0 ∨ n = 3 then .fine else .parameter 0) := by
  unfold gXcmdTable at h
  split at h
  case h_1 | h_4 =>
    cases h
    rfl
  case h_13 =>
    cases h
    rw [if_neg (by decide),afterCommand_none]
    show (plyXcmd0C mem s.track).core = _
    unfold plyXcmd0C
    split_ifs <;> rfl
  case h_15 => cases h
  all_goals
    cases h
    rw [if_neg (by decide),afterCommand_none]
    rfl

theorem plyXcmd_core (h : plyXcmd mem s = some s') : s'.track.core = afterCommand s.track.core got
    (if mem s.track.cmdPtr = 0 ∨ mem s.track.cmdPtr = 3 then .fine else .parameter 0) := by
  obtain ⟨f,hf,rfl⟩ := Option.map_eq_some_iff.mp h
  have hzero : (mem s.track.cmdPtr).toNat = 0 ↔ mem s.track.cmdPtr = 0 :=
    BitVec.toNat_inj (x := mem s.track.cmdPtr) (y := 0)
  have hthree : (mem s.track.cmdPtr).toNat = 3 ↔ mem s.track.cmdPtr = 3 :=
    BitVec.toNat_inj (x := mem s.track.cmdPtr) (y := 3)
  rw [gXcmdTable_core got hf]
  simp only [hzero,hthree]
  rfl

theorem plyEndtie_core (s : State) : (plyEndtie mem s).track.core =
    afterCommand s.track.core got (.endtie (operandAt mem s.track.cmdPtr)) := by
  simp only [afterCommand]
  unfold plyEndtie operandAt
  by_cases hkey : mem s.track.cmdPtr < 0x80
  · rw [if_pos hkey,if_neg (BitVec.not_le.mpr hkey)]
    rfl
  · rw [if_neg hkey,if_pos (BitVec.not_lt.mp hkey)]
    rfl

theorem heardTable_core {n : ℕ} (h : jumpTable template mem n s = some s') :
    s'.track.core = afterCommand s.track.core got (heardTable template mem s.track n) := by
  unfold jumpTable at h
  split at h
  case h_1 =>
    cases h
    rfl
  case h_2 | h_8 | h_16 | h_20 =>
    cases h
    exact (afterCommand_none _).symm
  case h_10 =>
    cases h
    exact (plyVoice_core _ _).trans (afterCommand_none _).symm
  case h_3 =>
    cases h
    exact plyPatt_core _
  case h_4 =>
    cases h
    exact plyPend_core _
  case h_5 =>
    cases h
    exact (plyRept_core _).trans (afterCommand_none _).symm
  case h_6 =>
    cases h
    exact (plyMemacc_core _).trans (afterCommand_none _).symm
  case h_15 | h_17 =>
    cases h
    exact clears_core _ rfl rfl
  case h_18 =>
    cases h
    exact modt_core _ (s.track.skip 1)
  case h_21 => exact plyXcmd_core h
  case h_22 =>
    cases h
    exact plyEndtie_core _
  case h_23 =>
    cases h
    have hfine : heardTable template mem s.track n = .fine := by
      unfold heardTable
      split <;> simp_all
    rw [hfine]
    rfl
  all_goals
    cases h
    rfl

/-- What is heard of a command is what it does to the fields of the sequencer. -/
theorem perform_core {r1 : Byte} (hx : heard template mem r1 s.track = some x)
    (h : perform template mem got r1 s = some s') : s'.track.core = afterCommand s.track.core got x := by
  unfold heard at hx
  unfold perform at h
  split_ifs at h hx with hnote htable hwait
  · obtain ⟨y,hy,rfl⟩ := Option.map_eq_some_iff.mp hx
    cases h
    exact plyNote_core hy
  · rw [← Option.some.inj hx]
    exact heardTable_core h
  · cases hx
    generalize gClockTable.getD (r1.toNat-0x80) 0 = wait at h
    cases h
    exact (afterCommand_none _).symm

theorem fetch_core (mem : Word → Byte) (s : Track) :
    ({ s with toTrack := (Control.fetch mem s.toTrack).2 } : Track).core = s.core := by
  unfold Control.fetch
  dsimp only
  split_ifs <;> rfl

theorem execute_core (hon : s.track.flags ≠ 0) (hx : heardNext template mem s.track = some x)
    (h : execute template mem s got = some s') : s'.track.core = afterCommand s.track.core got x := by
  rw [execute,if_neg hon] at h
  rw [← fetch_core mem s.track]
  exact perform_core (s := s.edit fun r => { r with toTrack := (Control.fetch mem s.track.toTrack).2 }) hx h

end Commands

section Ticks

open Sequencer

variable {template : Word} {mem : Word → Byte} {fuel p t : ℕ} {s s' : State} {q q' : Sequencer.State}
  {xs : List Sequencer.Command}

/-- A loop that goes on only asks for notes with less fuel. -/
theorem commandLoop_congr {got got' : ℕ → Bool} (h : ∀ n < fuel, got n = got' n) (s : State) :
    commandLoop template mem got fuel s = commandLoop template mem got' fuel s := by
  induction fuel generalizing s with
  | zero => rfl
  | succ fuel ih =>
    unfold commandLoop
    rw [h fuel (by omega)]
    congr 2
    funext s
    exact ih (fun n hn => h n (by omega)) s

theorem playing_core {q : Sequencer.State} (hcore : q.track t = s.track.core) :
    Playing q t ↔ s.track.flags &&& 0x80 ≠ 0 ∧ s.track.flags &&& 0x40 = 0 := by
  unfold Playing State.Exists State.Starting
  rw [hcore]
  exact and_congr Iff.rfl not_not

/-- The first note of a loop is given, the others are those of the rest. -/
theorem commandLoop_cons {got : ℕ → Bool} {first : Bool} {s₁ : State}
    (hstop : ¬(s.track.flags = 0 ∨ s.track.wait ≠ 0)) (hs₁ : execute template mem s first = some s₁)
    (h : commandLoop template mem got fuel s₁ = some s') :
    commandLoop template mem (Function.update got fuel first) (fuel+1) s = some s' := by
  rw [commandLoop,if_neg hstop,Function.update_self,hs₁,← h]
  exact commandLoop_congr (fun n hn => Function.update_of_ne (by omega) _ _) s₁

theorem script_off (hoff : s.track.flags = 0) (h : script template mem p t fuel s q = some (xs,s')) :
    xs = [] ∧ s' = s ∧ commandLoop template mem (fun _ => false) fuel s = some s' := by
  cases fuel with
  | zero => cases h
  | succ fuel =>
    rw [script,if_pos (.inl hoff)] at h
    cases h
    exact ⟨rfl,rfl,if_pos (.inl hoff)⟩

theorem script_plays (hq : Sequencer.Sound q) (hplay : Playing q t) (hcore : q.track t = s.track.core)
    (h : script template mem p t fuel s q = some (xs,s')) :
    ∃ q', commands p t xs q = some q' ∧ Sequencer.Sound q' ∧
      q'.track = Function.update q.track t s'.track.core ∧ (s'.track.flags = 0 ∨ Playing q' t) ∧
      ∃ got, commandLoop template mem got fuel s = some s' := by
  induction fuel generalizing s q xs with
  | zero => cases h
  | succ fuel ih =>
    rw [script] at h
    split_ifs at h with hstop
    · cases h
      refine ⟨q,rfl,hq,?_,.inr hplay,fun _ => false,if_pos hstop⟩
      rw [← hcore,Function.update_eq_self]
    · obtain ⟨x,hx,h⟩ := Option.bind_eq_some_iff.mp h
      obtain ⟨s₁,hs₁,h⟩ := Option.bind_eq_some_iff.mp h
      obtain ⟨q₁,hq₁,h⟩ := Option.bind_eq_some_iff.mp h
      obtain ⟨⟨ys,r⟩,hys,hr⟩ := Option.map_eq_some_iff.mp h
      cases hr
      obtain ⟨lists,hwf⟩ := hq
      have htrack := command_track hwf hplay.1 x hq₁
      have hcore₁ : q₁.track t = s₁.track.core := by
        rw [htrack,Function.update_self,hcore]
        exact (execute_core (fun hoff => hstop (.inl hoff)) hx hs₁).symm
      have hother : q₁.track = Function.update q.track t s₁.track.core := by
        rw [← hcore₁,htrack,Function.update_self]
      obtain ⟨q₂,hq₂,hsound,hcase⟩ := command_sound (p := p) hwf hplay x
      obtain rfl : q₁ = q₂ := Option.some.inj (hq₁.symm.trans hq₂)
      rw [commands,hq₁,Option.bind_some]
      rw [hcore₁] at hcase ⊢
      by_cases hoff : s₁.track.flags = 0
      · obtain ⟨rfl,rfl,hloop⟩ := script_off hoff hys
        rw [if_pos (show s'.track.core.flags = 0 from hoff)]
        exact ⟨q₁,rfl,hsound,hother,.inl hoff,_,commandLoop_cons hstop hs₁ hloop⟩
      · have hplay₁ : Playing q₁ t := hcase.resolve_left hoff
        obtain ⟨q',hq',hsound',htrack',hcase',got,hloop⟩ := ih hsound hplay₁ hcore₁ hys
        rw [if_neg (show ¬s₁.track.core.flags = 0 from hoff)]
        refine ⟨q',hq',hsound',?_,hcase',_,commandLoop_cons hstop hs₁ hloop⟩
        rw [htrack',hother,Function.update_idem]

theorem commands_append (hon : (q.track t).flags ≠ 0) (ys : List Sequencer.Command) :
    commands p t (xs++ys) q = (commands p t xs q).bind fun q =>
      if (q.track t).flags = 0 then some q else commands p t ys q := by
  induction xs generalizing q with
  | nil => rw [List.nil_append,commands,Option.bind_some,if_neg hon]
  | cons x xs ih =>
    rw [List.cons_append,commands,commands,Option.bind_assoc]
    congr 1
    funext q
    by_cases hoff : (q.track t).flags = 0
    · rw [if_pos hoff,if_pos hoff,Option.bind_some,if_pos hoff]
    · rw [if_neg hoff,if_neg hoff,ih hoff]

/-- The LFO only marks. -/
theorem lfo_core (s : Track) :
    (lfo s).core = { s.core with flags := s.flags ||| ((lfo s).flags &&& 0x0F) } := by
  have habsorb (x : Byte) : x ||| (x &&& 0x0F) = x := by grind
  have hmark (x m : Byte) (hm : m &&& 0x0F = m) : x ||| ((x ||| m) &&& 0x0F) = x ||| m := by
    rw [BitVec.and_or_distrib_right,hm,← BitVec.or_assoc,habsorb]
  have hsame (r : Track) (hr : r.core = s.core) (hflags : r.flags = s.flags) :
      r.core = { s.core with flags := s.flags ||| (r.flags &&& 0x0F) } := by
    rw [hflags,habsorb]
    exact hr
  unfold lfo
  split_ifs
  · exact hsame s rfl rfl
  · exact hsame _ rfl rfl
  · by_cases h : s.lfoModM = s.modM
    · rw [moveLfo_same h]
      exact hsame _ rfl rfl
    · rw [moveLfo_moved h]
      have hm : (if s.modT = 0 then 0x0C else 0x03 : Byte) &&& 0x0F = if s.modT = 0 then 0x0C else 0x03 := by
        split_ifs <;> rfl
      have hflags := hmark s.flags _ hm
      exact congrArg (fun f => ({ s.core with flags := f } : Sequencer.Track)) hflags.symm

/-- The end of a tick is one more command. -/
theorem tickEnd_core (hon : s.track.flags ≠ 0) : (tickEnd s).track.core =
    afterCommand s.track.core false (.parameter (tickEnd s).track.flags) := by
  rw [tickEnd,if_neg hon]
  exact lfo_core _

theorem restartTrack_core (hcore : q.track t = s.track.core) :
    (restartTrack q t).track = Function.update q.track t (restarted s).track.core := by
  have hflags : q.Starting t ↔ s.track.flags &&& 0x40 ≠ 0 := by
    unfold State.Starting
    rw [hcore]
    exact Iff.rfl
  unfold restartTrack restarted
  by_cases hstart : s.track.flags &&& 0x40 ≠ 0
  · rw [if_pos hstart,if_pos (hflags.mpr hstart)]
    rfl
  · rw [if_neg hstart,if_neg fun h => hstart (hflags.mp h),← hcore,Function.update_eq_self]

/-- A tick of a track, and of the sequencer with what was heard. -/
theorem tickScript_plays (hq : Sequencer.Sound q) (hcore : q.track t = s.track.core)
    (h : tickScript template mem p t fuel s q = some (xs,s')) :
    ∃ q', tickTrack p q t xs = some q' ∧ Sequencer.Sound q' ∧
      q'.track = Function.update q.track t s'.track.core ∧
      ∃ got, tick template mem got fuel s = some s' := by
  have hexists : q.Exists t ↔ s.track.flags &&& 0x80 ≠ 0 := by
    unfold State.Exists
    rw [hcore]
    exact Iff.rfl
  unfold tickScript at h
  unfold tickTrack tick
  by_cases hoff : s.track.flags &&& 0x80 = 0
  · rw [if_pos hoff] at h
    cases h
    rw [if_neg fun h => hexists.mp h hoff]
    refine ⟨q,rfl,hq,?_,fun _ => false,if_pos hoff⟩
    rw [← hcore,Function.update_eq_self]
  · rw [if_neg hoff] at h
    have ht : q.Exists t := hexists.mpr hoff
    obtain ⟨lists,hwf⟩ := hq
    obtain ⟨w,hw,htr,lists',hwf',-⟩ := walk_wellFormed gateVisit_tidy hwf ht
    obtain ⟨hr,hst,hre⟩ := restartTrack_sound hwf' t
    rw [hw,Option.bind_some] at h
    obtain ⟨⟨ys,r⟩,hys,hxs⟩ := Option.map_eq_some_iff.mp h
    cases hxs
    have hcorew : w.track t = s.track.core := by rw [htr,hcore]
    have hcore' : (restartTrack w t).track t = (restarted s).track.core := by
      rw [restartTrack_core hcorew,Function.update_self]
    have hex : w.Exists t := by
      unfold State.Exists
      rw [htr]
      exact ht
    have hplay : Playing (restartTrack w t) t := ⟨hre hex,hst⟩
    have hon : ((restartTrack w t).track t).flags ≠ 0 := fun hzero => hplay.1 (by simp [hzero])
    obtain ⟨q',hq',hsound,htrack,hcase,got,hloop⟩ := script_plays ⟨_,hr⟩ hplay hcore' hys
    have hother : q'.track = Function.update q.track t r.track.core := by
      rw [htrack,restartTrack_core hcorew,Function.update_idem,htr]
    have htick : (if s.track.flags &&& 0x80 = 0 then some s else
        (commandLoop template mem got fuel (restarted s)).map tickEnd) = some (tickEnd r) := by
      rw [if_neg hoff,hloop]
      rfl
    have hcorer : q'.track t = r.track.core := by rw [hother,Function.update_self]
    rw [if_pos ht,hw,Option.bind_some,commands_append hon,hq',Option.bind_some,hcorer]
    by_cases hend : r.track.flags = 0
    · have hsame : tickEnd r = r := if_pos hend
      rw [hsame] at htick ⊢
      exact ⟨q',if_pos hend,hsound,hother,got,htick⟩
    · obtain ⟨lists'',hwf''⟩ := hsound
      have hplay' : Playing q' t := hcase.resolve_left hend
      obtain ⟨q'',hq'',hsound'',-⟩ :=
        command_sound (p := p) hwf'' hplay' (.parameter (tickEnd r).track.flags)
      have htrack'' := command_track hwf'' hplay'.1 _ hq''
      refine ⟨q'',?_,hsound'',?_,got,htick⟩
      · rw [if_neg (show ¬r.track.core.flags = 0 from hend),commands,hq'',Option.bind_some]
        exact ite_self _
      · rw [htrack'',hcorer,hother,Function.update_idem,tickEnd_core hend]
        rfl

end Ticks

section Players

open Sequencer

variable {template : Word} {mem : Word → Byte} {fuel p : ℕ} {q q' : Sequencer.State} {w w' : Tracks}

/-- The sequencer has the tracks `ts` as they are. -/
def Follows (q : Sequencer.State) (ts : List ℕ) (w : Tracks) : Prop :=
  ∀ t ∈ ts, q.track t = (w.track t).core

theorem Tracks.store_self (w : Tracks) (t : ℕ) (s : State) : (w.store t s).track t = s.track :=
  Function.update_self ..

theorem Tracks.store_other (w : Tracks) (s : State) {t u : ℕ} (h : u ≠ t) :
    (w.store t s).track u = w.track u := Function.update_of_ne h ..

theorem tickTracks_congr {got got' : ℕ → ℕ → Bool} {ts : List ℕ} (h : ∀ t ∈ ts, got t = got' t)
    (w : Tracks) : tickTracks template mem fuel got ts w = tickTracks template mem fuel got' ts w := by
  induction ts generalizing w with
  | nil => rfl
  | cons t ts ih =>
    rw [tickTracks,tickTracks,h t List.mem_cons_self]
    congr 1
    funext s
    exact ih (fun u hu => h u (List.mem_cons_of_mem t hu)) _

theorem gateVisit_player (q : Sequencer.State) (c : ChanId) : (gateVisit q c).1.player = q.player := by
  unfold gateVisit
  dsimp only
  split_ifs <;> rfl

theorem walk_player {visit : Sequencer.State → ChanId → Sequencer.State × Bool}
    (hvisit : ∀ q c, (visit q c).1.player = q.player) {k : ℕ} {start : Option ChanId}
    (h : OwnedLists.walk visit np k q start = some q') : q'.player = q.player :=
  OwnedLists.walk_relates (R := fun (q q' : Sequencer.State) => q'.player = q.player) (fun _ => rfl)
    (fun _ _ _ h h' => h'.trans h) hvisit h

theorem plyFine_player {t : ℕ} (h : Sequencer.plyFine q t = some q') : q'.player = q.player := by
  have hvisit (q : Sequencer.State) (c : ChanId) : (fineVisit q c).1.player = q.player := by
    unfold fineVisit
    dsimp only
    split_ifs <;> rfl
  obtain ⟨w,hw,rfl⟩ := Option.map_eq_some_iff.mp h
  have hplayer : w.player = q.player := walk_player hvisit hw
  exact hplayer

theorem plyEndtie_player {t : ℕ} {key : Option Byte} (h : Sequencer.plyEndtie q t key = some q') :
    q'.player = q.player := by
  have hvisit (k : Byte) (q : Sequencer.State) (c : ChanId) : (tieVisit k q c).1.player = q.player := by
    unfold tieVisit
    dsimp only
    split_ifs <;> rfl
  cases key with
  | none => exact walk_player (hvisit _) h
  | some k => exact walk_player (q := q.setTrack t _) (hvisit _) h

theorem command_player {t : ℕ} {x : Sequencer.Command} (h : command q p t x = some q') :
    q'.player = q.player := by
  cases x with
  | note x =>
    cases h
    rw [plyNote_eq]
    cases noteChannel q p t x <;> rfl
  | fine => exact plyFine_player h
  | patt =>
    simp only [command,Sequencer.plyPatt] at h
    split_ifs at h
    · exact plyFine_player h
    · cases h
      rfl
  | pend =>
    cases h
    simp only [Sequencer.plyPend]
    split_ifs <;> rfl
  | endtie key => exact plyEndtie_player h
  | prio x | parameter marks =>
    cases h
    rfl

theorem commands_player {t : ℕ} {xs : List Sequencer.Command} (h : commands p t xs q = some q') :
    q'.player = q.player := by
  induction xs generalizing q with
  | nil =>
    cases h
    rfl
  | cons x xs ih =>
    obtain ⟨q₁,hq₁,hrest⟩ := Option.bind_eq_some_iff.mp h
    split_ifs at hrest
    · cases hrest
      exact command_player hq₁
    · exact (ih hrest).trans (command_player hq₁)

theorem tickTrack_player {t : ℕ} {xs : List Sequencer.Command} (h : tickTrack p q t xs = some q') :
    q'.player = q.player := by
  unfold tickTrack at h
  split_ifs at h
  · obtain ⟨q₁,hq₁,hrest⟩ := Option.bind_eq_some_iff.mp h
    have hrestart : (restartTrack q₁ t).player = q₁.player := by
      unfold restartTrack
      split_ifs <;> rfl
    exact (commands_player hrest).trans (hrestart.trans (walk_player gateVisit_player hq₁))
  · cases h
    rfl

/-- The tracks of a player, one after the other. -/
theorem tracksScript_plays {ts : List ℕ} {rest : List (ℕ × List Sequencer.Command)}
    (hnodup : ts.Nodup) (hq : Sequencer.Sound q) (hw : Follows q ts w)
    (h : tracksScript template mem p fuel ts w q = some (rest,w')) (bit mask : Word) :
    ∃ q' mask', Sequencer.tickTracks p rest q bit mask = some (q',mask') ∧ Sequencer.Sound q' ∧
      q'.player = q.player ∧ rest.map Prod.fst = ts ∧ Follows q' ts w' ∧
      (∀ t ∉ ts, q'.track t = q.track t ∧ w'.track t = w.track t) ∧
      ∃ got, tickTracks template mem fuel got ts w = some w' := by
  induction ts generalizing w q rest bit mask with
  | nil =>
    cases h
    exact ⟨q,mask,rfl,hq,rfl,rfl,hw,fun t _ => ⟨rfl,rfl⟩,fun _ _ => false,rfl⟩
  | cons t ts ih =>
    obtain ⟨⟨xs,s⟩,hxs,h⟩ := Option.bind_eq_some_iff.mp h
    obtain ⟨q₁,hq₁,h⟩ := Option.bind_eq_some_iff.mp h
    obtain ⟨⟨rest,w'⟩,hrest,hr⟩ := Option.map_eq_some_iff.mp h
    cases hr
    obtain ⟨ht,hnodup⟩ := List.nodup_cons.mp hnodup
    obtain ⟨q₂,hq₂,hsound,htrack,got,hgot⟩ := tickScript_plays hq (hw t List.mem_cons_self) hxs
    obtain rfl : q₁ = q₂ := Option.some.inj (hq₁.symm.trans hq₂)
    have hw₁ : Follows q₁ ts (w.store t s) := by
      intro u hu
      have hut : u ≠ t := fun heq => ht (heq ▸ hu)
      rw [htrack,Function.update_of_ne hut,hw u (List.mem_cons_of_mem t hu)]
      exact congrArg Track.core (w.store_other s hut).symm
    let mask₁ := if q.Exists t then mask ||| bit else mask
    obtain ⟨q',mask',htracks,hsound',hplayer,hfst,hw',hother,gots,hgots⟩ :=
      ih hnodup hsound hw₁ hrest (bit <<< 1) mask₁
    obtain ⟨hqt,hwt⟩ := hother t ht
    refine ⟨q',mask',?_,hsound',hplayer.trans (tickTrack_player hq₁),by simp [hfst],fun u hu => ?_,
      fun u hu => ?_,Function.update gots t got,?_⟩
    · rw [Sequencer.tickTracks,hq₁]
      exact htracks
    · by_cases hut : u = t
      · subst hut
        rw [hqt,hwt,htrack,Function.update_self]
        exact congrArg Track.core (w.store_self u s).symm
      · exact hw' u ((List.mem_cons.mp hu).resolve_left hut)
    · obtain ⟨hut,huts⟩ := not_or.mp fun h => hu (List.mem_cons.mpr h)
      obtain ⟨hqu,hwu⟩ := hother u huts
      rw [hqu,hwu,htrack,Function.update_of_ne hut]
      exact ⟨rfl,w.store_other s hut⟩
    · rw [tickTracks,Function.update_self,hgot,← hgots]
      exact tickTracks_congr (fun u hu => Function.update_of_ne (ne_of_mem_of_not_mem hu ht) _ _) _

theorem scriptOf_rest {rest : List (ℕ × List Sequencer.Command)} (h : (rest.map Prod.fst).Nodup) :
    (rest.map Prod.fst).map (fun t => (t,scriptOf rest t)) = rest := by
  induction rest with
  | nil => rfl
  | cons x rest ih =>
    obtain ⟨t,xs⟩ := x
    obtain ⟨ht,hnodup⟩ := List.nodup_cons.mp h
    have hrest : (rest.map Prod.fst).map (fun u => (u,scriptOf ((t,xs)::rest) u)) = rest := by
      rw [← ih hnodup,ih hnodup]
      refine (List.map_congr_left fun u hu => ?_).trans (ih hnodup)
      simp [scriptOf,ne_of_mem_of_not_mem hu ht]
    simp only [List.map_cons,hrest]
    simp [scriptOf]

/-- A tick of the player. -/
theorem tracksScript_tick {rest : List (ℕ × List Sequencer.Command)} (hnodup : (q.player p).tracks.Nodup)
    (hq : Sequencer.Sound q) (hw : Follows q (q.player p).tracks w)
    (h : tracksScript template mem p fuel (q.player p).tracks w q = some (rest,w')) :
    ∃ q', Sequencer.tick q p (scriptOf rest) = some q' ∧ Sequencer.Sound q' ∧
      (q'.player p).tracks = (q.player p).tracks ∧ Follows q' (q.player p).tracks w' ∧
      ∃ got, tickTracks template mem fuel got (q.player p).tracks w = some w' := by
  obtain ⟨q',mask,hq',hsound,hplayer,hfst,hw',-,hgot⟩ := tracksScript_plays hnodup hq hw h 1 0
  have hscript : (q.player p).tracks.map (fun t => (t,scriptOf rest t)) = rest := by
    rw [← hfst]
    exact scriptOf_rest (hfst ▸ hnodup)
  refine ⟨q'.setPlayer p { q'.player p with status := if mask = 0 then 0x80000000 else mask },?_,?_,?_,
    hw',hgot⟩
  · rw [Sequencer.tick]
    simp only [hscript,hq']
    rfl
  · exact hsound.same rfl rfl
  · show (Function.update q'.player p _ p).tracks = _
    rw [Function.update_self,hplayer]

/-- The songs of a player refine the sequencer: for any number of ticks, the tracks that are executed
at their bytes and the tracks of the sequencer, which is given the commands that the bytes spell,
have the same fields, and a note gets a channel on one side when it gets one on the other. -/
theorem songs_refine {n : ℕ} (hnodup : (q.player p).tracks.Nodup) (hq : Sequencer.Sound q)
    (hw : Follows q (q.player p).tracks w)
    (h : ticksScript template mem p fuel n w q = some (w',q')) :
    Sequencer.Sound q' ∧ Follows q' (q.player p).tracks w' ∧
      ∃ scripts : List (ℕ → List Sequencer.Command), scripts.length = n ∧
        Sequencer.runEvents q (scripts.map (.tick p)) = some q' ∧
      ∃ gots : List (ℕ → ℕ → Bool), gots.length = n ∧
        gots.foldlM (fun w got => tickTracks template mem fuel got (q.player p).tracks w) w = some w' := by
  induction n generalizing w q with
  | zero =>
    cases h
    exact ⟨hq,hw,[],rfl,rfl,[],rfl,rfl⟩
  | succ n ih =>
    obtain ⟨⟨rest,w₁⟩,hrest,h⟩ := Option.bind_eq_some_iff.mp h
    obtain ⟨q₁,hq₁,hsound,htracks,hw₁,got,hgot⟩ := tracksScript_tick hnodup hq hw hrest
    dsimp only at h
    rw [hq₁,Option.bind_some] at h
    rw [← htracks] at hnodup hw₁
    obtain ⟨hsound',hw',scripts,hlen,hrun,gots,hlen',hgots⟩ := ih hnodup hsound hw₁ h
    rw [htracks] at hw' hgots
    refine ⟨hsound',hw',scriptOf rest::scripts,by simp [hlen],?_,got::gots,by simp [hlen'],?_⟩
    · simp [Sequencer.runEvents,Sequencer.step,hq₁,hrun]
    · simp [hgot,hgots]

/-- A note, a tick, and the end. -/
def noteSong : List Byte := [0xBD,0x00,0xBE,0x7F,0xE7,0x3C,0x40,0x81,0xB1]

def onePlayer : Sequencer.State where
  chan _ := ⟨0,0,0,0⟩
  links := ⟨fun _ => none,fun _ => none,fun _ => none,fun _ => none⟩
  track t := if t = 0x3000000 then (Track.opened 0).core else ⟨0,0,0,0,0,0,0⟩
  player _ := ⟨[0x3000000],0,true,0,0,0,0,0⟩
  maxChans := 5

theorem onePlayer_sound : Sequencer.Sound onePlayer := by
  refine ⟨fun _ => [],⟨⟨?_,?_,?_,fun _ _ => rfl⟩,fun _ _ => rfl⟩⟩
  · intro t c
    simp [onePlayer]
  · intro t
    exact List.nodup_nil
  · intro t _
    rfl

theorem songs_refine_note :
    let w : Tracks := ⟨fun _ => .opened 0x8000000,⟨fun _ => 0,⟨0,0,0,0,0⟩,0⟩,[]⟩
    ∃ w' q', ticksScript 0x100 (Control.songAt noteSong) 0 9 3 w onePlayer = some (w',q') ∧
      Sequencer.Sound q' ∧ Follows q' [0x3000000] w' := by
  intro w
  have hsome : (ticksScript 0x100 (Control.songAt noteSong) 0 9 3 w onePlayer).isSome = true := by
    decide +kernel
  obtain ⟨⟨w',q'⟩,h⟩ := Option.isSome_iff_exists.mp hsome
  have hw : Follows onePlayer [0x3000000] w := by
    intro t ht
    obtain rfl := List.mem_singleton.mp ht
    rfl
  obtain ⟨hsound,hfollows,-⟩ := songs_refine (by decide) onePlayer_sound hw h
  exact ⟨w',q',h,hsound,hfollows⟩

end Players

end Song
end M4a
end AgbTools
