import AgbTools.M4aSong
import Mathlib.Tactic.IntervalCases

/-! Songs as texts. A command may be written without its byte when that is still the running status;
whichever way a list of commands is written, the track plays the same. -/
namespace AgbTools
namespace M4a
namespace Song

section Text

/-- A command byte with its operands. -/
structure Entry where
  byte : Byte
  args : List Byte
deriving DecidableEq, Repr

/-- The operands of the entries of the jump table. The commands that jump are left out. -/
def Entry.operands (args : List Byte) : ℕ → Bool
  | 0 => args.length = 0
  | 8 => args.length = 3 && args.getD 0 0 < 6
  | 9 | 10 | 11 | 12 | 13 | 14 | 15 | 16 | 17 | 18 | 19 | 20 | 23 => args.length = 1
  | 27 => args.length = 2
  | 28 =>
    match (args.getD 0 0).toNat with
    | 1 | 13 => args.length = 5
    | 2 | 4 | 5 | 6 | 7 | 8 | 9 | 10 | 11 => args.length = 2
    | _ => false
  | 29 => args.length ≤ 1 && args.all (· < 0x80)
  | _ => false

/-- A command that does not jump, with the operands that it reads. -/
def Entry.ok (e : Entry) : Bool :=
  if 0xCF ≤ e.byte then e.args.length ≤ 3 && e.args.all (· < 0x80)
  else if 0xB0 < e.byte then Entry.operands e.args (e.byte.toNat-0xB1)
  else 0x80 ≤ e.byte && e.args.length = 0

/-- A command that would take more operands. -/
def Entry.open (e : Entry) : Bool :=
  if 0xCF ≤ e.byte then e.args.length < 3 else e.byte = 0xCE && e.args.length = 0

variable (mem : Word → Byte)

/-- The operands stand at an address that the BIOS check lets through, and what follows a command
that would take more of them is a command byte. -/
structure Entry.Written (e : Entry) (c : Word) : Prop where
  args : ∀ i x, e.args[i]? = some x → mem (c+BitVec.ofNat 32 i) = x
  readable : ∀ i < e.args.length, (c+BitVec.ofNat 32 i) >>> 25 ≠ 0
  closed : e.open = true → 0x80 ≤ mem (c+BitVec.ofNat 32 e.args.length)

/-- The running status behind a command. -/
def Entry.status (e : Entry) (st : Byte) : Byte := if e.byte < 0xBD then st else e.byte

/-- The text from an address on, for a running status. -/
inductive Spells : Byte → Word → List Entry → Prop
  | nil (st : Byte) (c : Word) : Spells st c []
  | full {st : Byte} {c : Word} {e : Entry} {es : List Entry} (hbyte : mem c = e.byte)
    (hargs : e.Written mem (c+1))
    (hrest : Spells (e.status st) (c+1+BitVec.ofNat 32 e.args.length) es) : Spells st c (e::es)
  | running {c : Word} {e : Entry} {es : List Entry} (hdata : mem c < 0x80)
    (hargs : e.Written mem c)
    (hrest : Spells e.byte (c+BitVec.ofNat 32 e.args.length) es) : Spells e.byte c (e::es)

end Text

section Blind

/-- The track at another place of the text. -/
def Track.at (c : Word) (st : Byte) (s : Track) : Track := { s with cmdPtr := c, runningStatus := st }

def State.at (c : Word) (st : Byte) (s : State) : State := s.edit (Track.at c st)

/-- What does not depend on the place in the text, and keeps it. -/
def Blind (g : State → State) : Prop := ∀ c st s, g (s.at c st) = (g s).at c st

def BlindTrack (f : Track → Track) : Prop := ∀ c st s, f (s.at c st) = (f s).at c st

variable {template : Word} {mem : Word → Byte} {c : Word} {st : Byte} {e : Entry}

@[simp] theorem at_at (c d : Word) (st st' : Byte) (s : State) : (s.at c st).at d st' = s.at d st' := rfl

theorem BlindTrack.edit {f : Track → Track} (h : BlindTrack f) : Blind (State.edit f) := by
  intro c st s
  simp [State.at,State.edit,h c st]

theorem BlindTrack.comp {f g : Track → Track} (hf : BlindTrack f) (hg : BlindTrack g) :
    BlindTrack (f ∘ g) := by
  intro c st s
  simp [hf c st,hg c st]

/-- Whoever is blind and goes on behind its operands gets to where the operands end. -/
theorem BlindTrack.behind {f : Track → Track} (h : BlindTrack f) (n : Word) (s : Track) :
    f (s.skip n) = (f s).at (s.cmdPtr+n) s.runningStatus := h (s.cmdPtr+n) s.runningStatus s

theorem clearModM_blind : BlindTrack clearModM := fun _ _ _ => rfl

theorem BlindTrack.ite {p : Track → Prop} [DecidablePred p] {f g : Track → Track}
    (hp : ∀ c st s, p (s.at c st) ↔ p s) (hf : BlindTrack f) (hg : BlindTrack g) :
    BlindTrack fun s => if p s then f s else g s := by
  intro c st s
  by_cases h : p s <;> simp [hp c st s,h,hf c st s,hg c st s]

theorem id_blind : BlindTrack id := fun _ _ _ => rfl

theorem setVolume_blind : BlindTrack setVolume :=
  .ite (fun _ _ _ => Iff.rfl) (f := fun s => { s with volMR := s.levelRight, volML := s.levelLeft })
    (fun _ _ _ => rfl) id_blind

theorem setPitch_blind : BlindTrack setPitch :=
  .ite (fun _ _ _ => Iff.rfl)
    (f := fun s => { s with keyM := BitVec.ofInt 8 (s.pitch / 256), pitM := BitVec.ofInt 8 s.pitch })
    (fun _ _ _ => rfl) id_blind

theorem delayLfo_blind : BlindTrack delayLfo :=
  .ite (p := fun s => s.lfoDelay = 0) (fun _ _ _ => Iff.rfl) (f := fun s => { s with lfoDelayC := s.lfoDelay })
    (g := fun s => clearModM { s with lfoDelayC := s.lfoDelay }) (fun _ _ _ => rfl) fun _ _ _ => rfl

theorem trkVolPitSet_blind : BlindTrack trkVolPitSet := by
  have hclear : BlindTrack fun s => { s with flags := s.flags &&& 0xFA } := fun _ _ _ => rfl
  exact hclear.comp (setPitch_blind.comp setVolume_blind)

theorem noteStarted_blind : BlindTrack noteStarted := by
  have hclear : BlindTrack fun s => { s with flags := s.flags &&& 0xF0 } := fun _ _ _ => rfl
  exact hclear.comp (trkVolPitSet_blind.comp delayLfo_blind)

end Blind

section Commands

variable {template : Word} {mem : Word → Byte} {got : Bool} {e : Entry}

/-- From a place where its operands stand, the command does what `g` says and goes on behind them. -/
def Does (mem : Word → Byte) (e : Entry) (r : State → Option State) (g : State → State) : Prop :=
  Blind g ∧ ∀ s, e.Written mem s.track.cmdPtr →
    r s = some ((g s).at (s.track.cmdPtr+BitVec.ofNat 32 e.args.length) s.track.runningStatus)

theorem Entry.Written.checked {c : Word} (h : e.Written mem c) {i : ℕ} {x : Byte}
    (hx : e.args[i]? = some x) : Control.ldrbR3R2 template mem (c+BitVec.ofNat 32 i) = x :=
  (if_pos (h.readable i (List.getElem?_eq_some_iff.mp hx).1)).trans (h.args i x hx)

theorem Entry.Written.first {c : Word} {x : Byte} {xs : List Byte} (h : e.Written mem c)
    (hx : e.args = x::xs) : mem c = x := by
  rw [← BitVec.add_zero c]
  exact h.args 0 x (by simp [hx])

theorem Entry.Written.firstChecked {c : Word} {x : Byte} {xs : List Byte} (h : e.Written mem c)
    (hx : e.args = x::xs) : Control.ldrbR3R2 template mem c = x := by
  rw [← BitVec.add_zero c]
  exact h.checked (i := 0) (by simp [hx])

/-- Commands with one operand. -/
theorem does_operand {f : Byte → Track → Track} (hf : ∀ x, BlindTrack (f x)) (h : e.args.length = 1) :
    ∃ g, Does mem e (fun s => some (s.edit (withOperand template mem f))) g := by
  obtain ⟨x,hx⟩ := List.length_eq_one_iff.mp h
  refine ⟨State.edit (f x),(hf x).edit,fun s hs => ?_⟩
  simp only [State.edit,withOperand,hs.firstChecked hx,(hf x).behind,h]
  rfl

theorem does_unchecked {f : Byte → Track → Track} (hf : ∀ x, BlindTrack (f x))
    (h : e.args.length = 1) : ∃ g, Does mem e (fun s => some (s.edit (withUnchecked mem f))) g := by
  obtain ⟨x,hx⟩ := List.length_eq_one_iff.mp h
  refine ⟨State.edit (f x),(hf x).edit,fun s hs => ?_⟩
  simp only [State.edit,withUnchecked,hs.first hx,(hf x).behind,h]
  rfl

theorem does_fine (h : e.args.length = 0) : ∃ g, Does mem e (fun s => some (plyFine s)) g := by
  refine ⟨plyFine,fun _ _ _ => rfl,fun s _ => ?_⟩
  rw [h]
  simp [plyFine,State.at,State.edit,Track.steer,Control.plyFine,Track.at]

theorem does_wait (x : Byte) (h : e.args.length = 0) :
    ∃ g, Does mem e (fun s => some (s.edit fun r => { r with wait := x })) g := by
  refine ⟨State.edit fun r => { r with wait := x },fun _ _ _ => rfl,fun s _ => ?_⟩
  rw [h,BitVec.add_zero]
  rfl

theorem does_tempo (h : e.args.length = 1) :
    ∃ g, Does mem e (fun s => some (plyTempo template mem s)) g := by
  obtain ⟨x,hx⟩ := List.length_eq_one_iff.mp h
  refine ⟨fun s => { s with
    player := { s.player with tempo := Sequencer.plyTempo s.player.tempo x } },fun _ _ _ => rfl,fun s hs => ?_⟩
  simp only [plyTempo,hs.firstChecked hx,h]
  rfl

theorem does_voice (h : e.args.length = 1) :
    ∃ g, Does mem e (fun s => some (s.edit (plyVoice template mem s.player.tone))) g := by
  obtain ⟨x,hx⟩ := List.length_eq_one_iff.mp h
  refine ⟨fun s => s.edit fun r =>
    { r with tone := toneAt template mem (s.player.tone+12*x.zeroExtend 32) },fun _ _ _ => rfl,fun s hs => ?_⟩
  simp only [State.edit,plyVoice,withUnchecked,hs.first hx,h]
  rfl

theorem does_port (h : e.args.length = 2) :
    ∃ g, Does mem e (fun s => some (plyPort template mem s)) g := by
  obtain ⟨x,y,hxy⟩ := List.length_eq_two.mp h
  refine ⟨fun s => { s with out := .port x y::s.out },fun _ _ _ => rfl,fun s hs => ?_⟩
  have hy : Control.ldrbR3R2 template mem (s.track.cmdPtr+1) = y := hs.checked (by simp [hxy])
  simp only [plyPort,hs.first hxy,hy,h]
  rfl

theorem does_memacc (h : e.args.length = 3) (hop : e.args.getD 0 0 < 6) :
    ∃ g, Does mem e (fun s => some (plyMemacc template mem s)) g := by
  obtain ⟨op,addr,data,hargs⟩ := List.length_eq_three.mp h
  have hvalue (area : Byte → Byte) : ∃ x, memaccValue area addr data op.toNat = some x := by
    have hlt : op < 6 := by simpa [hargs] using hop
    generalize hn : op.toNat = n
    have hn6 : n < 6 := by
      rw [← hn]
      exact hlt
    interval_cases n <;> exact ⟨_,rfl⟩
  choose value hvalue using hvalue
  refine ⟨fun s => { s with player := { s.player with
    memAccArea := Function.update s.player.memAccArea addr (value s.player.memAccArea) } },
    fun _ _ _ => rfl,fun s hs => ?_⟩
  have haddr : mem (s.track.cmdPtr+1) = addr := hs.args 1 addr (by simp [hargs])
  have hdata : mem (s.track.cmdPtr+2) = data := hs.args 2 data (by simp [hargs])
  simp only [plyMemacc,hs.first hargs,haddr,hdata,h]
  simp only [State.edit,hvalue]
  rfl

theorem plyXcmd_entry {s : State} {n : Byte} {xs : List Byte} {f : State → State}
    (hs : e.Written mem s.track.cmdPtr) (hargs : e.args = n::xs) (hf : gXcmdTable mem n.toNat = some f) :
    plyXcmd mem s = some (f (s.edit (Track.skip 1))) := by
  rw [plyXcmd,hs.first hargs,hf]
  rfl

/-- The commands of `gXcmdTable` with one operand. -/
theorem does_xbyte {n x : Byte} {f : Byte → Track → Track} (hf : ∀ x, BlindTrack (f x))
    (hargs : e.args = [n,x]) (hx : gXcmdTable mem n.toNat = some (State.edit (withUnchecked mem f))) :
    ∃ g, Does mem e (plyXcmd mem) g := by
  refine ⟨State.edit (f x),(hf x).edit,fun s hs => ?_⟩
  have hoperand : mem (s.track.cmdPtr+1) = x := hs.args 1 x (by simp [hargs])
  rw [plyXcmd_entry hs hargs hx,hargs]
  simp only [State.edit,withUnchecked,Track.skip,hoperand]
  congr 2
  exact (hf x (s.track.cmdPtr+1+1) s.track.runningStatus s.track).trans (by rw [BitVec.add_assoc]; rfl)

/-- Those with a word. -/
theorem does_xword {n a b c d : Byte} {f : Word → Track → Track} (hf : ∀ x, BlindTrack (f x))
    (hargs : e.args = [n,a,b,c,d])
    (hx : gXcmdTable mem n.toNat = some (State.edit fun r => (f (wordAt mem r.cmdPtr) r).skip 4)) :
    ∃ g, Does mem e (plyXcmd mem) g := by
  refine ⟨State.edit (f (d++c++b++a)),(hf _).edit,fun s hs => ?_⟩
  have ha : mem (s.track.cmdPtr+1) = a := hs.args 1 a (by simp [hargs])
  have hb : mem (s.track.cmdPtr+1+1) = b := by
    rw [BitVec.add_assoc]
    exact hs.args 2 b (by simp [hargs])
  have hc : mem (s.track.cmdPtr+1+2) = c := by
    rw [BitVec.add_assoc]
    exact hs.args 3 c (by simp [hargs])
  have hd : mem (s.track.cmdPtr+1+3) = d := by
    rw [BitVec.add_assoc]
    exact hs.args 4 d (by simp [hargs])
  have hword : wordAt mem (s.track.cmdPtr+1) = d++c++b++a := by
    unfold wordAt
    rw [ha,hb,hc,hd]
  rw [plyXcmd_entry hs hargs hx,hargs]
  show some (s.edit fun _ => (f (wordAt mem (s.track.cmdPtr+1))
    (s.track.at (s.track.cmdPtr+1) s.track.runningStatus)).skip 4) = _
  rw [hword,hf (d++c++b++a) (s.track.cmdPtr+1) s.track.runningStatus s.track]
  show some (s.edit fun _ =>
    (f (d++c++b++a) s.track).at (s.track.cmdPtr+1+4) s.track.runningStatus) = _
  rw [BitVec.add_assoc]
  rfl

theorem does_xcmd (h : Entry.operands e.args 28 = true) : ∃ g, Does mem e (plyXcmd mem) g := by
  have htwo (h : e.args.length = 2) : ∃ n x, e.args = [n,x] := List.length_eq_two.mp h
  have hfive (h : e.args.length = 5) : ∃ n a b c d, e.args = [n,a,b,c,d] := by
    match e.args,h with
    | [n,a,b,c,d],_ => exact ⟨n,a,b,c,d,rfl⟩
  have hbyte {k : ℕ} {f : Byte → Track → Track} (hf : ∀ x, BlindTrack (f x))
      (hk : (e.args.getD 0 0).toNat = k) (h : e.args.length = 2)
      (hx : gXcmdTable mem k = some (State.edit (withUnchecked mem f))) :
      ∃ g, Does mem e (plyXcmd mem) g := by
    obtain ⟨n,x,hargs⟩ := htwo h
    have hn : n.toNat = k := by simpa [hargs] using hk
    exact does_xbyte hf hargs (by rw [hn]; exact hx)
  have hstore {k : ℕ} {f : Byte → Tone → Tone} (hk : (e.args.getD 0 0).toNat = k) (h : e.args.length = 2)
      (hx : gXcmdTable mem k = some (State.edit (storeByte mem f))) : ∃ g, Does mem e (plyXcmd mem) g :=
    hbyte (fun _ _ _ _ => rfl) hk h hx
  have hword {k : ℕ} {f : Word → Track → Track} (hf : ∀ x, BlindTrack (f x))
      (hk : (e.args.getD 0 0).toNat = k) (h : e.args.length = 5)
      (hx : gXcmdTable mem k = some (State.edit fun r => (f (wordAt mem r.cmdPtr) r).skip 4)) :
      ∃ g, Does mem e (plyXcmd mem) g := by
    obtain ⟨n,a,b,c,d,hargs⟩ := hfive h
    have hn : n.toNat = k := by simpa [hargs] using hk
    exact does_xword hf hargs (by rw [hn]; exact hx)
  simp only [Entry.operands] at h
  split at h
  case h_1 hn =>
    exact hword (f := fun w s => { s with tone := { s.tone with wav := w } }) (fun _ _ _ _ => rfl) hn
      (by simpa using h) rfl
  case h_2 hn =>
    exact hword (f := fun w s => { s with unk3C := w }) (fun _ _ _ _ => rfl) hn (by simpa using h) rfl
  case h_12 => exact absurd h (by simp)
  case h_8 hn | h_9 hn => exact hbyte (fun _ _ _ _ => rfl) hn (by simpa using h) rfl
  all_goals
    next hn => exact hstore hn (by simpa using h) rfl

theorem plyEndtie_open {s : State} (h : 0x80 ≤ mem s.track.cmdPtr) :
    plyEndtie mem s = { s with out := .endtie s.track.key::s.out } := by
  unfold plyEndtie
  rw [if_neg (BitVec.not_lt.mpr h)]

theorem does_endtie (hbyte : e.byte = 0xCE) (h : Entry.operands e.args 29 = true) :
    ∃ g, Does mem e (fun s => some (plyEndtie mem s)) g := by
  obtain ⟨hlen,hall⟩ : e.args.length ≤ 1 ∧ ∀ x ∈ e.args, x < 0x80 := by simpa [Entry.operands] using h
  match hargs : e.args with
  | [] =>
    refine ⟨fun s => { s with out := .endtie s.track.key::s.out },fun _ _ _ => rfl,fun s hs => ?_⟩
    have hopen : e.open = true := by simp [Entry.open,hbyte,hargs]
    have hnext := hs.closed hopen
    simp only [hargs,List.length_nil,BitVec.add_zero] at hnext ⊢
    rw [plyEndtie_open hnext]
    simp [State.at,State.edit,Track.at]
  | [x] =>
    refine ⟨fun s => { s.edit (fun r => { r with key := x }) with out := .endtie x::s.out },
      fun _ _ _ => rfl,fun s hs => ?_⟩
    have hx : x < 0x80 := hall x (by simp [hargs])
    have hmem := hs.first hargs
    simp only [plyEndtie,State.edit,hmem,if_pos hx,hargs]
    rfl
  | _::_::_ => simp [hargs] at hlen

/-- The operands of a note, given. -/
def givenArgs (clock : Byte) : List Byte → Track → Track
  | [], s => { s with gateTime := clock }
  | [k], s => { s with gateTime := clock, key := k }
  | [k,v], s => { s with gateTime := clock, key := k, velocity := v }
  | k::v::g::_, s => { s with gateTime := clock+g, key := k, velocity := v }

theorem givenArgs_blind (clock : Byte) (args : List Byte) : BlindTrack (givenArgs clock args) := by
  intro c st s
  unfold givenArgs
  split <;> rfl

theorem noteOperands_written {s : Track} {clock : Byte} (hs : e.Written mem s.cmdPtr)
    (hnote : 0xCF ≤ e.byte) (hlen : e.args.length ≤ 3) (hall : ∀ x ∈ e.args, x < 0x80) :
    noteOperands mem clock s =
      (givenArgs clock e.args s).at (s.cmdPtr+BitVec.ofNat 32 e.args.length) s.runningStatus := by
  have hsmall (i : ℕ) (x : Byte) (hx : e.args[i]? = some x) : ¬0x80 ≤ mem (s.cmdPtr+BitVec.ofNat 32 i) := by
    rw [hs.args i x hx]
    exact BitVec.not_le.mpr (hall x (List.mem_of_getElem? hx))
  have hopen (h : e.args.length < 3) : 0x80 ≤ mem (s.cmdPtr+BitVec.ofNat 32 e.args.length) :=
    hs.closed (by
      simp only [Entry.open,if_pos hnote]
      simpa using h)
  unfold noteOperands
  match hargs : e.args with
  | [] =>
    have hend : 0x80 ≤ mem s.cmdPtr := by simpa [hargs] using hopen
    simp only [if_pos hend]
    simp [givenArgs,Track.at]
  | [k] =>
    have hend : 0x80 ≤ mem (s.cmdPtr+1) := by simpa [hargs] using hopen
    have hk : mem s.cmdPtr = k := hs.first hargs
    have hklt : ¬0x80 ≤ mem s.cmdPtr := by simpa using hsmall 0 k (by simp [hargs])
    simp only [if_neg hklt,if_pos hend]
    simp only [hk]
    rfl
  | [k,v] =>
    have hend : 0x80 ≤ mem (s.cmdPtr+2) := by simpa [hargs] using hopen
    have hk : mem s.cmdPtr = k := hs.first hargs
    have hv : mem (s.cmdPtr+1) = v := hs.args 1 v (by simp [hargs])
    have hklt : ¬0x80 ≤ mem s.cmdPtr := by simpa using hsmall 0 k (by simp [hargs])
    have hvlt : ¬0x80 ≤ mem (s.cmdPtr+1) := hsmall 1 v (by simp [hargs])
    simp only [if_neg hklt,if_neg hvlt,if_pos hend]
    simp only [hk,hv]
    rfl
  | [k,v,g] =>
    have hk : mem s.cmdPtr = k := hs.first hargs
    have hv : mem (s.cmdPtr+1) = v := hs.args 1 v (by simp [hargs])
    have hg : mem (s.cmdPtr+2) = g := hs.args 2 g (by simp [hargs])
    have hklt : ¬0x80 ≤ mem s.cmdPtr := by simpa using hsmall 0 k (by simp [hargs])
    have hvlt : ¬0x80 ≤ mem (s.cmdPtr+1) := hsmall 1 v (by simp [hargs])
    have hglt : ¬0x80 ≤ mem (s.cmdPtr+2) := hsmall 2 g (by simp [hargs])
    simp only [if_neg hklt,if_neg hvlt,if_neg hglt]
    simp only [hk,hv,hg]
    rfl
  | _::_::_::_::_ =>
    rw [hargs] at hlen
    simp only [List.length_cons] at hlen
    omega

theorem does_note (clock : Byte) (hnote : 0xCF ≤ e.byte) (hlen : e.args.length ≤ 3)
    (hall : ∀ x ∈ e.args, x < 0x80) : ∃ g, Does mem e (fun s => some (plyNote mem got clock s)) g := by
  have hargs := givenArgs_blind clock e.args
  cases got with
  | false =>
    refine ⟨State.edit (givenArgs clock e.args),hargs.edit,fun s hs => ?_⟩
    simp only [plyNote,State.edit,noteOperands_written hs hnote hlen hall]
    rfl
  | true =>
    refine ⟨fun s =>
      let r := s.edit (givenArgs clock e.args)
      { r.edit noteStarted with
        out := .note r.track.gateTime r.track.key r.track.velocity r.track.tone::r.out },?_,fun s hs => ?_⟩
    · intro c st s
      simp only [State.at,State.edit,hargs c st,noteStarted_blind c st]
      rfl
    · simp only [plyNote,State.edit,noteOperands_written hs hnote hlen hall]
      simp only [if_true,noteStarted_blind _ _ _]
      rfl

/-- Commands that also reset the LFO when their operand is 0. -/
theorem clears_blind {f : Byte → Track → Track} (hf : ∀ x, BlindTrack (f x)) (x : Byte) :
    BlindTrack fun s => if x = 0 then clearModM (f x s) else f x s :=
  .ite (fun _ _ _ => Iff.rfl) (clearModM_blind.comp (hf x)) (hf x)

theorem jumpTable_does {n : ℕ} (hbyte : e.byte.toNat = 0xB1+n) (h : Entry.operands e.args n = true) :
    ∃ g, Does mem e (jumpTable template mem n) g := by
  have hlen (k : ℕ) (h : decide (e.args.length = k) = true) : e.args.length = k := by simpa using h
  unfold Entry.operands at h
  split at h
  case h_1 => exact does_fine (hlen 0 h)
  case h_2 =>
    have hboth : e.args.length = 3 ∧ e.args.getD 0 0 < 6 := by simpa using h
    exact does_memacc hboth.1 hboth.2
  case h_4 => exact does_tempo (hlen 1 h)
  case h_6 => exact does_voice (hlen 1 h)
  case h_11 =>
    exact does_unchecked (clears_blind (f := fun x s => { s with lfoSpeed := x }) fun _ _ _ _ => rfl) (hlen 1 h)
  case h_13 =>
    exact does_unchecked (clears_blind (f := fun x s => { s with mod := x }) fun _ _ _ _ => rfl) (hlen 1 h)
  case h_14 =>
    exact does_operand (fun x => .ite (fun _ _ _ => Iff.rfl) id_blind fun _ _ _ => rfl) (hlen 1 h)
  case h_16 => exact does_port (hlen 2 h)
  case h_17 => exact does_xcmd h
  case h_18 => exact does_endtie (BitVec.eq_of_toNat_eq hbyte) h
  case h_19 => exact absurd h (by simp)
  all_goals
    exact does_operand (fun _ _ _ _ => rfl) (hlen 1 h)

/-- Every command that does not jump does what its operands say, wherever they stand. -/
theorem perform_does (template : Word) (mem : Word → Byte) (got : Bool) (h : e.ok = true) :
    ∃ g, Does mem e (perform template mem got e.byte) g := by
  unfold Entry.ok at h
  unfold perform
  split_ifs at h ⊢ with hnote htable hwait
  · obtain ⟨hlen,hall⟩ : e.args.length ≤ 3 ∧ ∀ x ∈ e.args, x < 0x80 := by simpa using h
    exact does_note _ hnote hlen hall
  · exact jumpTable_does (by
      have := BitVec.lt_def.mp htable
      simp at this
      omega) h
  · have hlen : e.args.length = 0 := of_decide_eq_true (Bool.and_eq_true_iff.mp h).2
    exact does_wait _ hlen
  · exact absurd (of_decide_eq_true (Bool.and_eq_true_iff.mp h).1) hwait

end Commands

section Playing

variable (template : Word) (mem : Word → Byte)

/-- Commands that do not jump, with an end. -/
def Straight (es : List Entry) : Prop := (∀ e ∈ es, e.ok = true) ∧ ∃ pre, es = pre++[⟨0xB1,[]⟩]

variable {template mem} {got : Bool} {e : Entry} {es : List Entry} {n : ℕ} {a b : State}

theorem Entry.ok_byte (h : e.ok = true) : 0x80 ≤ e.byte := by
  unfold Entry.ok at h
  split_ifs at h with hnote htable
  · exact BitVec.le_trans (by decide) hnote
  · exact BitVec.le_trans (by decide) (BitVec.le_of_lt htable)
  · exact of_decide_eq_true (Bool.and_eq_true_iff.mp h).1

theorem fetch_full {c : Word} {st : Byte} {s : State} (hbyte : mem c = e.byte) (h : e.ok = true) :
    Control.fetch mem (s.at c st).track.toTrack =
      (e.byte,(s.at (c+1) (e.status st)).track.toTrack) := by
  have hnot : ¬e.byte < 0x80 := BitVec.not_lt.mpr (Entry.ok_byte h)
  unfold Control.fetch Entry.status
  simp only [State.at,State.edit,Track.at,hbyte,if_neg hnot]
  split_ifs <;> rfl

theorem fetch_running {c : Word} {st : Byte} {s : State} (hdata : mem c < 0x80) :
    Control.fetch mem (s.at c st).track.toTrack = (st,(s.at c st).track.toTrack) := if_pos hdata

/-- However the next command is written, its operands get to it. -/
theorem execute_written (template : Word) (got : Bool) {s : State} {c : Word} {st : Byte} (h : e.ok = true) (hon : s.track.flags ≠ 0)
    (htext : Spells mem st c (e::es)) :
    ∃ d st', e.Written mem d ∧ execute template mem (s.at c st) got =
        perform template mem got e.byte (s.at d st') ∧
      Spells mem st' (d+BitVec.ofNat 32 e.args.length) es := by
  have hon' : ¬(s.at c st).track.flags = 0 := hon
  cases htext with
  | full hbyte hargs hrest =>
    refine ⟨_,_,hargs,?_,hrest⟩
    rw [execute,if_neg hon',fetch_full hbyte h]
    rfl
  | running hdata hargs hrest =>
    refine ⟨_,_,hargs,?_,hrest⟩
    rw [execute,if_neg hon',fetch_running hdata]
    rfl

/-- Two tracks that differ in their place only, with at most `n` commands before both. Behind the
last one they are off. -/
def Twins (mem : Word → Byte) (n : ℕ) (a b : State) : Prop :=
  ∃ s c st c' st' es, a = State.at c st s ∧ b = State.at c' st' s ∧ Spells mem st c es ∧
    Spells mem st' c' es ∧ (Straight es ∨ es = [] ∧ s.track.flags = 0) ∧ es.length ≤ n ∧
    s.track.flags &&& 0x40 = 0

theorem Twins.flags (h : Twins mem n a b) : a.track.flags = b.track.flags := by
  obtain ⟨s,c,st,c',st',es,rfl,rfl,-⟩ := h
  rfl

theorem Twins.wait (h : Twins mem n a b) : a.track.wait = b.track.wait := by
  obtain ⟨s,c,st,c',st',es,rfl,rfl,-⟩ := h
  rfl

theorem Twins.mono {m : ℕ} (h : Twins mem n a b) (hm : n ≤ m) : Twins mem m a b := by
  obtain ⟨s,c,st,c',st',es,ha,hb,htext,htext',hleft,hlen,hrun⟩ := h
  exact ⟨s,c,st,c',st',es,ha,hb,htext,htext',hleft,by omega,hrun⟩

theorem Straight.tail (h : Straight (e::es)) : es = [] ∧ e = ⟨0xB1,[]⟩ ∨ Straight es := by
  obtain ⟨hok,pre,hpre⟩ := h
  cases pre with
  | nil =>
    left
    simpa [and_comm] using hpre
  | cons p pre =>
    right
    simp only [List.cons_append,List.cons.injEq] at hpre
    exact ⟨fun e he => hok e (List.mem_cons_of_mem _ he),pre,hpre.2⟩

theorem perform_fine (template : Word) (mem : Word → Byte) (got : Bool) (s : State) :
    perform template mem got 0xB1 s = some (plyFine s) := by
  simp [perform,jumpTable]

/-- One command. -/
theorem Twins.execute (template : Word) (h : Twins mem n a b) (hon : a.track.flags ≠ 0) (got : Bool) :
    ∃ m a' b', n = m+1 ∧ execute template mem a got = some a' ∧
      execute template mem b got = some b' ∧ Twins mem m a' b' := by
  obtain ⟨s,c,st,c',st',es,rfl,rfl,htext,htext',hleft,hlen,hrun⟩ := h
  obtain ⟨hok,hend⟩ : Straight es := hleft.resolve_right fun h => hon h.2
  cases es with
  | nil =>
    obtain ⟨pre,hpre⟩ := hend
    exact absurd hpre (by simp)
  | cons e es =>
    obtain ⟨m,rfl⟩ : ∃ m, n = m+1 := ⟨n-1,by simp at hlen; omega⟩
    have he := hok e List.mem_cons_self
    have hon : s.track.flags ≠ 0 := hon
    obtain ⟨g,hblind,hg⟩ := perform_does template mem got he
    have hdoes (d : Word) (t : Byte) (hargs : e.Written mem d) :
        perform template mem got e.byte (s.at d t) =
          some ((g s).at (d+BitVec.ofNat 32 e.args.length) t) := by
      rw [hg (s.at d t) hargs,hblind]
      rfl
    obtain ⟨d,t,hargs,hexec,hrest⟩ := execute_written template got he hon htext
    obtain ⟨d',t',hargs',hexec',hrest'⟩ :=
      execute_written template got he hon htext'
    rw [hdoes _ _ hargs] at hexec
    rw [hdoes _ _ hargs'] at hexec'
    refine ⟨m,_,_,rfl,hexec,hexec',g s,_,_,_,_,es,rfl,rfl,hrest,hrest',?_,by simpa using hlen,
      (execute_edits hexec).running hrun⟩
    obtain ⟨rfl,rfl⟩ | hstraight := Straight.tail ⟨hok,hend⟩
    · have hfine := hdoes d t hargs
      rw [perform_fine] at hfine
      have hflags := congrArg (fun s : State => s.track.flags) (Option.some.inj hfine)
      exact .inr ⟨rfl,hflags.symm⟩
    · exact .inl hstraight

/-- The commands of a tick end. -/
theorem Twins.commandLoop (template : Word) (h : Twins mem n a b) (got : ℕ → Bool) {fuel : ℕ} (hfuel : n < fuel) :
    ∃ a' b', commandLoop template mem got fuel a = some a' ∧
      commandLoop template mem got fuel b = some b' ∧ Twins mem n a' b' := by
  induction fuel generalizing n a b with
  | zero => omega
  | succ fuel ih =>
    unfold Song.commandLoop
    rw [← h.flags,← h.wait]
    by_cases hstop : a.track.flags = 0 ∨ a.track.wait ≠ 0
    · rw [if_pos hstop,if_pos hstop]
      exact ⟨a,b,rfl,rfl,h⟩
    · rw [if_neg hstop,if_neg hstop]
      obtain ⟨m,a₁,b₁,rfl,ha₁,hb₁,h₁⟩ :=
        h.execute template (fun hoff => hstop (.inl hoff)) (got fuel)
      obtain ⟨a',b',ha',hb',h'⟩ := ih h₁ (by omega)
      rw [ha₁,hb₁]
      exact ⟨a',b',ha',hb',h'.mono (by omega)⟩

theorem moveLfo_blind : BlindTrack moveLfo := by
  intro c st s
  have hat : (s.at c st).lfoModM = s.lfoModM := rfl
  by_cases h : s.lfoModM = s.modM
  · rw [moveLfo_same h,moveLfo_same (hat.trans h)]
    rfl
  · rw [moveLfo_moved h,moveLfo_moved (s := s.at c st) h]
    rfl

theorem lfo_blind : BlindTrack lfo := by
  have hwait : BlindTrack fun s => { s with lfoDelayC := s.lfoDelayC-1 } := fun _ _ _ => rfl
  exact .ite (p := fun s => s.lfoSpeed = 0 ∨ s.mod = 0) (fun _ _ _ => Iff.rfl) id_blind
    (.ite (p := fun s => s.lfoDelayC ≠ 0) (fun _ _ _ => Iff.rfl) hwait moveLfo_blind)

theorem tickEnd_blind : Blind tickEnd := by
  intro c st s
  have hwait : BlindTrack fun r : Track => { r with wait := r.wait-1 } := fun _ _ _ => rfl
  by_cases hoff : s.track.flags = 0
  · exact (if_pos (show (s.at c st).track.flags = 0 from hoff)).trans
      (congrArg (State.at c st) (if_pos hoff).symm)
  · have hstep := (lfo_blind.comp hwait).edit c st s
    exact (if_neg (show ¬(s.at c st).track.flags = 0 from hoff)).trans
      (hstep.trans (congrArg (State.at c st) (if_neg hoff).symm))

theorem Twins.tickEnd (h : Twins mem n a b) : Twins mem n (tickEnd a) (tickEnd b) := by
  obtain ⟨s,c,st,c',st',es,rfl,rfl,htext,htext',hleft,hlen,hrun⟩ := h
  refine ⟨Song.tickEnd s,c,st,c',st',es,tickEnd_blind _ _ _,tickEnd_blind _ _ _,htext,htext',
    hleft.imp_right fun h => ⟨h.1,?_⟩,hlen,?_⟩
  · have hoff : Song.tickEnd s = s := if_pos h.2
    rw [hoff]
    exact h.2
  · exact tickEnd_running hrun

/-- One tick of tracks that go on. -/
theorem Twins.tick (template : Word) (h : Twins mem n a b) (got : ℕ → Bool) {fuel : ℕ} (hfuel : n < fuel) :
    ∃ a' b', tick template mem got fuel a = some a' ∧ tick template mem got fuel b = some b' ∧
      Twins mem n a' b' := by
  have hrun : ¬a.track.flags &&& 0x40 ≠ 0 := by
    obtain ⟨s,c,st,c',st',es,rfl,rfl,-,-,-,-,hrun⟩ := h
    exact not_not.mpr hrun
  unfold Song.tick
  rw [← h.flags,if_neg hrun,if_neg hrun]
  split_ifs
  · exact ⟨a,b,rfl,rfl,h⟩
  · obtain ⟨a₁,b₁,ha,hb,h₁⟩ := h.commandLoop template got hfuel
    exact ⟨_,_,congrArg (Option.map Song.tickEnd) ha,congrArg (Option.map Song.tickEnd) hb,h₁.tickEnd⟩

theorem Twins.ticks (template : Word) (h : Twins mem n a b) {fuel : ℕ} (hfuel : n < fuel) (gots : List (ℕ → Bool)) :
    ∃ a' b', ticks template mem fuel gots a = some a' ∧ ticks template mem fuel gots b = some b' ∧
      Twins mem n a' b' := by
  induction gots generalizing a b with
  | nil => exact ⟨a,b,rfl,rfl,h⟩
  | cons got gots ih =>
    obtain ⟨a₁,b₁,ha₁,hb₁,h₁⟩ := h.tick template got hfuel
    obtain ⟨a',b',ha',hb',h'⟩ := ih h₁
    refine ⟨a',b',?_,?_,h'⟩
    · simp [Song.ticks,ha₁,ha']
    · simp [Song.ticks,hb₁,hb']

end Playing

end Song
end M4a
end AgbTools
