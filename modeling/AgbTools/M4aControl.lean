import AgbTools.M4aLock
import AgbTools.Nesting

/-! The control flow of a song: the command pointer of a track, its stack of patterns and its repeat
counter under `ply_goto`, `ply_patt`, `ply_pend` and `ply_rept`, with all other commands free. -/
namespace AgbTools
namespace M4a
namespace Control

open Runs Nesting

section Code

/-- The part of a track that its control flow works with. `patternStack` are the words from its
field on, of which the field has three. -/
structure Track where
  flags : Byte
  patternLevel : Byte
  repN : Byte
  runningStatus : Byte
  cmdPtr : Word
  patternStack : ℕ → Word

/-- What a command that is not modelled here leaves: it may read operands, jump, or end the track. -/
structure Other where
  flags : Byte
  cmdPtr : Word

variable (template : Word) (mem : Word → Byte)

/-- `r3`, or 0 when `r2` is an address of the BIOS before `gMPlayJumpTableTemplate`. -/
def chkAdrR2 (r2 : Word) (r3 : Byte) : Byte :=
  if r2 >>> 25 ≠ 0 then r3
  else if r2 < template then 0
  else if r2 >>> 14 = 0 then r3
  else 0

def ldrbR3R2 (r2 : Word) : Byte := chkAdrR2 template r2 (mem r2)

/-- The unaligned word that `ply_goto` puts together. -/
def operand (r2 : Word) : Word :=
  let r0 := (mem (r2+3)).setWidth 32
  let r0 := r0 <<< 8 ||| (mem (r2+2)).setWidth 32
  let r0 := r0 <<< 8 ||| (mem (r2+1)).setWidth 32
  r0 <<< 8 ||| (ldrbR3R2 template mem r2).setWidth 32

/-- `ld_r3_tp_adr_i`: the operand, the address it was read from, and the track after it. -/
def ldR3TpAdrI (s : Track) : Byte × Word × Track :=
  (chkAdrR2 template s.cmdPtr (mem s.cmdPtr),s.cmdPtr,{ s with cmdPtr := s.cmdPtr+1 })

/-- `ply_fine`, its channels apart. -/
def plyFine (s : Track) : Track := { s with flags := 0 }

def plyGoto (s : Track) : Track := { s with cmdPtr := operand template mem s.cmdPtr }

def plyPatt (s : Track) : Track :=
  if 3 ≤ s.patternLevel then plyFine s
  else
    plyGoto template mem { s with
      patternStack := Function.update s.patternStack s.patternLevel.toNat (s.cmdPtr+4)
      patternLevel := s.patternLevel+1 }

def plyPend (s : Track) : Track :=
  if s.patternLevel = 0 then s
  else
    { s with
      patternLevel := s.patternLevel-1
      cmdPtr := s.patternStack (s.patternLevel-1).toNat }

/-- `ply_rept`. The counter is compared before it is cut to a byte. -/
def plyRept (s : Track) : Track :=
  if mem s.cmdPtr = 0 then plyGoto template mem { s with cmdPtr := s.cmdPtr+1 }
  else
    let r12 := s.repN.toNat+1
    let (r3,r2,s) := ldR3TpAdrI template mem { s with repN := s.repN+1 }
    if r3.toNat ≤ r12 then { s with repN := 0, cmdPtr := r2+5 } else plyGoto template mem s

/-- The entries of the jump table that steer the command pointer. -/
inductive Command
  | fine
  | goto
  | patt
  | pend
  | rept
  | other
deriving DecidableEq, Repr

def decode (r1 : Byte) : Command :=
  if r1 = 0xB1 then .fine
  else if r1 = 0xB2 then .goto
  else if r1 = 0xB3 then .patt
  else if r1 = 0xB4 then .pend
  else if r1 = 0xB5 then .rept
  else .other

/-- The command byte that `MPlayMain` executes: a byte below 0x80 is an operand of the last one. -/
def fetch (s : Track) : Byte × Track :=
  let r1 := mem s.cmdPtr
  if r1 < 0x80 then (s.runningStatus,s)
  else if r1 < 0xBD then (r1,{ s with cmdPtr := s.cmdPtr+1 })
  else (r1,{ s with cmdPtr := s.cmdPtr+1, runningStatus := r1 })

def command (s : Track) (x : Other) : Command → Track
  | .fine => plyFine s
  | .goto => plyGoto template mem s
  | .patt => plyPatt template mem s
  | .pend => plyPend s
  | .rept => plyRept template mem s
  | .other => { s with flags := x.flags, cmdPtr := x.cmdPtr }

/-- One command of the track. A track that has ended executes no more. -/
def execute (s : Track) (x : Other) : Track :=
  if s.flags = 0 then s
  else
    let (r1,s) := fetch mem s
    command template mem s x (decode r1)

/-- The next command is `c`. -/
def Executes (s : Track) (c : Command) : Prop := s.flags ≠ 0 ∧ decode (fetch mem s).1 = c

instance (s : Track) (c : Command) : Decidable (Executes mem s c) :=
  inferInstanceAs (Decidable (_ ∧ _))

/-- The patterns that a command enters and leaves. -/
def moves (s : Track) (_ : Other) : List (Move Word) :=
  if Executes mem s .patt ∧ s.patternLevel < 3 then [.enter ((fetch mem s).2.cmdPtr+4)]
  else if Executes mem s .pend then [.leave]
  else []

end Code

section Patterns

variable {template : Word} {mem : Word → Byte} {s : Track} {x : Other} {c : Command}

theorem fetch_keeps (mem : Word → Byte) (s : Track) :
    (fetch mem s).2 = { s with
      runningStatus := (fetch mem s).2.runningStatus, cmdPtr := (fetch mem s).2.cmdPtr } := by
  unfold fetch
  dsimp only
  split_ifs <;> rfl

/-- A command byte is executed itself, from the operands behind it. -/
theorem fetch_command (h : ¬mem s.cmdPtr < 0x80) :
    (fetch mem s).1 = mem s.cmdPtr ∧ (fetch mem s).2.cmdPtr = s.cmdPtr+1 := by
  unfold fetch
  dsimp only
  rw [if_neg h]
  split_ifs <;> exact ⟨rfl,rfl⟩

theorem Executes.execute (h : Executes mem s c) (template : Word) (x : Other) :
    execute template mem s x = command template mem (fetch mem s).2 x c := by
  rw [Control.execute,if_neg h.1,← h.2]

/-- The return addresses in the first `n` words of the stack, the last one first. -/
def stackOf (stack : ℕ → Word) : ℕ → List Word
  | 0 => []
  | n+1 => stack n::stackOf stack n

@[simp] theorem length_stackOf (stack : ℕ → Word) (n : ℕ) : (stackOf stack n).length = n := by
  induction n with
  | zero => rfl
  | succ n ih => simp [stackOf,ih]

theorem stackOf_update {stack : ℕ → Word} {n i : ℕ} (h : n ≤ i) (v : Word) :
    stackOf (Function.update stack i v) n = stackOf stack n := by
  induction n with
  | zero => rfl
  | succ n ih => rw [stackOf,stackOf,ih (by omega),Function.update_of_ne (by omega)]

/-- The stack of the track holds `rs`. -/
structure Returns (s : Track) (rs : List Word) : Prop where
  level : s.patternLevel.toNat ≤ 3
  stack : stackOf s.patternStack s.patternLevel.toNat = rs

theorem Returns.length {rs : List Word} (h : Returns s rs) : s.patternLevel.toNat = rs.length := by
  rw [← h.stack,length_stackOf]

theorem returns_patt {rs : List Word} (h : Returns s rs) (hlevel : s.patternLevel < 3) :
    Returns (plyPatt template mem s) ((s.cmdPtr+4)::rs) := by
  have hlt : s.patternLevel.toNat < 3 := hlevel
  have hnot : ¬3 ≤ s.patternLevel := fun hle => absurd (show 3 ≤ s.patternLevel.toNat from hle) (by omega)
  have hsucc : (s.patternLevel+1).toNat = s.patternLevel.toNat+1 := by
    rw [BitVec.toNat_add]
    exact Nat.mod_eq_of_lt (show s.patternLevel.toNat+1 < 256 by omega)
  rw [plyPatt,if_neg hnot]
  constructor
  · show (s.patternLevel+1).toNat ≤ 3
    omega
  · show stackOf (Function.update s.patternStack s.patternLevel.toNat (s.cmdPtr+4))
      (s.patternLevel+1).toNat = _
    rw [hsucc,stackOf,Function.update_self,stackOf_update le_rfl,h.stack]

theorem returns_pend {r : Word} {rs : List Word} (h : Returns s (r::rs)) :
    Returns (plyPend s) rs ∧ (plyPend s).cmdPtr = r ∧
      (plyPend s).patternLevel = s.patternLevel-1 := by
  have hlength : s.patternLevel.toNat = rs.length+1 := h.length
  have hlevel := h.level
  have hne : s.patternLevel ≠ 0 := by
    intro hzero
    rw [hzero] at hlength
    exact Nat.succ_ne_zero _ hlength.symm
  have hpred : (s.patternLevel-1).toNat = s.patternLevel.toNat-1 :=
    BitVec.toNat_sub_of_le (show 1 ≤ s.patternLevel.toNat by omega)
  have hstack : s.patternStack (s.patternLevel.toNat-1)::
      stackOf s.patternStack (s.patternLevel.toNat-1) = r::rs := by
    rw [← h.stack,hlength]
    rfl
  obtain ⟨htop,hrest⟩ := List.cons.inj hstack
  rw [plyPend,if_neg hne]
  refine ⟨⟨?_,?_⟩,?_,rfl⟩
  · show (s.patternLevel-1).toNat ≤ 3
    omega
  · show stackOf _ (s.patternLevel-1).toNat = rs
    rw [hpred,hrest]
  · show s.patternStack (s.patternLevel-1).toNat = r
    rw [hpred,htop]

theorem Returns.same {t : Track} {rs : List Word} (h : Returns s rs)
    (hlevel : t.patternLevel = s.patternLevel) (hstack : t.patternStack = s.patternStack) :
    Returns t rs := by
  constructor
  · rw [hlevel]
    exact h.level
  · rw [hlevel,hstack]
    exact h.stack

theorem Returns.fetch {rs : List Word} (h : Returns s rs) : Returns (Control.fetch mem s).2 rs := by
  rw [fetch_keeps]
  exact h.same rfl rfl

theorem plyRept_stack (s : Track) : (plyRept template mem s).patternLevel = s.patternLevel ∧
    (plyRept template mem s).patternStack = s.patternStack := by
  unfold plyRept
  dsimp only [ldR3TpAdrI]
  split_ifs <;> exact ⟨rfl,rfl⟩

theorem returns_command {rs : List Word} (h : Returns s rs) (x : Other) (hpatt : c ≠ .patt)
    (hpend : c ≠ .pend) : Returns (command template mem s x c) rs := by
  cases c with
  | patt => exact absurd rfl hpatt
  | pend => exact absurd rfl hpend
  | rept => exact h.same (plyRept_stack s).1 (plyRept_stack s).2
  | fine | goto | other => exact h.same rfl rfl

/-- Only a pattern that is entered or left changes the stack. -/
theorem returns_execute {rs : List Word} (h : Returns s rs) (template : Word) (mem : Word → Byte)
    (x : Other) : Returns (execute template mem s x) (opened rs (moves mem s x)) := by
  have hlevel : (fetch mem s).2.patternLevel = s.patternLevel := by rw [fetch_keeps]
  by_cases hpatt : Executes mem s .patt
  · rw [hpatt.execute]
    by_cases hlow : s.patternLevel < 3
    · rw [moves,if_pos ⟨hpatt,hlow⟩]
      exact returns_patt h.fetch (hlevel ▸ hlow)
    · have hend : ¬Executes mem s .pend := fun hpend => by
        have hcommand := hpatt.2.symm.trans hpend.2
        cases hcommand
      have hfull : 3 ≤ (fetch mem s).2.patternLevel := by
        rw [hlevel]
        exact BitVec.not_lt.mp hlow
      rw [moves,if_neg fun hs => hlow hs.2,if_neg hend,command,plyPatt,if_pos hfull]
      exact h.fetch.same rfl rfl
  · rw [moves,if_neg fun hs => hpatt hs.1]
    by_cases hpend : Executes mem s .pend
    · rw [if_pos hpend,hpend.execute]
      cases rs with
      | nil =>
        have hzero : (fetch mem s).2.patternLevel = 0 := by
          rw [hlevel]
          exact BitVec.eq_of_toNat_eq h.length
        rw [command,plyPend,if_pos hzero]
        exact h.fetch
      | cons r rs => exact (returns_pend h.fetch).1
    · rw [if_neg hpend]
      by_cases hflags : s.flags = 0
      · rw [execute,if_pos hflags]
        exact h
      · have hcommand : Executes mem s (decode (fetch mem s).1) := ⟨hflags,rfl⟩
        rw [hcommand.execute]
        exact returns_command h.fetch x (fun hc => hpatt ⟨hflags,hc⟩) fun hc => hpend ⟨hflags,hc⟩

/-- In every run the stack holds the return addresses of the patterns that are open. -/
theorem returns_run {rs : List Word} (h : Returns s rs) (template : Word) (mem : Word → Byte)
    (xs : List Other) : Returns (run (execute template mem) s xs)
      (opened rs (trace (execute template mem) (moves mem) s xs)) := by
  induction xs generalizing s rs with
  | nil => exact h
  | cons x xs ih =>
    rw [trace,opened_append]
    exact ih (returns_execute h template mem x)

/-- A pattern ends behind the command that entered it. -/
theorem pattern_returns {rs : List Word} (h : Returns s rs) (hpatt : Executes mem s .patt)
    (hlevel : s.patternLevel < 3) (x y : Other) (xs : List Other)
    (hbalanced : Balanced (trace (execute template mem) (moves mem) (execute template mem s x) xs))
    (hpend : Executes mem (run (execute template mem) (execute template mem s x) xs) .pend) :
    let t := execute template mem (run (execute template mem) (execute template mem s x) xs) y
    t.cmdPtr = (fetch mem s).2.cmdPtr+4 ∧ t.patternLevel = s.patternLevel := by
  have hrun := returns_run (returns_execute h template mem x) template mem xs
  rw [hbalanced.opened,moves,if_pos ⟨hpatt,hlevel⟩] at hrun
  obtain ⟨hreturns,hptr,-⟩ := returns_pend hrun.fetch
  dsimp only
  rw [hpend.execute]
  exact ⟨hptr,BitVec.eq_of_toNat_eq (hreturns.length.trans h.length.symm)⟩

/-- On the third level a pattern ends the track. -/
theorem patt_full (hpatt : Executes mem s .patt) (hlevel : 3 ≤ s.patternLevel) (x : Other) :
    execute template mem s x = { (fetch mem s).2 with flags := 0 } := by
  have hfull : 3 ≤ (fetch mem s).2.patternLevel := by
    rw [fetch_keeps]
    exact hlevel
  rw [hpatt.execute,command,plyPatt,if_pos hfull,plyFine]

end Patterns

section Repeats

variable {template : Word} {mem : Word → Byte} {s t u : Track} {a b : Word} {n : Byte}

/-- The next command is a repeat with a count. -/
def AtCounted (mem : Word → Byte) (s : Track) : Prop :=
  Executes mem s .rept ∧ mem (fetch mem s).2.cmdPtr ≠ 0

/-- The repeat at `a`, with the count and the address that the code reads. -/
structure Rept (template : Word) (mem : Word → Byte) (a : Word) (n : Byte) (b : Word) : Prop where
  byte : mem a = 0xB5
  count : ldrbR3R2 template mem (a+1) = n
  target : operand template mem (a+2) = b

/-- The commands up to the address `a`, none of them a repeat with a count. -/
structure Body (template : Word) (mem : Word → Byte) (a : Word) (s t : Track) : Prop where
  commands : ∃ xs, Along (execute template mem) (fun s _ => ¬AtCounted mem s) s xs ∧
    run (execute template mem) s xs = t
  here : t.cmdPtr = a
  alive : t.flags ≠ 0

/-- The body of the repeat at `a`, each time followed by the repeat. -/
inductive Passes (template : Word) (mem : Word → Byte) (a : Word) : ℕ → Track → Track → Prop
  | none (s : Track) : Passes template mem a 0 s s
  | more {k : ℕ} {s t u : Track} (h : Passes template mem a k s t) (hbody : Body template mem a t u)
      (x : Other) : Passes template mem a (k+1) s (execute template mem u x)

/-- No other command changes the counter. -/
theorem execute_repN (h : ¬AtCounted mem s) (x : Other) :
    (execute template mem s x).repN = s.repN := by
  by_cases hflags : s.flags = 0
  · rw [execute,if_pos hflags]
  · have hcommand : Executes mem s (decode (fetch mem s).1) := ⟨hflags,rfl⟩
    have hfetch : (fetch mem s).2.repN = s.repN := by rw [fetch_keeps]
    rw [hcommand.execute,← hfetch]
    cases hc : decode (fetch mem s).1 with
    | rept =>
      have hzero : mem (fetch mem s).2.cmdPtr = 0 := not_not.mp fun hne => h ⟨⟨hflags,hc⟩,hne⟩
      rw [command,plyRept,if_pos hzero]
      rfl
    | patt =>
      rw [command,plyPatt]
      split_ifs <;> rfl
    | pend =>
      rw [command,plyPend]
      split_ifs <;> rfl
    | fine | goto | other => rfl

theorem Body.repN (h : Body template mem a s t) : t.repN = s.repN := by
  obtain ⟨xs,halong,rfl⟩ := h.commands
  have hstep (u : Track) (x : Other) (hrep : u.repN = s.repN) (hnot : ¬AtCounted mem u) :
      (execute template mem u x).repN = s.repN := (execute_repN hnot x).trans hrep
  exact Along.invariant hstep rfl halong

theorem fetch_rept (hb : mem a = 0xB5) (hs : s.cmdPtr = a) (halive : s.flags ≠ 0) :
    Executes mem s .rept ∧ (fetch mem s).2.cmdPtr = a+1 := by
  have hbyte : mem s.cmdPtr = 0xB5 := by rw [hs,hb]
  have hhigh : ¬mem s.cmdPtr < 0x80 := by
    rw [hbyte]
    decide
  obtain ⟨hcommand,hptr⟩ := fetch_command hhigh
  refine ⟨⟨halive,?_⟩,by rw [hptr,hs]⟩
  rw [hcommand,hbyte]
  rfl

/-- Without a count the repeat always jumps. -/
theorem rept_zero (hb : mem a = 0xB5) (hzero : mem (a+1) = 0) (hs : s.cmdPtr = a)
    (halive : s.flags ≠ 0) (x : Other) :
    execute template mem s x = { (fetch mem s).2 with cmdPtr := operand template mem (a+2) } := by
  obtain ⟨hrept,hptr⟩ := fetch_rept hb hs halive
  have hcount : mem (fetch mem s).2.cmdPtr = 0 := by rw [hptr,hzero]
  rw [hrept.execute,command,plyRept,if_pos hcount,plyGoto,hptr,BitVec.add_assoc]
  rfl

theorem chkAdrR2_zero (r2 : Word) : chkAdrR2 template r2 0 = 0 := by
  unfold chkAdrR2
  split_ifs <;> rfl

theorem Rept.counted (h : Rept template mem a n b) (hn : n ≠ 0) : mem (a+1) ≠ 0 := by
  intro hzero
  have hcount := h.count
  rw [ldrbR3R2,hzero,chkAdrR2_zero] at hcount
  exact hn hcount.symm

/-- With a count it jumps until the counter has come to it. -/
theorem Rept.execute (h : Rept template mem a n b) (hn : n ≠ 0) (hs : s.cmdPtr = a)
    (halive : s.flags ≠ 0) (x : Other) :
    (n.toNat ≤ s.repN.toNat+1 → (execute template mem s x).cmdPtr = a+6 ∧
      (execute template mem s x).repN = 0) ∧
    (s.repN.toNat+1 < n.toNat → (execute template mem s x).cmdPtr = b ∧
      (execute template mem s x).repN.toNat = s.repN.toNat+1) := by
  obtain ⟨hrept,hptr⟩ := fetch_rept h.byte hs halive
  have hrepN : (fetch mem s).2.repN = s.repN := by rw [fetch_keeps]
  have hne : mem (fetch mem s).2.cmdPtr ≠ 0 := by
    rw [hptr]
    exact h.counted hn
  have hcount : chkAdrR2 template (a+1) (mem (a+1)) = n := h.count
  have hnext := hrept.execute template x
  rw [command,plyRept,if_neg hne] at hnext
  simp only [ldR3TpAdrI,hrepN,hptr,hcount] at hnext
  have hlt := n.isLt
  constructor
  · intro hle
    rw [hnext,if_pos hle]
    exact ⟨by rw [BitVec.add_assoc]; rfl,rfl⟩
  · intro hmore
    rw [hnext,if_neg (by omega),plyGoto]
    refine ⟨?_,?_⟩
    · rw [← h.target]
      dsimp only
      rw [BitVec.add_assoc]
      rfl
    · show (s.repN+1).toNat = s.repN.toNat+1
      rw [BitVec.toNat_add]
      exact Nat.mod_eq_of_lt (show s.repN.toNat+1 < 256 by omega)

/-- The body is executed as often as the count says before control passes on. -/
theorem Rept.passes (h : Rept template mem a n b) (hn : n ≠ 0) {m : ℕ}
    (hpasses : Passes template mem a m s t) (hs : s.cmdPtr = b) (hrep : s.repN = 0) (hm : m ≤ n.toNat) :
    (m < n.toNat → t.cmdPtr = b ∧ t.repN.toNat = m) ∧
    (m = n.toNat → t.cmdPtr = a+6 ∧ t.repN = 0) := by
  induction hpasses with
  | none s =>
    refine ⟨fun _ => ⟨hs,by rw [hrep]; rfl⟩,fun hzero => ?_⟩
    exact absurd (BitVec.eq_of_toNat_eq hzero.symm) hn
  | @more k s t u hpasses hbody x ih =>
    obtain ⟨-,hcount⟩ := (ih hs hrep (by omega)).1 (by omega)
    obtain ⟨hout,hback⟩ := h.execute hn hbody.here hbody.alive x
    rw [hbody.repN,hcount] at hout hback
    exact ⟨fun hlt => hback hlt,fun heq => hout heq.ge⟩

theorem passes_zero (hb : mem a = 0xB5) (hzero : mem (a+1) = 0) {m : ℕ}
    (hpasses : Passes template mem a m s t) (hs : s.cmdPtr = operand template mem (a+2)) :
    t.cmdPtr = operand template mem (a+2) := by
  cases hpasses with
  | none s => exact hs
  | more hpasses hbody x => rw [rept_zero hb hzero hbody.here hbody.alive x]

end Repeats

/-- A track at the start of a song. -/
structure Fresh (s : Track) : Prop where
  level : s.patternLevel = 0
  repN : s.repN = 0

theorem Fresh.returns {s : Track} (h : Fresh s) : Returns s [] := by
  constructor
  · rw [h.level]
    decide
  · rw [h.level]
    rfl

/-- The control flow of a song: the level is the depth of the open patterns, a pattern ends behind the
command that entered it, and on the third level it ends the track; a repeat whose counter is 0 at the
beginning of its body executes the body as often as its count says, and without a count for ever. -/
theorem song_control (template : Word) (mem : Word → Byte) :
    (∀ s, Fresh s → ∀ xs,
      (run (execute template mem) s xs).patternLevel.toNat =
        depth (trace (execute template mem) (moves mem) s xs) ∧
      (run (execute template mem) s xs).patternLevel.toNat ≤ 3) ∧
    (∀ s, Fresh s → ∀ xs x ys y, let p := run (execute template mem) s xs
      let q := run (execute template mem) (execute template mem p x) ys
      p.flags ≠ 0 → mem p.cmdPtr = 0xB3 → p.patternLevel < 3 →
      Balanced (trace (execute template mem) (moves mem) (execute template mem p x) ys) →
      Executes mem q .pend →
      (execute template mem q y).cmdPtr = p.cmdPtr+5 ∧
        (execute template mem q y).patternLevel = p.patternLevel) ∧
    (∀ s x, Executes mem s .patt → 3 ≤ s.patternLevel →
      execute template mem s x = { (fetch mem s).2 with flags := 0 }) ∧
    (∀ a n b s t m, Rept template mem a n b → n ≠ 0 → Passes template mem a m s t → s.cmdPtr = b →
      s.repN = 0 → m ≤ n.toNat →
      (m < n.toNat → t.cmdPtr = b) ∧ (m = n.toNat → t.cmdPtr = a+6 ∧ t.repN = 0)) ∧
    ∀ a s t m, mem a = 0xB5 → mem (a+1) = 0 → Passes template mem a m s t →
      s.cmdPtr = operand template mem (a+2) → t.cmdPtr = operand template mem (a+2) := by
  refine ⟨fun s hs xs => ?_,fun s hs xs x ys y => ?_,fun s x hpatt hlevel => patt_full hpatt hlevel x,
    fun a n b s t m h hn hpasses hs hrep hm => ?_,
    fun a s t m hb hzero hpasses hs => passes_zero hb hzero hpasses hs⟩
  · have hreturns := returns_run hs.returns template mem xs
    exact ⟨hreturns.length,hreturns.level⟩
  · intro p q halive hbyte hlevel hbalanced hpend
    have hp := returns_run hs.returns template mem xs
    have hhigh : ¬mem p.cmdPtr < 0x80 := by
      rw [hbyte]
      decide
    obtain ⟨hcommand,hptr⟩ := fetch_command hhigh
    have hpatt : Executes mem p .patt := ⟨halive,by rw [hcommand,hbyte]; rfl⟩
    have hend := pattern_returns hp hpatt hlevel x y ys hbalanced hpend
    rw [hptr,BitVec.add_assoc] at hend
    exact hend
  · obtain ⟨hback,hout⟩ := h.passes hn hpasses hs hrep hm
    exact ⟨fun hlt => (hback hlt).1,hout⟩

/-- A repeat whose body jumps out of it, and behind the jump a second one with a body of one wait. -/
def leftLoop : List Byte :=
  [0xB2,0x0B,0,0,8,
    0xB5,3,0,0,0,8,
    0x81,
    0xB5,2,0x0B,0,0,8,
    0xB1]

def songAt (song : List Byte) (adr : Word) : Byte := song.getD (adr-0x8000000).toNat 0

def startOfTrack (cmdPtr : Word) : Track := ⟨0x80,0,0,0,cmdPtr,fun _ => 0⟩

def wait (cmdPtr : Word) : Other := ⟨0x80,cmdPtr⟩

/-- The counter is shared: the second repeat executes its body once, not twice. -/
theorem song_control_left : ¬∀ (template : Word) (mem : Word → Byte) (s : Track), Fresh s →
    ∀ (xs : List Other) (a b : Word) (n : Byte) (t : Track) (m : ℕ), Rept template mem a n b → n ≠ 0 →
      (run (execute template mem) s xs).cmdPtr = b →
      Passes template mem a m (run (execute template mem) s xs) t → m ≤ n.toNat →
      (m < n.toNat → t.cmdPtr = b) ∧ (m = n.toNat → t.cmdPtr = a+6) := by
  intro hall
  have hfresh : Fresh (startOfTrack 0x8000005) := ⟨rfl,rfl⟩
  have hrept : Rept 0x8100000 (songAt leftLoop) 0x800000C 2 0x800000B :=
    ⟨by decide,by decide,by decide⟩
  let p := run (execute 0x8100000 (songAt leftLoop)) (startOfTrack 0x8000005) [wait 0,wait 0]
  have hbody : Body 0x8100000 (songAt leftLoop) 0x800000C p
      (execute 0x8100000 (songAt leftLoop) p (wait 0x800000C)) := by
    refine ⟨⟨[wait 0x800000C],⟨?_,trivial⟩,rfl⟩,by decide,by decide⟩
    exact fun h => absurd h.1 (by decide)
  have hend := hall 0x8100000 (songAt leftLoop) (startOfTrack 0x8000005) hfresh [wait 0,wait 0]
    0x800000C 0x800000B 2 _ 1 hrept (by decide) (by decide) (.more (.none p) hbody (wait 0)) (by decide)
  exact absurd (hend.1 (by decide)) (by decide)

/-- A pattern, a loop of one wait, and an endless loop. -/
def shortSong : List Byte :=
  [0xB3,0x13,0,0,8,
    0x81,
    0xB5,2,5,0,0,8,
    0x81,
    0xB5,0,0x0C,0,0,8,
    0x81,0xB4]

theorem song_control_short :
    let e := execute 0x8100000 (songAt shortSong)
    (e (run e (e (startOfTrack 0x8000000) (wait 0)) [wait 0x8000014]) (wait 0)).cmdPtr = 0x8000005 ∧
    (run e (startOfTrack 0x8000000) [wait 0]).patternLevel.toNat ≤ 3 ∧
    (e { startOfTrack 0x8000000 with patternLevel := 3 } (wait 0)).flags = 0 ∧
    (e (e (e (e (startOfTrack 0x8000005) (wait 0x8000006)) (wait 0)) (wait 0x8000006))
      (wait 0)).cmdPtr = 0x800000C ∧
    (e (e (startOfTrack 0x800000C) (wait 0x800000D)) (wait 0)).cmdPtr = 0x800000C := by
  intro e
  have hfresh (cmdPtr : Word) : Fresh (startOfTrack cmdPtr) := ⟨rfl,rfl⟩
  obtain ⟨hlevel,hpattern,hfull,hrepeat,hever⟩ := song_control 0x8100000 (songAt shortSong)
  have hbody (s : Track) (x : Other) (a : Word) (hx : x.cmdPtr = a ∧ x.flags ≠ 0)
      (hs : s.flags ≠ 0 ∧ decode (fetch (songAt shortSong) s).1 = .other) :
      Body 0x8100000 (songAt shortSong) a s (e s x) := by
    have hother : Executes (songAt shortSong) s .other := hs
    have hnext : e s x = { (fetch (songAt shortSong) s).2 with flags := x.flags, cmdPtr := x.cmdPtr } :=
      hother.execute 0x8100000 x
    refine ⟨⟨[x],⟨fun h => ?_,trivial⟩,rfl⟩,?_,?_⟩
    · have hcommand := h.1.2.symm.trans hs.2
      cases hcommand
    · rw [hnext]
      exact hx.1
    · rw [hnext]
      exact hx.2
  refine ⟨?_,(hlevel _ (hfresh _) _).2,?_,?_,?_⟩
  · exact (hpattern _ (hfresh 0x8000000) [] (wait 0) [wait 0x8000014] (wait 0) (by decide) (by decide)
      (by decide) .nil (by decide)).1
  · exact congrArg Track.flags
      (hfull { startOfTrack 0x8000000 with patternLevel := 3 } (wait 0) (by decide) (by decide))
  · have hpasses : Passes 0x8100000 (songAt shortSong) 0x8000006 2 (startOfTrack 0x8000005) _ :=
      .more (.more (.none _) (hbody _ (wait 0x8000006) _ (by decide) (by decide)) (wait 0))
        (hbody _ (wait 0x8000006) _ (by decide) (by decide)) (wait 0)
    exact ((hrepeat 0x8000006 2 0x8000005 _ _ 2 ⟨by decide,by decide,by decide⟩ (by decide) hpasses rfl rfl
      (by decide)).2 rfl).1
  · have hpasses : Passes 0x8100000 (songAt shortSong) 0x800000D 1 (startOfTrack 0x800000C) _ :=
      .more (.none _) (hbody _ (wait 0x800000D) _ (by decide) (by decide)) (wait 0)
    exact hever _ _ _ _ (by decide) (by decide) hpasses (by decide)

end Control
end M4a
end AgbTools
