import AgbTools.Listing
import AgbTools.Runs
import AgbTools.ThumbBranches
import AgbTools.ThumbConstants
import AgbTools.ThumbFrame
import Mathlib.Logic.Relation

/-! A function with its branches as they are printed. A branch that is too far for a `b` takes the link
register, which the prologue has to know. -/
namespace AgbTools
namespace Thumb
namespace Jumps

open ShortenBranches (Kind Form)
open Constants (Flags Cond subFlags cmpsi)
open Listing Runs

section Conditions

/-- The suffixes of a conditional branch. -/
inductive Suffix
  | eq | ne | cs | cc | mi | pl | vs | vc | hi | ls | ge | lt | gt | le
deriving DecidableEq, Repr

def conds : List Suffix := [.eq,.ne,.cs,.cc,.mi,.pl,.vs,.vc,.hi,.ls,.ge,.lt,.gt,.le]

/-- The place of a comparison in `conds`. -/
def val : Cond → ℕ
  | .eq => 0
  | .ne => 1
  | .geu => 2
  | .ltu => 3
  | .gtu => 8
  | .leu => 9
  | .ge => 10
  | .lt => 11
  | .gt => 12
  | .le => 13

/-- `thumb_condition_code`, which never looks behind the table. -/
def thumbConditionCode (x : Cond) (invert : Bool) : Suffix := conds.getD (val x ^^^ invert.toNat) .eq

def Suffix.passes (f : Flags) : Suffix → Bool
  | .eq => f.z
  | .ne => !f.z
  | .cs => f.c
  | .cc => !f.c
  | .mi => f.n
  | .pl => !f.n
  | .vs => f.v
  | .vc => !f.v
  | .hi => f.c && !f.z
  | .ls => !f.c || f.z
  | .ge => f.n == f.v
  | .lt => f.n != f.v
  | .gt => !f.z && f.n == f.v
  | .le => f.z || f.n != f.v

end Conditions

section Source

/-- The insns of a function body: comparisons with a register or a constant, for which `t` may be needed,
branches to the label at a place of the body, and those of other patterns, with what they do to the
registers and the memory and to the flags. -/
inductive Insn
  | other (f : Machine → Machine) (g : Machine → Flags → Flags)
  | label
  | cmp (x y : Reg)
  | cmpConst (x t : Reg) (c : Word)
  | jump (dest : ℕ)
  | branch (reversed : Bool) (cond : Cond) (dest : ℕ)

/-- The registers as the expansions with constants have them. -/
def view (m : Machine) (f : Flags) : Constants.State := ⟨fun n => m.reg (Fin.ofNat 16 n),f⟩

def runCode (m : Machine) (f : Flags) (is : List Constants.Insn) : Machine × Flags :=
  let s := Constants.run is (view m f)
  ({ m with reg := fun r => s.reg r.val },s.flags)

/-- What a body works on: the machine, the two operands of `cc0`, and the place of the next insn. -/
structure Config where
  machine : Machine
  cc0 : Option (Word × Word)
  pc : ℕ

/-- One insn, as the patterns describe it. A branch that no comparison goes before has no meaning. -/
def Insn.step (c : Config) : Insn → Option Config
  | .other f _ => some ⟨f c.machine,none,c.pc+1⟩
  | .label => some { c with pc := c.pc+1 }
  | .cmp x y => some { c with cc0 := some (c.machine.reg x,c.machine.reg y), pc := c.pc+1 }
  | .cmpConst x t w =>
    some ⟨(runCode c.machine ⟨false,false,false,false⟩ (cmpsi x t w)).1,some (c.machine.reg x,w),c.pc+1⟩
  | .jump dest => some { c with pc := dest }
  | .branch reversed cond dest =>
    c.cc0.map fun (x,y) => { c with pc := if cond.holds (subFlags x y) ≠ reversed then dest else c.pc+1 }

def step (P : List Insn) (c : Config) : Option Config := P[c.pc]?.bind (Insn.step c)

end Source

section Output

/-- The labels of the output: those of the body, and the `.LCB` and `.LCBR` of its branches. -/
inductive Label
  | insn (i : ℕ)
  | around (i : ℕ)
deriving DecidableEq, Repr

def Label.owner : Label → ℕ
  | .insn i => i
  | .around i => i

inductive Line
  | plain (f : Machine → Machine) (g : Machine → Flags → Flags)
  | code (is : List Constants.Insn)
  | label (l : Label)
  | b (l : Label)
  | bl (l : Label)
  | bcc (s : Suffix) (l : Label)

def Line.labelOf : Line → Option Label
  | .label l => some l
  | _ => none

/-- What is printed at place `i` for a branch to `dest`. -/
def formText (i dest : ℕ) (x : Cond) : Form → List Line
  | .b => [.b (.insn dest)]
  | .bl => [.bl (.insn dest)]
  | .cond inverted => [.bcc (thumbConditionCode x inverted) (.insn dest)]
  | .condAroundB inverted =>
    [.bcc (thumbConditionCode x inverted) (.around i),.b (.insn dest),.label (.around i)]
  | .condAroundBl inverted =>
    [.bcc (thumbConditionCode x inverted) (.around i),.bl (.insn dest),.label (.around i)]

def kind (reversed : Bool) : Kind := if reversed then .condBranchReversed else .condBranch

/-- The output of an insn; `dist` tells how far the branches go. -/
def Insn.text (dist : ℕ → ℤ) (i : ℕ) : Insn → List Line
  | .other f g => [.plain f g]
  | .label => [.label (.insn i)]
  | .cmp x y => [.code [.cmp x y]]
  | .cmpConst x t c => [.code (cmpsi x t c)]
  | .jump dest => formText i dest .eq (Kind.jump.form (Kind.jump.length (dist i)))
  | .branch reversed cond dest => formText i dest cond ((kind reversed).form ((kind reversed).length (dist i)))

def listing (dist : ℕ → ℤ) (P : List Insn) : List Line := rest (Insn.text dist) P 0

/-- The `far_jump` attribute. -/
def Insn.farJump (dist : ℕ → ℤ) (i : ℕ) : Insn → Bool
  | .jump _ => Kind.jump.length (dist i) = 4
  | .branch reversed _ _ => (kind reversed).length (dist i) = 6
  | _ => false

/-- `far_jump_used_p`, from place `i` on. -/
def farJumpUsed (dist : ℕ → ℤ) : ℕ → List Insn → Bool
  | _, [] => false
  | i, x::P => x.farJump dist i || farJumpUsed dist (i+1) P

structure Cpu where
  machine : Machine
  flags : Flags

/-- One line of the output: a branch goes on at its label, and a `bl` leaves the address behind it in the
link register. -/
def next (address : List Line → Word) (whole : List Line) : Cpu × List Line → Cpu × List Line
  | (s,[]) => (s,[])
  | (s,.plain f g::ls) => (⟨f s.machine,g s.machine s.flags⟩,ls)
  | (s,.code is::ls) => (⟨(runCode s.machine s.flags is).1,(runCode s.machine s.flags is).2⟩,ls)
  | (s,.label _::ls) => (s,ls)
  | (s,.b l::_) => (s,startingAt Line.labelOf l whole)
  | (s,.bl l::ls) => ({ s with machine := s.machine.set lr (address ls) },startingAt Line.labelOf l whole)
  | (s,.bcc x l::ls) => if x.passes s.flags then (s,startingAt Line.labelOf l whole) else (s,ls)

end Output

section Promises

/-- Two machines with the same memory and the same registers, the link register apart. -/
def SameButLr (m m' : Machine) : Prop := m.mem = m'.mem ∧ ∀ r, r ≠ lr → m.reg r = m'.reg r

/-- Nothing reads the link register, and a comparison has a register of its own for its constant. -/
def Insn.Fine : Insn → Prop
  | .other f _ => ∀ m m', SameButLr m m' → SameButLr (f m) (f m')
  | .cmp x y => x ≠ lr ∧ y ≠ lr
  | .cmpConst x t _ => x ≠ lr ∧ x ≠ t
  | _ => True

def Insn.dest : Insn → Option ℕ
  | .jump dest => some dest
  | .branch _ _ dest => some dest
  | _ => none

/-- Bodies whose branches go to labels. -/
structure Body where
  insns : List Insn
  fine : ∀ x ∈ insns, x.Fine
  labelled : ∀ x ∈ insns, ∀ d ∈ x.dest, insns[d]? = some .label

end Promises

section Branches

theorem passes_plain (x : Cond) (f : Flags) : (thumbConditionCode x false).passes f = x.holds f := by
  cases x <;> rfl

/-- The entries of the table come in pairs of opposite conditions. -/
theorem passes_inverted (x : Cond) (f : Flags) : (thumbConditionCode x true).passes f = !x.holds f := by
  obtain ⟨n,z,c,v⟩ := f
  cases x <;> cases n <;> cases z <;> cases c <;> cases v <;> rfl

theorem passes_iff (x : Cond) (f : Flags) (inverted : Bool) :
    (thumbConditionCode x inverted).passes f = true ↔ x.holds f ≠ inverted := by
  cases inverted <;> simp [passes_plain,passes_inverted]

theorem condLength_values (d : ℤ) : ShortenBranches.condLength d = 2 ∨ ShortenBranches.condLength d = 4 ∨
    ShortenBranches.condLength d = 6 := by
  unfold ShortenBranches.condLength
  split_ifs <;> simp

theorem branch_form (reversed : Bool) (d : ℤ) :
    (kind reversed).form ((kind reversed).length d) = .cond reversed ∨
    (kind reversed).form ((kind reversed).length d) = .condAroundB (!reversed) ∨
    (kind reversed).form ((kind reversed).length d) = .condAroundBl (!reversed) ∧
      (kind reversed).length d = 6 := by
  have hlength : (kind reversed).length d = ShortenBranches.condLength d := by
    cases reversed <;> rfl
  rw [hlength]
  obtain h | h | h := condLength_values d <;> rw [h] <;> cases reversed <;> simp [kind,Kind.form]

theorem owned_text (dist : ℕ → ℤ) : Owned Line.labelOf Label.owner (Insn.text dist) := by
  intro i x y hy l hl
  have hform (dest : ℕ) (c : Cond) (F : Form) (hmem : y ∈ formText i dest c F) : l.owner = i := by
    cases F <;> simp only [formText,List.mem_cons,List.not_mem_nil,or_false] at hmem
    · obtain rfl := hmem
      cases hl
    · obtain rfl := hmem
      cases hl
    · obtain rfl := hmem
      cases hl
    all_goals
      obtain rfl | rfl | rfl := hmem
      · cases hl
      · cases hl
      · cases hl
        rfl
  cases x with
  | other f g =>
    obtain rfl := List.mem_singleton.mp hy
    cases hl
  | label =>
    obtain rfl := List.mem_singleton.mp hy
    cases hl
    rfl
  | cmp x z =>
    obtain rfl := List.mem_singleton.mp hy
    cases hl
  | cmpConst x t c =>
    obtain rfl := List.mem_singleton.mp hy
    cases hl
  | jump dest => exact hform _ _ _ hy
  | branch reversed cond dest => exact hform _ _ _ hy

variable {dist : ℕ → ℤ} {P : List Insn} {i dest : ℕ}

/-- A branch to a label of the body goes on with the rest of the output from there on. -/
theorem startingAt_label (dist : ℕ → ℤ) (h : P[dest]? = some .label) :
    startingAt Line.labelOf (.insn dest) (listing dist P) = rest (Insn.text dist) P dest := by
  have hlt : dest < P.length := (List.getElem?_eq_some_iff.mp h).1
  rw [listing,startingAt_rest (owned_text dist) (show Label.owner (.insn dest) ≤ P.length from hlt.le)]
  change startingAt _ _ (rest (Insn.text dist) P dest) = _
  rw [rest_of_getElem? _ h]
  exact if_pos rfl

/-- The label behind a branch is found at its place. -/
theorem startingAt_around {x : Insn} {s : Suffix} {y : Line} (hx : P[i]? = some x)
    (htext : x.text dist i = [.bcc s (.around i),y,.label (.around i)]) (hy : y.labelOf = none) :
    startingAt Line.labelOf (.around i) (listing dist P) =
      .label (.around i)::rest (Insn.text dist) P (i+1) := by
  have hlt : i < P.length := (List.getElem?_eq_some_iff.mp hx).1
  rw [listing,startingAt_rest (owned_text dist) (show Label.owner (.around i) ≤ P.length from hlt.le)]
  change startingAt _ _ (rest (Insn.text dist) P i) = _
  have hbranch : Line.labelOf (.bcc s (.around i)) ≠ some (.around i) := nofun
  have hother : y.labelOf ≠ some (.around i) := by simp [hy]
  rw [rest_of_getElem? _ hx,htext]
  simp only [List.cons_append,List.nil_append,startingAt,if_neg hbranch,if_neg hother]
  exact if_pos rfl

end Branches

section Simulation

theorem SameButLr.refl (m : Machine) : SameButLr m m := ⟨rfl,fun _ _ => rfl⟩

theorem farJumpUsed_of {dist : ℕ → ℤ} {P : List Insn} {i k : ℕ} {x : Insn} (hx : P[i]? = some x)
    (hfar : x.farJump dist (k+i) = true) : farJumpUsed dist k P = true := by
  induction P generalizing i k with
  | nil => simp at hx
  | cons y P ih =>
    cases i with
    | zero =>
      obtain rfl : y = x := by simpa using hx
      simp only [farJumpUsed,Bool.or_eq_true]
      exact .inl hfar
    | succ i =>
      simp only [farJumpUsed,Bool.or_eq_true]
      refine .inr (ih (by simpa using hx) ?_)
      rwa [Nat.add_assoc,Nat.add_comm 1 i]

/-- The output stands where the body stands, with the flags of its last comparison. A machine that may have
lost the link register is the same but for that. -/
structure Matches (P : List Insn) (dist : ℕ → ℤ) (c : Config) (t : Cpu × List Line) : Prop where
  same : SameButLr c.machine t.1.machine
  exact : farJumpUsed dist 0 P = false → t.1.machine = c.machine
  flags : ∀ x y, c.cc0 = some (x,y) → t.1.flags = subFlags x y
  rest : t.2 = rest (Insn.text dist) P c.pc

variable {P : List Insn} {dist : ℕ → ℤ} {address : List Line → Word} {c c' : Config} {s : Cpu}
  {ls : List Line} {i dest : ℕ}

/-- What is reached by a branch that is taken: its label, perhaps with another link register. -/
def Taken (P : List Insn) (dist : ℕ → ℤ) (s : Cpu) (dest : ℕ) (t : Cpu × List Line) : Prop :=
  (t.1 = s ∨ farJumpUsed dist 0 P = true ∧ ∃ w, t.1 = { s with machine := s.machine.set lr w }) ∧
    t.2 = rest (Insn.text dist) P dest

/-- The opposite condition goes around a branch. -/
theorem around_taken {reversed : Bool} {cond : Cond} {y : Line}
    (hx : P[i]? = some (.branch reversed cond dest))
    (htext : Insn.text dist i (.branch reversed cond dest) =
      [.bcc (thumbConditionCode cond !reversed) (.around i),y,.label (.around i)])
    (hlabel : y.labelOf = none) (hy : ∀ ls, Taken P dist s dest (next address (listing dist P) (s,y::ls))) :
    Reaches (next address (listing dist P)) (s,rest (Insn.text dist) P i)
      (Taken P dist s (if cond.holds s.flags ≠ reversed then dest else i+1)) := by
  have haround := startingAt_around hx htext hlabel
  rw [rest_of_getElem? _ hx,htext]
  refine Reaches.step ?_
  by_cases htaken : cond.holds s.flags ≠ reversed
  · have hpast : ¬cond.holds s.flags ≠ !reversed := by
      cases hh : cond.holds s.flags <;> cases reversed <;> simp_all
    rw [if_pos htaken,List.cons_append,next,if_neg (mt (passes_iff ..).mp hpast)]
    exact Reaches.step (Reaches.done (hy _))
  · have hpast : cond.holds s.flags ≠ !reversed := by
      cases hh : cond.holds s.flags <;> cases reversed <;> simp_all
    rw [if_neg htaken,List.cons_append,next,if_pos ((passes_iff ..).mpr hpast),haround]
    exact Reaches.step (Reaches.done ⟨.inl rfl,rfl⟩)

/-- A conditional branch reaches its label if it is taken, and otherwise what stands behind it, in each of
its lengths. -/
theorem branch_taken (address : List Line → Word) (s : Cpu) {reversed : Bool} {cond : Cond}
    (hx : P[i]? = some (.branch reversed cond dest)) (hdest : P[dest]? = some .label) :
    Reaches (next address (listing dist P)) (s,rest (Insn.text dist) P i)
      (Taken P dist s (if cond.holds s.flags ≠ reversed then dest else i+1)) := by
  have hlabel := startingAt_label dist hdest
  have hrest := rest_of_getElem? (Insn.text dist) hx
  obtain hform | hform | ⟨hform,hlength⟩ := branch_form reversed (dist i)
  · have htext : Insn.text dist i (.branch reversed cond dest) =
        [.bcc (thumbConditionCode cond reversed) (.insn dest)] := by
      rw [Insn.text,hform]
      rfl
    rw [hrest,htext]
    refine Reaches.step (Reaches.done ?_)
    by_cases htaken : cond.holds s.flags ≠ reversed
    · rw [if_pos htaken,List.cons_append,next,if_pos ((passes_iff ..).mpr htaken)]
      exact ⟨.inl rfl,hlabel⟩
    · rw [if_neg htaken,List.cons_append,next,if_neg (mt (passes_iff ..).mp htaken)]
      exact ⟨.inl rfl,rfl⟩
  · have htext : Insn.text dist i (.branch reversed cond dest) =
        [.bcc (thumbConditionCode cond !reversed) (.around i),.b (.insn dest),.label (.around i)] := by
      rw [Insn.text,hform]
      rfl
    exact around_taken hx htext rfl fun _ => ⟨.inl rfl,hlabel⟩
  · have htext : Insn.text dist i (.branch reversed cond dest) =
        [.bcc (thumbConditionCode cond !reversed) (.around i),.bl (.insn dest),.label (.around i)] := by
      rw [Insn.text,hform]
      rfl
    have hfar : farJumpUsed dist 0 P = true := by
      refine farJumpUsed_of hx ?_
      rw [Nat.zero_add]
      exact decide_eq_true hlength
    exact around_taken hx htext rfl fun _ => ⟨.inr ⟨hfar,_,rfl⟩,hlabel⟩

end Simulation

section Functions

/-- What the body of a function keeps by itself: the stack pointer, the memory above its frame, the
registers that were not saved, and in a leaf function the link register. -/
structure Keeps (f : Frame) (m m' : Machine) : Prop where
  sp_eq : m'.reg sp = m.reg sp
  mem_eq : ∀ k < f.saved.length, m'.mem (up (m.reg sp+BitVec.ofNat 32 f.amount) k) =
    m.mem (up (m.reg sp+BitVec.ofNat 32 f.amount) k)
  reg_eq : ∀ r ∈ [4,5,6,7,8,9,10], f.live r = false → m'.reg r = m.reg r
  lr_eq : f.leaf = true → m'.reg lr = m.reg lr

theorem pushesLr_false {f : Frame} (h : f.pushesLr = false) : f.leaf = true ∧ f.farJump = false := by
  unfold Frame.pushesLr at h
  simp only [Bool.or_eq_false_iff,Bool.not_eq_false'] at h
  exact ⟨h.1.2,h.2⟩

/-- The output for a body that keeps its frame is a body as the epilogue expects it: the prologue has saved
the link register if a branch takes it. -/
theorem Keeps.body {f : Frame} {m m' s : Machine} (h : Keeps f m m') (hsame : SameButLr m' s)
    (hexact : f.farJump = false → s = m') : f.Body m s where
  sp_eq := (hsame.2 sp (by decide)).symm.trans h.sp_eq
  mem_eq k hk := by
    rw [← hsame.1]
    exact h.mem_eq k hk
  reg_eq r hr hlive := by
    have hne : ∀ y ∈ ([4,5,6,7,8,9,10] : List Reg), y ≠ lr := by decide
    exact (hsame.2 r (hne r hr)).symm.trans (h.reg_eq r hr hlive)
  lr_eq hpush := by
    obtain ⟨hleaf,hfar⟩ := pushesLr_false hpush
    rw [hexact hfar]
    exact h.lr_eq hleaf

end Functions

end Jumps
end Thumb
end AgbTools
