import AgbTools.ThumbMachine

/-! Thumb assembly listings with labels, flags and branches. A listing is run by what is left of it;
a branch goes on behind the label it names. -/
namespace AgbTools
namespace Thumb
namespace Program

/-- The registers the routines touch. -/
inductive Register
  | r0 | r1 | r2 | r3 | r4 | ip | sp | lr
deriving DecidableEq, Repr

structure Flags where
  n : Bool
  z : Bool
  c : Bool
deriving DecidableEq, Repr

/-- Registers, flags and memory, and how often the division-by-zero handler was called. -/
structure Cpu where
  r0 : Word
  r1 : Word
  r2 : Word
  r3 : Word
  r4 : Word
  ip : Word
  sp : Word
  lr : Word
  flags : Flags
  mem : Word → Word
  div0 : ℕ

def Cpu.get (s : Cpu) : Register → Word
  | .r0 => s.r0
  | .r1 => s.r1
  | .r2 => s.r2
  | .r3 => s.r3
  | .r4 => s.r4
  | .ip => s.ip
  | .sp => s.sp
  | .lr => s.lr

def Cpu.set (s : Cpu) (w : Word) : Register → Cpu
  | .r0 => { s with r0 := w }
  | .r1 => { s with r1 := w }
  | .r2 => { s with r2 := w }
  | .r3 => { s with r3 := w }
  | .r4 => { s with r4 := w }
  | .ip => { s with ip := w }
  | .sp => { s with sp := w }
  | .lr => { s with lr := w }

inductive Line (L : Type)
  | label (l : L)
  | cmp (a b : Register)
  | cmpImm (a : Register) (w : Word)
  | tst (a b : Register)
  | movImm (d : Register) (w : Word)
  | mov (d r : Register)
  | lsl (d r : Register) (k : ℕ)
  | lsr (d r : Register) (k : ℕ)
  | ror (d r : Register)
  | add (d a b : Register)
  | sub (d a b : Register)
  | orr (d r : Register)
  | eor (d r : Register)
  | and (d r : Register)
  | neg (d r : Register)
  | push (r : Register)
  | pop (r : Register)
  | b (l : L)
  | beq (l : L)
  | bne (l : L)
  | bcc (l : L)
  | bcs (l : L)
  | bpl (l : L)
  | blDiv0
  | ret
  | popPc
deriving DecidableEq, Repr

section Semantics

/-- The flags of a comparison, which are those of the subtraction. -/
def subFlags (x y : Word) : Flags := { n := (x-y).msb, z := decide (x = y), c := decide (y ≤ x) }

/-- The flags of an instruction that leaves the carry alone. -/
def Flags.result (f : Flags) (w : Word) : Flags := { f with n := w.msb, z := decide (w = 0) }

def Cpu.write (s : Cpu) (d : Register) (w : Word) (c : Bool) : Cpu :=
  { s.set w d with flags := { n := w.msb, z := decide (w = 0), c := c } }

def Cpu.writeKeep (s : Cpu) (d : Register) (w : Word) : Cpu :=
  { s.set w d with flags := s.flags.result w }

def Register.low : Register → Bool
  | .r0 | .r1 | .r2 | .r3 | .r4 => true
  | .ip | .sp | .lr => false

inductive Status (L : Type)
  | running (code : List (Line L)) (s : Cpu)
  | returned (pc : Word) (s : Cpu)
  | stuck

variable {L : Type} [DecidableEq L]

/-- The code behind a label. -/
def seek (l : L) : List (Line L) → Option (List (Line L))
  | [] => none
  | x::code => if x = .label l then some code else seek l code

def goto (prog : List (Line L)) (l : L) (s : Cpu) : Status L :=
  match seek l prog with
  | some code => .running code s
  | none => .stuck

def branch (prog : List (Line L)) (taken : Bool) (l : L) (code : List (Line L)) (s : Cpu) : Status L :=
  if taken then goto prog l s else .running code s

/-- One line. The handler `__div0` is a bare return: a call of it comes back with only the link
register changed, to the address behind the call. -/
def step (prog : List (Line L)) (link : Word) : List (Line L) → Cpu → Status L
  | [], _ => .stuck
  | x::code, s =>
    match x with
    | .label _ => .running code s
    | .cmp a b => .running code { s with flags := subFlags (s.get a) (s.get b) }
    | .cmpImm a w => .running code { s with flags := subFlags (s.get a) w }
    | .tst a b => .running code { s with flags := s.flags.result (s.get a &&& s.get b) }
    | .movImm d w => .running code (s.writeKeep d w)
    | .mov d r =>
      -- between low registers this is an addition of zero
      .running code (if d.low && r.low then s.write d (s.get r) false else s.set (s.get r) d)
    -- an immediate shift count is 1..31
    | .lsl d r k => .running code (s.write d (s.get r <<< k) ((s.get r).getLsbD (32-k)))
    | .lsr d r k => .running code (s.write d (s.get r >>> k) ((s.get r).getLsbD (k-1)))
    | .ror d r =>
      let k := (s.get r).toNat%256
      .running code (if k = 0 then s.writeKeep d (s.get d)
        else s.write d ((s.get d).rotateRight k) ((s.get d).rotateRight k).msb)
    | .add d a b => .running code (s.write d (s.get a+s.get b) (decide (s.get a+s.get b < s.get a)))
    | .sub d a b => .running code (s.write d (s.get a-s.get b) (decide (s.get b ≤ s.get a)))
    | .orr d r => .running code (s.writeKeep d (s.get d ||| s.get r))
    | .eor d r => .running code (s.writeKeep d (s.get d ^^^ s.get r))
    | .and d r => .running code (s.writeKeep d (s.get d &&& s.get r))
    | .neg d r => .running code (s.write d (-s.get r) (decide (s.get r = 0)))
    | .push r =>
      .running code { s with sp := s.sp-4, mem := Function.update s.mem (s.sp-4) (s.get r) }
    | .pop r => .running code { s.set (s.mem s.sp) r with sp := s.sp+4 }
    | .b l => goto prog l s
    | .beq l => branch prog s.flags.z l code s
    | .bne l => branch prog (!s.flags.z) l code s
    | .bcc l => branch prog (!s.flags.c) l code s
    | .bcs l => branch prog s.flags.c l code s
    | .bpl l => branch prog (!s.flags.n) l code s
    | .blDiv0 => .running code { s with lr := link, div0 := s.div0+1 }
    | .ret => .returned s.lr s
    | .popPc => .returned (s.mem s.sp) { s with sp := s.sp+4 }

def run (prog : List (Line L)) (link : Word) : ℕ → Status L → Status L
  | 0, st => st
  | n+1, .running code s => run prog link n (step prog link code s)
  | _+1, st => st

/-- The run gets from one state to the other. -/
def Leads (prog : List (Line L)) (link : Word) (st st' : Status L) : Prop :=
  ∃ n, run prog link n st = st'

end Semantics

section Rules

variable {L : Type} [DecidableEq L] {prog : List (Line L)} {link : Word}

theorem run_returned (n : ℕ) (pc : Word) (s : Cpu) :
    run prog link n (.returned pc s) = .returned pc s := by
  cases n <;> rfl

theorem run_stuck (n : ℕ) : run prog link n (.stuck : Status L) = .stuck := by
  cases n <;> rfl

theorem run_add (m n : ℕ) (st : Status L) :
    run prog link (m+n) st = run prog link n (run prog link m st) := by
  induction m generalizing st with
  | zero => rw [Nat.zero_add]; rfl
  | succ m ih =>
    rw [Nat.add_right_comm]
    cases st with
    | running code s => exact ih _
    | returned pc s => rw [run_returned,run_returned,run_returned]
    | stuck => rw [run_stuck,run_stuck,run_stuck]

theorem Leads.trans {st st' st'' : Status L} (h : Leads prog link st st')
    (h' : Leads prog link st' st'') : Leads prog link st st'' := by
  obtain ⟨m,hm⟩ := h
  obtain ⟨n,hn⟩ := h'
  exact ⟨m+n,by rw [run_add,hm,hn]⟩

theorem goto_of_seek {l : L} {code : List (Line L)} (h : seek l prog = some code) (s : Cpu) :
    goto prog l s = .running code s := by
  rw [goto,h]

theorem branch_taken {taken : Bool} {l : L} {code target : List (Line L)}
    (h : seek l prog = some target) (ht : taken = true) (s : Cpu) :
    branch prog taken l code s = .running target s := by
  rw [branch,if_pos ht,goto_of_seek h]

theorem branch_not_taken {taken : Bool} {l : L} {code : List (Line L)} (ht : taken = false)
    (s : Cpu) : branch prog taken l code s = .running code s := by
  rw [branch,ht]
  rfl

end Rules

end Program
end Thumb
end AgbTools
