import AgbTools.ThumbFrame

/-! The offsets with which reload replaces the argument pointer and the frame pointer, counted by a
macro of its own, against the stack that the prologue builds. -/
namespace AgbTools
namespace Thumb
namespace Frame

/-- The registers that reload eliminates, and what it puts in their place. -/
inductive Pointer
  | argPointer
  | framePointer
  | stackPointer
deriving DecidableEq, Repr

/-- `CALL_USED_REGISTERS`. -/
def callUsed (r : Reg) : Bool :=
  [true,true,true,true,false,false,false,false,false,false,false,true,true,true,true,true].get r

/-- `count_regs` over a range of registers. -/
def countRegs (f : Frame) (rs : List Reg) : ℕ := rs.countP fun r => f.live r && !callUsed r

/-- `INITIAL_ELIMINATION_OFFSET`, in bytes, for replacing one pointer by another. -/
def initialEliminationOffset (f : Frame) (old new : Pointer) : ℕ :=
  let high := f.countRegs [8,9,10,11,12]
  let low := f.countRegs [0,1,2,3,4,5,6,7]
  (if old = .argPointer then
    4*f.frameSize+(if high ≠ 0 then 4*high else 0)+
      (if low ≠ 0 ∨ f.leaf = false ∨ f.farJump = true then 4*(low+1) else 0)
  else 0)+
  (if new = .stackPointer then 4*f.outgoingArgs else 0)

variable {f : Frame}

theorem countRegs_high : f.countRegs [8,9,10,11,12] = f.high.length := by
  have hused : callUsed 8 = false ∧ callUsed 9 = false ∧ callUsed 10 = false ∧
      callUsed 11 = true ∧ callUsed 12 = true := by decide
  simp [countRegs,high,List.countP_cons,List.filter_cons,hused]
  cases f.live 8 <;> cases f.live 9 <;> cases f.live 10 <;> rfl

theorem countRegs_low : f.countRegs [0,1,2,3,4,5,6,7] = f.low.length := by
  have hused : callUsed 0 = true ∧ callUsed 1 = true ∧ callUsed 2 = true ∧ callUsed 3 = true ∧
      callUsed 4 = false ∧ callUsed 5 = false ∧ callUsed 6 = false ∧ callUsed 7 = false := by decide
  simp [countRegs,low,List.countP_cons,List.filter_cons,hused]
  cases f.live 4 <;> cases f.live 5 <;> cases f.live 6 <;> cases f.live 7 <;> rfl

theorem pushesLr_iff : f.pushesLr = true ↔
    f.low.length ≠ 0 ∨ f.leaf = false ∨ f.farJump = true := by
  unfold pushesLr
  rw [Bool.or_eq_true,Bool.or_eq_true,Bool.not_eq_true',Bool.not_eq_true',List.isEmpty_eq_false_iff,
    ← List.length_pos_iff,Nat.pos_iff_ne_zero,or_assoc]

/-- The macro counts what the prologue pushes, the link register included. -/
theorem offset_saved : f.initialEliminationOffset .argPointer .framePointer =
    4*(f.frameSize+f.saved.length) := by
  have hsaved : f.saved.length =
      f.high.length+f.low.length+(if f.pushesLr then [lr] else []).length := by
    rw [saved,List.length_append,List.length_append]
  have hlow : f.pushesLr = false → f.low.length = 0 := by
    intro h
    rw [low_of_pushesLr h]
    rfl
  have hnot : ¬Pointer.framePointer = .stackPointer := by decide
  simp only [initialEliminationOffset,countRegs_high,countRegs_low,if_true,if_neg hnot,hsaved,
    ← pushesLr_iff]
  cases hlr : f.pushesLr with
  | true =>
    simp only [if_true,List.length_singleton]
    split <;> omega
  | false =>
    have := hlow hlr
    simp only [Bool.false_eq_true,if_false,List.length_nil]
    split <;> omega

theorem offset_outgoing : f.initialEliminationOffset .framePointer .stackPointer =
    4*f.outgoingArgs := by
  have hnot : ¬Pointer.framePointer = .argPointer := by decide
  simp only [initialEliminationOffset,if_true,if_neg hnot,Nat.zero_add]

theorem offset_split : f.initialEliminationOffset .argPointer .stackPointer =
    f.initialEliminationOffset .argPointer .framePointer+
      f.initialEliminationOffset .framePointer .stackPointer := by
  simp only [initialEliminationOffset,if_true,if_neg (show ¬Pointer.framePointer = .argPointer by decide),
    if_neg (show ¬Pointer.framePointer = .stackPointer by decide),Nat.zero_add,Nat.add_zero]

/-- Where the caller's stack arguments start: above what is pushed for register arguments. -/
def argPointer (f : Frame) (s₀ : Machine) : Word := s₀.reg sp-BitVec.ofNat 32 (4*f.pretend)

theorem argPointer_prologue (s₀ : Machine) : f.argPointer s₀ =
    (exec f.prologue s₀).1.reg sp+
      BitVec.ofNat 32 (f.initialEliminationOffset .argPointer .stackPointer) := by
  obtain ⟨s,ht,hup,-⟩ := @prologue_through f s₀
  rw [ht.exec,argPointer,← hup,up,Nat.mul_add,BitVec.ofNat_add,← BitVec.add_assoc,
    BitVec.add_sub_cancel,BitVec.add_assoc,← BitVec.ofNat_add,offset_split,offset_saved,offset_outgoing,
    amount]
  congr 2
  omega

theorem framePointer_prologue (hfp : f.framePointer = true) (s₀ : Machine) :
    (exec f.prologue s₀).1.reg 7 = (exec f.prologue s₀).1.reg sp+
      BitVec.ofNat 32 (f.initialEliminationOffset .framePointer .stackPointer) := by
  obtain ⟨s,ht,-,-,-,h7⟩ := @prologue_through f s₀
  rw [ht.exec,offset_outgoing]
  exact h7 hfp

theorem add_sub_self (a b : Word) : a+b-a = b := by
  rw [BitVec.add_comm,BitVec.add_sub_cancel]

/-- The macro agrees with the prologue for every pair of pointers. -/
theorem elimination_offsets (f : Frame) (s₀ : Machine) :
    let s := (exec f.prologue s₀).1
    f.argPointer s₀-s.reg sp =
      BitVec.ofNat 32 (f.initialEliminationOffset .argPointer .stackPointer) ∧
    (f.framePointer = true → f.argPointer s₀-s.reg 7 =
      BitVec.ofNat 32 (f.initialEliminationOffset .argPointer .framePointer)) ∧
    (f.framePointer = true → s.reg 7-s.reg sp =
      BitVec.ofNat 32 (f.initialEliminationOffset .framePointer .stackPointer)) ∧
    f.initialEliminationOffset .framePointer .stackPointer =
      f.initialEliminationOffset .argPointer .stackPointer-
        f.initialEliminationOffset .argPointer .framePointer := by
  intro s
  refine ⟨?_,fun hfp => ?_,fun hfp => ?_,?_⟩
  · rw [argPointer_prologue,add_sub_self]
  · rw [argPointer_prologue,framePointer_prologue hfp,offset_split,BitVec.ofNat_add,
      BitVec.add_comm (BitVec.ofNat 32 _),← BitVec.add_assoc,add_sub_self]
  · rw [framePointer_prologue hfp,add_sub_self]
  · rw [offset_split,Nat.add_sub_cancel_left]

/-- A variadic function with a frame pointer, high registers and stack arguments to pass. -/
def variadicFrame : Frame where
  live r := decide (r = 4 ∨ r = 7 ∨ r = 8)
  leaf := false
  farJump := false
  pretend := 2
  anonymousArgs := true
  frameSize := 3
  outgoingArgs := 2
  framePointer := true
  interwork := false
  ret := .void
  amount_lt := by decide
  framePointer_live := by decide

theorem elimination_offsets_variadic :
    let s₀ : Machine := { reg := fun _ => 0x3007f00, mem := fun _ => 0 }
    let s := (exec variadicFrame.prologue s₀).1
    variadicFrame.argPointer s₀-s.reg sp = 36 ∧ variadicFrame.argPointer s₀-s.reg 7 = 28 := by
  intro s₀ s
  obtain ⟨hstack,hframe,-⟩ := elimination_offsets variadicFrame s₀
  exact ⟨hstack.trans (by decide),(hframe rfl).trans (by decide)⟩

end Frame
end Thumb
end AgbTools
