import AgbTools.ThumbMachine
import Mathlib.Data.Int.Notation

/-! Addresses of memory operands and the test by which the machine description accepts them. -/
namespace AgbTools
namespace Thumb
namespace Loads

section Model

/-- A term of a sum. -/
inductive Term
  | reg (n : ℕ)
  | int (k : Word)
  | symbol (l : ℕ) (k : Word)
deriving DecidableEq, Repr

inductive Address
  | reg (n : ℕ)
  | postInc (n : ℕ)
  | symbol (l : ℕ) (pool : Bool)
  | label (l : ℕ)
  | const (l : ℕ) (k : Word)
  | plus (a b : Term)
deriving DecidableEq, Repr

def framePointer : ℕ := 7
def stackPointer : ℕ := 13
def argPointer : ℕ := 16
def firstPseudo : ℕ := 17
def virtualStackVars : ℕ := firstPseudo+1

/-- How far register allocation has come. A hard register is its own number or has none. -/
structure Phase where
  strict : Bool
  reloadInProgress : Bool
  reloadCompleted : Bool
  renumber : ℕ → ℤ
  hard : ∀ n, n < firstPseudo → renumber n = -1 ∨ renumber n = n

/-- `(unsigned) reg_renumber[n] < 8`. -/
def Phase.toLow (ph : Phase) (n : ℕ) : Bool := decide (0 ≤ ph.renumber n ∧ ph.renumber n < 8)

/-- `REG_OK_FOR_INDEX_P`. -/
def regOkForIndex (ph : Phase) (n : ℕ) : Bool :=
  if ph.strict then decide (n < 8) || ph.toLow n else decide (n < 8 ∨ firstPseudo ≤ n)

/-- `REG_MODE_OK_FOR_BASE_P`. -/
def regModeOkForBase (ph : Phase) (n size : ℕ) : Bool :=
  if ph.strict then
    decide (n < 8) || ph.toLow n ||
      (decide (4 ≤ size) && (n == stackPointer || ph.renumber n == stackPointer))
  else decide (n < 8 ∨ firstPseudo ≤ n ∨ 4 ≤ size ∧ (n = stackPointer ∨ n = argPointer))

/-- `LEGITIMATE_OFFSET`; the sum is one of `int`s. -/
def legitimateOffset (size : ℕ) (k : Word) : Bool :=
  if size = 1 then decide (k.toNat < 32)
  else if size = 2 then decide (k.toNat < 64 ∧ k &&& 1 = 0)
  else decide (0 ≤ k.toInt ∧ (k+BitVec.ofNat 32 size).toInt ≤ 128 ∧ k &&& 3 = 0)

def Term.registers : Term → List ℕ
  | .reg n => [n]
  | .int _ | .symbol _ _ => []

def Address.registers : Address → List ℕ
  | .reg n | .postInc n => [n]
  | .symbol _ _ | .label _ | .const _ _ => []
  | .plus a b => a.registers++b.registers

/-- The frame, argument and virtual registers, which a narrow access waits for reload to replace. -/
def frameRegisters : List ℕ :=
  [framePointer,argPointer,firstPseudo,virtualStackVars,firstPseudo+2,firstPseudo+3]

/-- `GO_IF_LEGITIMATE_ADDRESS`. -/
def legitimate (ph : Phase) (size : ℕ) (x : Address) : Bool :=
  if size < 4 ∧ ¬(ph.reloadInProgress || ph.reloadCompleted) ∧
      frameRegisters.any (fun n => x.registers.contains n) then false
  else
    match x with
    | .reg n => regModeOkForBase ph n size
    | .symbol _ pool => decide (4 ≤ size) && pool
    | .label _ | .const _ _ => decide (4 ≤ size) && ph.reloadCompleted
    | .postInc n => decide (4 ≤ size) && regOkForIndex ph n
    | .plus (.reg b) (.reg i) =>
      decide (size ≤ 4) && ph.reloadCompleted && b != framePointer && i != framePointer &&
        b != virtualStackVars && i != virtualStackVars && regOkForIndex ph b && regOkForIndex ph i
    | .plus (.reg b) (.int k) =>
      (regOkForIndex ph b || b == argPointer) && legitimateOffset size k ||
        b == stackPointer && decide (4 ≤ size ∧ k.toNat < 1024 ∧ k &&& 3 = 0)
    | .plus _ _ => false

/-- `plus_constant`; a sum of three terms is none of the addresses. -/
def plusConstant (x : Address) (c : Word) : Option Address :=
  if c = 0 then some x
  else
    match x with
    | .reg n => some (.plus (.reg n) (.int c))
    | .symbol l _ | .label l => some (.const l c)
    | .const l k => some (if k+c = 0 then .label l else .const l (k+c))
    | .plus (.reg n) (.int k) => some (if k+c = 0 then .reg n else .plus (.reg n) (.int (k+c)))
    | .plus (.int k) (.reg n) => some (.plus (.int (k+c)) (.reg n))
    | .plus (.symbol l k) (.reg n) => some (.plus (.symbol l (k+c)) (.reg n))
    | .plus (.reg n) (.symbol l k) => some (.plus (.reg n) (.symbol l (k+c)))
    | .plus _ _ | .postInc _ => none

/-- `offsettable_address_p`. -/
def offsettable (ph : Phase) (size : ℕ) (x : Address) : Bool :=
  match x with
  | .symbol _ true => true
  | .postInc _ => false
  | x =>
    match plusConstant x (BitVec.ofNat 32 (size-1)) with
    | some y => legitimate ph 1 y
    | none => false

end Model

section Acceptance

variable {ph : Phase}

/-- A byte's address needs no room beyond itself. -/
theorem offsettable_byte {x : Address} (h : legitimate ph 1 x = true) : offsettable ph 1 x = true := by
  cases x with
  | symbol l pool =>
    cases pool with
    | true => rfl
    | false => exact h
  | postInc n =>
    rw [legitimate] at h
    split at h
    · cases h
    · simp at h
  | reg n => exact h
  | label l => exact h
  | const l k => exact h
  | plus a b => exact h

/-- Narrow accesses are through registers, alone, with an offset or with an index. -/
theorem legitimate_narrow {size : ℕ} {x : Address} (hsize : size < 4) (h : legitimate ph size x = true) :
    (∃ n, x = .reg n) ∨ (∃ n k, x = .plus (.reg n) (.int k)) ∨ ∃ b i, x = .plus (.reg b) (.reg i) := by
  have hnarrow : ¬4 ≤ size := by omega
  unfold legitimate at h
  split at h
  · cases h
  · split at h
    · exact .inl ⟨_,rfl⟩
    · simp [hnarrow] at h
    · simp [hnarrow] at h
    · simp [hnarrow] at h
    · simp [hnarrow] at h
    · exact .inr (.inr ⟨_,_,rfl⟩)
    · exact .inr (.inl ⟨_,_,rfl⟩)
    · cases h

theorem not_toLow {n : ℕ} (hlow : 8 ≤ n) (hn : n < firstPseudo) : ph.toLow n = false := by
  rw [Phase.toLow,decide_eq_false_iff_not]
  obtain hnone | hself := ph.hard n hn
  · omega
  · omega

theorem regOkForIndex_iff {n : ℕ} (hn : n < firstPseudo) : regOkForIndex ph n = true ↔ n < 8 := by
  rw [regOkForIndex]
  split
  · by_cases hlow : n < 8
    · simp [hlow]
    · simp [hlow,not_toLow (Nat.le_of_not_lt hlow) hn]
  · have : ¬firstPseudo ≤ n := by omega
    simp [this]

/-- A sum with a constant is accepted off a register other than the stack pointer by the rule on
offsets, and off the stack pointer by its own. -/
theorem legitimate_offset {size b : ℕ} {k : Word}
    (h : legitimate ph size (.plus (.reg b) (.int k)) = true) :
    (b < 8 ∨ b = argPointer ∨ firstPseudo ≤ b) ∧ legitimateOffset size k = true ∨
      b = stackPointer ∧ 4 ≤ size ∧ k.toNat < 1024 ∧ k &&& 3 = 0 := by
  rw [legitimate] at h
  split at h
  · cases h
  simp only [Bool.or_eq_true,Bool.and_eq_true,beq_iff_eq,decide_eq_true_eq] at h
  obtain ⟨hreg,hoff⟩ | hstack := h
  · left
    refine ⟨?_,hoff⟩
    by_cases hb : b < firstPseudo
    · obtain hindex | harg := hreg
      · exact .inl ((regOkForIndex_iff hb).mp hindex)
      · exact .inr (.inl harg)
    · exact .inr (.inr (Nat.le_of_not_lt hb))
  · exact .inr hstack

end Acceptance

end Loads
end Thumb
end AgbTools
