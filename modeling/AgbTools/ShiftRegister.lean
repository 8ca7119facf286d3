import Mathlib.Data.BitVec
import Mathlib.Logic.Function.Iterate
import Mathlib.Tactic.Common

/-! Shift registers that fold the dropped bit back: they are linear over exclusive or, and what is
above the mask is shifted out. -/
namespace AgbTools
namespace ShiftRegister

variable {v w : ℕ}

/-- One shift with the mask `p`. -/
def fold (p x : BitVec w) : BitVec w := if x.getLsbD 0 then (x >>> 1) ^^^ p else x >>> 1

/-- Exclusive ors are kept. -/
def XorLinear (f : BitVec w → BitVec v) : Prop := ∀ x y, f (x ^^^ y) = f x ^^^ f y

theorem XorLinear.iterate {f : BitVec w → BitVec w} (h : XorLinear f) (n : ℕ) : XorLinear f^[n] := by
  induction n with
  | zero => intro x y; rfl
  | succ n ih =>
    intro x y
    rw [Function.iterate_succ_apply',ih,h,← Function.iterate_succ_apply' f,
      ← Function.iterate_succ_apply' f]

theorem fold_linear (p : BitVec w) : XorLinear (fold p) := by
  intro x y
  have hcancel : ∀ a b : BitVec w, a ^^^ b = (a ^^^ p) ^^^ (b ^^^ p) := by
    intro a b
    rw [BitVec.xor_assoc,BitVec.xor_comm b,← BitVec.xor_assoc p,BitVec.xor_self,BitVec.zero_xor]
  simp only [fold,BitVec.getLsbD_xor,BitVec.ushiftRight_xor_distrib]
  cases x.getLsbD 0 <;> cases y.getLsbD 0
  · simp
  · simp [BitVec.xor_assoc]
  · simp [BitVec.xor_assoc,BitVec.xor_comm p]
  · simpa using hcancel ..

/-- The register loses a bit, down to those of the mask. -/
theorem fold_lt {p x : BitVec w} {m n : ℕ} (hp : p.toNat < 2^m) (hx : x.toNat < 2^n) :
    (fold p x).toNat < 2^max m (n-1) := by
  have hshift : (x >>> 1).toNat < 2^max m (n-1) := by
    refine lt_of_lt_of_le ?_ (Nat.pow_le_pow_right Nat.two_pos (le_max_right m (n-1)))
    rw [BitVec.toNat_ushiftRight,Nat.shiftRight_eq_div_pow]
    cases n with
    | zero =>
      simp at hx
      simp [hx]
    | succ n =>
      rw [pow_succ] at hx
      simp
      omega
  have hmask : p.toNat < 2^max m (n-1) :=
    hp.trans_le (Nat.pow_le_pow_right Nat.two_pos (le_max_left m (n-1)))
  rw [fold]
  split_ifs
  · rw [BitVec.toNat_xor]
    exact Nat.xor_lt_two_pow hshift hmask
  · exact hshift

theorem fold_iterate_lt {p x : BitVec w} {m n : ℕ} (hp : p.toNat < 2^m) (hx : x.toNat < 2^n) (k : ℕ) :
    ((fold p)^[k] x).toNat < 2^max m (n-k) := by
  induction k with
  | zero => simpa using hx.trans_le (Nat.pow_le_pow_right Nat.two_pos (le_max_right m n))
  | succ k ih =>
    rw [Function.iterate_succ_apply']
    have hfold := fold_lt hp ih
    rwa [show max m (max m (n-k)-1) = max m (n-(k+1)) by omega] at hfold

end ShiftRegister
end AgbTools
