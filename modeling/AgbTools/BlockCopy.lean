import Mathlib.Data.BitVec
import Mathlib.Logic.Function.Basic
import Mathlib.Tactic.Common

/-! Cells copied from one place of a memory with fixed-width addresses to another one. -/
namespace AgbTools
namespace BlockCopy

variable {w : ℕ} {α : Type*} {mem : BitVec w → α} {o i : BitVec w} {k n total : ℕ}

/-- `n` cells from `i` on, copied to `o`. -/
def copy (mem : BitVec w → α) (o i : BitVec w) (n : ℕ) : BitVec w → α :=
  fun a => if (a-o).toNat < n then mem (i+(a-o)) else mem a

/-- No cell is in both blocks. -/
def Apart (o i : BitVec w) (n : ℕ) : Prop := ∀ a, (a-i).toNat < n → ¬(a-o).toNat < n

@[simp] theorem copy_zero (mem : BitVec w → α) (o i : BitVec w) : copy mem o i 0 = mem := by
  funext a
  simp [copy]

theorem copy_same (mem : BitVec w → α) (o : BitVec w) (n : ℕ) : copy mem o o n = mem := by
  funext a
  rw [copy,add_sub_cancel,ite_self]

theorem offset_toNat (h : k < 2^w) : (o+BitVec.ofNat w k-o).toNat = k := by
  rw [add_sub_cancel_left,BitVec.toNat_ofNat,Nat.mod_eq_of_lt h]

/-- One more cell behind a copied block. -/
theorem update_copy (h : n < 2^w) :
    Function.update (copy mem o i n) (o+BitVec.ofNat w n) (mem (i+BitVec.ofNat w n)) = copy mem o i (n+1) := by
  funext a
  by_cases ha : a = o+BitVec.ofNat w n
  · subst ha
    have hin : (o+BitVec.ofNat w n-o).toNat < n+1 := by
      rw [offset_toNat h]
      exact Nat.lt_succ_self n
    rw [Function.update_self,copy,if_pos hin,add_sub_cancel_left]
  · have hne : (a-o).toNat ≠ n := by
      intro heq
      apply ha
      rw [← heq,BitVec.ofNat_toNat,BitVec.setWidth_eq]
      exact (add_sub_cancel o a).symm
    rw [Function.update_of_ne ha,copy,copy]
    congr 1
    exact propext ⟨Nat.lt_succ_of_lt,fun h => Nat.lt_of_le_of_ne (Nat.le_of_lt_succ h) hne⟩

/-- What is still to be copied has not been changed. -/
theorem copy_source (hapart : o = i ∨ Apart o i total) (hk : n ≤ total) (h : k < total) (hw : total ≤ 2^w) :
    copy mem o i n (i+BitVec.ofNat w k) = mem (i+BitVec.ofNat w k) := by
  obtain rfl | hapart := hapart
  · rw [copy_same]
  refine if_neg fun hin => hapart (i+BitVec.ofNat w k) ?_ (Nat.lt_of_lt_of_le hin hk)
  rw [offset_toNat (Nat.lt_of_lt_of_le h hw)]
  exact h

end BlockCopy
end AgbTools
