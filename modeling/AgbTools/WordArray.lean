import Mathlib.Data.BitVec
import Mathlib.Logic.Function.Basic
import Mathlib.Tactic.Common

/-! Arrays of equal-sized cells in a memory with fixed-width addresses. -/
namespace AgbTools
namespace WordArray

variable {w : ℕ} {α : Type*}

/-- Address of cell `i`, for cells of `k` bytes. -/
def slot (k : ℕ) (base : BitVec w) (i : ℕ) : BitVec w := base + BitVec.ofNat w (k*i)

theorem slot_zero (k : ℕ) (base : BitVec w) : slot k base 0 = base := by simp [slot]

theorem slot_add (k : ℕ) (base : BitVec w) (i j : ℕ) :
    slot k base (i+j) = slot k base i + BitVec.ofNat w (k*j) := by
  rw [slot,slot,Nat.mul_add,BitVec.ofNat_add,BitVec.add_assoc]

/-- Distinct cells below the address space have distinct addresses. -/
theorem slot_injective {k : ℕ} (hk : 0 < k) {base : BitVec w} {i j : ℕ} (hi : k*i < 2^w)
    (hj : k*j < 2^w) (h : slot k base i = slot k base j) : i = j := by
  have h' : BitVec.ofNat w (k*i) = BitVec.ofNat w (k*j) := by
    have := congrArg (fun x => x - base) h
    simpa [slot,BitVec.add_comm base,BitVec.add_sub_cancel] using this
  have hn := congrArg BitVec.toNat h'
  rw [BitVec.toNat_ofNat,BitVec.toNat_ofNat,Nat.mod_eq_of_lt hi,Nat.mod_eq_of_lt hj] at hn
  exact Nat.eq_of_mul_eq_mul_left hk hn

theorem slot_toNat {k : ℕ} {base : BitVec w} {i : ℕ} (h : base.toNat + k*i < 2^w) :
    (slot k base i).toNat = base.toNat + k*i := by
  rw [slot,BitVec.toNat_add,BitVec.toNat_ofNat,Nat.mod_eq_of_lt (by omega : k*i < 2^w),
    Nat.mod_eq_of_lt h]

/-- The memory holds the list, cell by cell. -/
def Holds (k : ℕ) (base : BitVec w) (mem : BitVec w → α) (xs : List α) : Prop :=
  ∀ i (h : i < xs.length), mem (slot k base i) = xs[i]

theorem holds_nil (k : ℕ) (base : BitVec w) (mem : BitVec w → α) : Holds k base mem [] := by
  intro i h
  exact absurd h (by simp)

section Update
variable {k : ℕ} {base : BitVec w} {mem : BitVec w → α} {xs : List α}

/-- Storing behind the last cell appends. -/
theorem Holds.push (h : Holds k base mem xs) (hk : 0 < k) (hlen : k*xs.length < 2^w) (x : α) :
    Holds k base (Function.update mem (slot k base xs.length) x) (xs++[x]) := by
  intro i hi
  rw [List.length_append,List.length_singleton] at hi
  by_cases he : i = xs.length
  · subst he
    simp
  · have hlt : i < xs.length := by omega
    have hne : slot k base i ≠ slot k base xs.length := by
      intro heq
      exact he (slot_injective hk (lt_of_le_of_lt (Nat.mul_le_mul_left k hlt.le) hlen) hlen heq)
    rw [Function.update_of_ne hne,h i hlt,List.getElem_append_left hlt]

/-- Storing into a cell replaces its entry only. -/
theorem Holds.replace (h : Holds k base mem xs) (hk : 0 < k) (hlen : k*xs.length < 2^w) {j : ℕ}
    (hj : j < xs.length) (x : α) :
    Holds k base (Function.update mem (slot k base j) x) (xs.set j x) := by
  intro i hi
  rw [List.length_set] at hi
  have hbound : ∀ n, n < xs.length → k*n < 2^w := fun n hn =>
    lt_of_le_of_lt (Nat.mul_le_mul_left k hn.le) hlen
  by_cases he : i = j
  · subst he
    simp
  · have hne : slot k base i ≠ slot k base j := fun heq =>
      he (slot_injective hk (hbound i hi) (hbound j hj) heq)
    rw [Function.update_of_ne hne,h i hi,List.getElem_set_ne (Ne.symm he)]

end Update

end WordArray
end AgbTools
