import Mathlib.Order.Monotone.Basic
import Mathlib.Tactic.Linarith

/-! Linear interpolation in a table of integers, with the fraction counted in parts of `m` and the
product rounded down. -/
namespace AgbTools
namespace Interpolation

def between (m lo hi f : ℤ) : ℤ := lo+f*(hi-lo) / m

section Segment
variable {m lo hi : ℤ} (hm : 0 < m) (h : lo ≤ hi)
include hm h

theorem le_between {f : ℤ} (hf : 0 ≤ f) : lo ≤ between m lo hi f := by
  have hp : 0 ≤ f*(hi-lo) := mul_nonneg hf (by omega)
  have hd := Int.ediv_nonneg hp hm.le
  unfold between
  omega

theorem between_le {f : ℤ} (hf : f ≤ m) : between m lo hi f ≤ hi := by
  have hp : f*(hi-lo) ≤ m*(hi-lo) := mul_le_mul_of_nonneg_right hf (by omega)
  have hd : f*(hi-lo) / m ≤ hi-lo := Int.ediv_le_of_le_mul hm (by linarith)
  unfold between
  omega

theorem between_mono {f g : ℤ} (hfg : f ≤ g) : between m lo hi f ≤ between m lo hi g := by
  have hp : f*(hi-lo) ≤ g*(hi-lo) := mul_le_mul_of_nonneg_right hfg (by omega)
  have hd := Int.ediv_le_ediv hm hp
  unfold between
  omega

end Segment

section Table
variable {v : ℕ → ℤ} {n : ℕ} (step : ∀ k < n, v k ≤ v (k+1))
include step

theorem entry_mono {i j : ℕ} (hij : i ≤ j) (hj : j ≤ n) : v i ≤ v j := by
  induction j, hij using Nat.le_induction with
  | base => exact le_rfl
  | succ j _ ih => exact (ih (by omega)).trans (step j (by omega))

/-- The interpolated table is monotone in the lexicographic order of entry and fraction. -/
theorem lex_mono {m : ℤ} (hm : 0 < m) {i j : ℕ} {f g : ℤ} (hi : i < n) (hj : j < n)
    (hf : f ≤ m) (hg : 0 ≤ g) (h : i < j ∨ i = j ∧ f ≤ g) :
    between m (v i) (v (i+1)) f ≤ between m (v j) (v (j+1)) g := by
  rcases h with hij | ⟨rfl,hfg⟩
  · calc between m (v i) (v (i+1)) f
      _ ≤ v (i+1) := between_le hm (step i hi) hf
      _ ≤ v j := entry_mono step hij hj.le
      _ ≤ between m (v j) (v (j+1)) g := le_between hm (step j hj) hg
  · exact between_mono hm (step i hi) hfg

end Table

end Interpolation
end AgbTools
