import Mathlib.Algebra.Order.Ring.Nat
import Mathlib.Tactic.Ring
import Mathlib.Tactic.Linarith

/-! Items laid out one after the other, each aligned to a power of two and followed by a gap. How far
apart two of them lie depends on where the first one starts; a worst case does not. -/
namespace AgbTools
namespace PaddedLayout

section RoundUp

variable {s t k j : ℕ}

/-- The next multiple of `2^k`. -/
def roundUp (s k : ℕ) : ℕ := (s+(2^k-1))/2^k*2^k

theorem two_pow_dvd_roundUp (s k : ℕ) : 2^k ∣ roundUp s k := Nat.dvd_mul_left ..

theorem roundUp_add_mod (s k : ℕ) : roundUp s k+(s+(2^k-1))%2^k = s+(2^k-1) := by
  have := Nat.div_add_mod (s+(2^k-1)) (2^k)
  rwa [Nat.mul_comm] at this

theorem le_roundUp (s k : ℕ) : s ≤ roundUp s k := by
  have h := roundUp_add_mod s k
  have hlt := Nat.mod_lt (s+(2^k-1)) (Nat.two_pow_pos k)
  omega

theorem roundUp_mono (h : s ≤ t) : roundUp s k ≤ roundUp t k :=
  Nat.mul_le_mul_right _ (Nat.div_le_div_right (by omega))

theorem roundUp_of_dvd (h : 2^k ∣ s) : roundUp s k = s := by
  obtain ⟨m,rfl⟩ := h
  have hpos := Nat.two_pow_pos k
  rw [roundUp,Nat.mul_add_div hpos,Nat.div_eq_of_lt (by omega),Nat.add_zero,Nat.mul_comm]

theorem roundUp_add_of_dvd (h : 2^k ∣ t) : roundUp (t+s) k = t+roundUp s k := by
  obtain ⟨m,rfl⟩ := h
  rw [roundUp,roundUp,Nat.add_assoc,Nat.mul_add_div (Nat.two_pow_pos k),Nat.add_mul,Nat.mul_comm m]

end RoundUp

section Slack

variable {s k j : ℕ}

/-- How much larger the padding before a multiple of `2^j` can be, when only the address modulo
`2^k` is known. -/
def slack (k j s : ℕ) : ℕ := (s+(2^j-1))%2^j/2^k*2^k

/-- Padding and slack together depend on the address modulo `2^k` only. -/
theorem roundUp_add_slack (h : k ≤ j) : roundUp s j+slack k j s+2^k = roundUp s k+2^j := by
  have hj := roundUp_add_mod s j
  have hk := roundUp_add_mod s k
  have hpk := Nat.two_pow_pos k
  have hpj := Nat.two_pow_pos j
  have hsplit := Nat.div_add_mod ((s+(2^j-1))%2^j) (2^k)
  rw [Nat.mul_comm,Nat.mod_mod_of_dvd _ (pow_dvd_pow 2 h)] at hsplit
  have hsame : (s+(2^j-1))%2^k = (s+(2^k-1))%2^k := by
    obtain ⟨m,hm⟩ := pow_dvd_pow 2 h
    have hle : 1 ≤ m := by
      by_contra h0
      obtain rfl : m = 0 := by omega
      omega
    have hsum : s+(2^j-1) = s+(2^k-1)+2^k*(m-1) := by
      rw [hm,Nat.mul_sub_one]
      have : 2^k ≤ 2^k*m := Nat.le_mul_of_pos_right _ hle
      omega
    rw [hsum,Nat.add_mul_mod_self_left]
  rw [hsame] at hsplit
  unfold slack
  omega

end Slack

section Distance

variable (log gap : ℕ → ℕ)

/-- The address of item `i+n` when item `i` is reached at `s`. -/
def place (s i : ℕ) : ℕ → ℕ
  | 0 => roundUp s (log i)
  | n+1 => place (roundUp s (log i)+gap i) (i+1) n

/-- The slack collected on the way, at the items that are aligned to more than any before. Up to the
first of them the address is known modulo `2^k`. -/
def fuzz (m k s i : ℕ) : ℕ → ℕ
  | 0 => if m < log i then slack k (log i) s else 0
  | n+1 =>
    if m < log i then slack k (log i) s+fuzz (log i) (log i) (roundUp s (log i)+gap i) (i+1) n
    else fuzz m k (roundUp s (log i)+gap i) (i+1) n

/-- The distance in the worst case, from `c` behind a multiple of `2^m` and of `2^k`. -/
def worst (m k c i : ℕ) : ℕ → ℕ
  | 0 => if m < log i then roundUp c k+(2^log i-2^k) else roundUp c (log i)
  | n+1 =>
    if m < log i then roundUp c k+(2^log i-2^k)+worst (log i) (log i) (gap i) (i+1) n
    else worst m k (roundUp c (log i)+gap i) (i+1) n

variable {log gap}

/-- Distance and fuzz add up to the worst case, wherever the first item is. -/
theorem place_add_fuzz (n : ℕ) : ∀ {m k b : ℕ} (c i : ℕ), 2^m ∣ b → 2^k ∣ b → k ≤ m+1 →
    place log gap (b+c) i n+fuzz log gap m k (b+c) i n = b+worst log gap m k c i n := by
  have hjump : ∀ {k b j : ℕ} (c : ℕ), 2^k ∣ b → k ≤ j →
      roundUp (b+c) j+slack k j (b+c) = b+(roundUp c k+(2^j-2^k)) := by
    intro k b j c hb hkj
    have hslack := @roundUp_add_slack (b+c) k j hkj
    have hle : 2^k ≤ 2^j := Nat.pow_le_pow_right (by omega) hkj
    rw [roundUp_add_of_dvd hb] at hslack
    omega
  induction n with
  | zero =>
    intro m k b c i hm hk hkm
    by_cases h : m < log i
    · simp only [place,fuzz,worst,if_pos h]
      exact hjump c hk (by omega)
    · simp only [place,fuzz,worst,if_neg h,Nat.add_zero]
      exact roundUp_add_of_dvd ((pow_dvd_pow 2 (by omega)).trans hm)
  | succ n ih =>
    intro m k b c i hm hk hkm
    by_cases h : m < log i
    · simp only [place,fuzz,worst,if_pos h]
      have hrest := ih (gap i) (i+1) (two_pow_dvd_roundUp (b+c) (log i))
        (two_pow_dvd_roundUp (b+c) (log i)) (Nat.le_succ _)
      have hstep := hjump c hk (show k ≤ log i by omega)
      omega
    · simp only [place,fuzz,worst,if_neg h]
      rw [roundUp_add_of_dvd ((pow_dvd_pow 2 (by omega : log i ≤ m)).trans hm),Nat.add_assoc]
      exact ih _ (i+1) hm hk hkm

theorem worst_mono {gap' : ℕ → ℕ} (n : ℕ) : ∀ {m k c c' i : ℕ}, c ≤ c' →
    (∀ j, i ≤ j → j < i+n → gap j ≤ gap' j) →
    worst log gap m k c i n ≤ worst log gap' m k c' i n := by
  induction n with
  | zero =>
    intro m k c c' i hc _
    simp only [worst]
    split
    · exact Nat.add_le_add_right (roundUp_mono hc) _
    · exact roundUp_mono hc
  | succ n ih =>
    intro m k c c' i hc hgap
    have hi := hgap i (Nat.le_refl i) (by omega)
    have hrest : ∀ j, i+1 ≤ j → j < i+1+n → gap j ≤ gap' j := fun j hj hj' =>
      hgap j (by omega) (by omega)
    simp only [worst]
    split
    · exact Nat.add_le_add (Nat.add_le_add_right (roundUp_mono hc) _) (ih hi hrest)
    · exact ih (Nat.add_le_add (roundUp_mono hc) hi) hrest

end Distance

end PaddedLayout
end AgbTools
