import Mathlib.Tactic.Ring
import Mathlib.Tactic.Linarith

/-! Quotient digits estimated from the leading digit of a normalized divisor `d1*B+d0`, in any
base `B`: how far the estimate can be off and what the corrections give. -/
namespace AgbTools
namespace LongDivision

variable {B d d0 d1 k m n h q r s : ℕ}

/-- An estimate that is `k` too large, corrected `k` times. -/
theorem div_mod_of_estimate (hsum : n+m = q*d+r) (hk : k ≤ q) (hm : m ≤ r+k*d)
    (hlt : r+k*d < m+d) : n/d = q-k ∧ n%d = r+k*d-m := by
  have hd : 0 < d := by omega
  have hmul : (q-k)*d+k*d = q*d := by
    rw [← Nat.add_mul,Nat.sub_add_cancel hk]
  rw [Nat.div_mod_unique hd]
  refine ⟨?_,by omega⟩
  rw [Nat.mul_comm d]
  omega

/-- Long division by one more digit. -/
theorem div_append_digit (hd : 0 < d) : (n*B+h)/d = n/d*B+(n%d*B+h)/d := by
  have hsplit : n*B+h = d*(n/d*B)+(n%d*B+h) := by
    nth_rewrite 1 [← Nat.div_add_mod n d]
    ring
  rw [hsplit,Nat.mul_add_div hd]

theorem mod_append_digit : (n*B+h)%d = (n%d*B+h)%d := by
  have hsplit : n*B+h = n%d*B+h+d*(n/d*B) := by
    nth_rewrite 1 [← Nat.div_add_mod n d]
    ring
  rw [hsplit,Nat.add_mul_mod_self_left]

theorem digit_lt (hn : n < d) (hh : h < B) : (n*B+h)/d < B := by
  rw [Nat.div_lt_iff_lt_mul (by omega)]
  calc n*B+h < (n+1)*B := by rw [Nat.add_one_mul]; omega
    _ ≤ d*B := Nat.mul_le_mul_right B hn
    _ = B*d := Nat.mul_comm ..

theorem estimate_sum :
    n*B+h+n/d1*d0 = n/d1*(d1*B+d0)+(n%d1*B+h) := by
  have hn := Nat.div_add_mod n d1
  calc n*B+h+n/d1*d0 = (d1*(n/d1)+n%d1)*B+h+n/d1*d0 := by rw [hn]
    _ = n/d1*(d1*B+d0)+(n%d1*B+h) := by ring

theorem rest_lt (hd1 : 0 < d1) (hh : h < B) : n%d1*B+h < d1*B := by
  have hmod : n%d1+1 ≤ d1 := Nat.mod_lt n hd1
  calc n%d1*B+h < (n%d1+1)*B := by rw [Nat.add_one_mul]; omega
    _ ≤ d1*B := Nat.mul_le_mul_right B hmod

/-- The product of an estimated digit with the low digit of the divisor fits in two digits. -/
theorem product_lt (hd1 : B ≤ 2*d1) (hd0 : d0 < B) (hn : n < d1*B+d0) : n/d1*d0 < B*B := by
  have hdigit : n/d1 < B+2 := by
    rw [Nat.div_lt_iff_lt_mul (by omega)]
    calc n < d1*B+d0 := hn
      _ ≤ (B+2)*d1 := by rw [Nat.mul_comm d1,Nat.add_mul]; omega
  obtain ⟨c,rfl⟩ := Nat.exists_eq_add_of_lt hd0
  calc n/d1*d0 ≤ (d0+c+1+1)*(d0+c) := Nat.mul_le_mul (by omega) (by omega)
    _ < (d0+c+1)*(d0+c+1) := by ring_nf; omega

/-- When the dividend keeps clear of the top and the low digit is shifted up as far, one correction
is enough. -/
theorem product_le (hd1 : B ≤ 2*d1) (hq : q*d1 ≤ s*B) (hd0 : d0+s ≤ B) (hpos : 0 < d1) :
    q*d0 ≤ d1*B := by
  have hs : 4*(s*d0) ≤ B*B := by
    obtain ⟨c,rfl⟩ := Nat.exists_eq_add_of_le hd0
    nlinarith [Nat.zero_le c,Nat.zero_le (c*d0),Nat.zero_le (c*s),sq_nonneg ((s : ℤ)-d0)]
  have hsq : B*B ≤ 4*(d1*d1) := by
    calc B*B ≤ 2*d1*(2*d1) := Nat.mul_le_mul hd1 hd1
      _ = 4*(d1*d1) := by ring
  have hcancel : d1*(q*d0) ≤ d1*(d1*B) := by
    calc d1*(q*d0) = q*d1*d0 := by ring
      _ ≤ s*B*d0 := Nat.mul_le_mul_right d0 hq
      _ = s*d0*B := by ring
      _ ≤ d1*d1*B := Nat.mul_le_mul_right B (by omega)
      _ = d1*(d1*B) := by ring
  exact Nat.le_of_mul_le_mul_left hcancel hpos

section Bitwise

variable {x : ℕ}

/-- Division bit by bit: the quotient bits from `k` upward are decided. -/
structure Decided (n d k x q : ℕ) : Prop where
  sum : n = q*d+x
  dvd : 2^k ∣ q
  lt : x < d*2^k

theorem Decided.bit (h : Decided n d (k+1) x q) :
    Decided n d k (if d*2^k ≤ x then x-d*2^k else x) (if d*2^k ≤ x then q+2^k else q) := by
  have hlt := h.lt
  have hdvd : 2^k ∣ q := (pow_dvd_pow 2 (Nat.le_succ k)).trans h.dvd
  rw [pow_succ,← Nat.mul_assoc] at hlt
  by_cases hx : d*2^k ≤ x
  · rw [if_pos hx,if_pos hx]
    refine ⟨?_,Nat.dvd_add hdvd (Nat.dvd_refl _),by omega⟩
    have hsum := h.sum
    rw [Nat.add_mul,Nat.mul_comm (2^k)]
    omega
  · rw [if_neg hx,if_neg hx]
    exact ⟨h.sum,hdvd,by omega⟩

theorem Decided.div_mod (h : Decided n d 0 x q) : n/d = q ∧ n%d = x := by
  have hlt := h.lt
  rw [pow_zero,Nat.mul_one] at hlt
  rw [Nat.div_mod_unique (by omega)]
  refine ⟨?_,hlt⟩
  rw [Nat.mul_comm,Nat.add_comm]
  exact h.sum.symm

/-- Nothing is left to divide: the lower bits are zero. -/
theorem Decided.div_mod_of_zero (h : Decided n d k 0 q) : n/d = q ∧ n%d = 0 := by
  have hd : 0 < d := Nat.pos_of_mul_pos_right h.lt
  rw [Nat.div_mod_unique hd]
  refine ⟨?_,hd⟩
  rw [Nat.mul_comm,Nat.zero_add]
  exact h.sum.symm

theorem Decided.le (h : Decided n d k x q) (hd : 0 < d) : q ≤ n := by
  rw [h.sum]
  exact Nat.le_add_right_of_le (Nat.le_mul_of_pos_right q hd)

/-- Before the first bit. -/
theorem Decided.start (h : n < d*2^k) : Decided n d k n 0 :=
  ⟨by omega,dvd_zero _,h⟩

end Bitwise

end LongDivision
end AgbTools
