import Mathlib.Algebra.Order.Ring.Rat
import AgbTools.NearestEven
import AgbTools.SoftFloat

/-! What the bit patterns of a format stand for, and what IEEE 754 asks of a sum and of a product. -/
namespace AgbTools
namespace SoftFloat

open Nearest

section Patterns

variable (F : Format)

/-- The exponent and fraction fields of an infinity, taken as one number; the patterns of the finite
numbers lie below it and those of the NaNs above. -/
def Format.infinity : ℕ := F.expMax*2^F.fracBits

inductive Datum
  | nan
  | inf (negative : Bool)
  | finite (negative : Bool) (m : ℕ)
deriving DecidableEq, Repr

def datum (sign : Bool) (m : ℕ) : Datum :=
  if m < F.infinity then .finite sign m else if m = F.infinity then .inf sign else .nan

def rawSign (x : Flo F) : Bool :=
  decide (F.wordOrder (BitVec.toNat x)/2^(F.fracBits+F.expBits)%2 = 1)

def rawMagnitude (x : Flo F) : ℕ := F.wordOrder (BitVec.toNat x)%2^(F.fracBits+F.expBits)

def decode (x : Flo F) : Datum := datum F (rawSign F x) (rawMagnitude F x)

/-- The number that exponent and fraction fields stand for; past the infinity it goes on as if the
exponent had no bound. -/
def magnitude (m : ℕ) : ℚ :=
  if m < 2^F.fracBits then m*2^(F.normalExpMin-F.fracBits)
  else (2^F.fracBits+(m%2^F.fracBits : ℕ))*2^((m/2^F.fracBits : ℕ)-(F.expBias : ℤ)-F.fracBits)

def applySign (sign : Bool) (q : ℚ) : ℚ := if sign then -q else q

def value (sign : Bool) (m : ℕ) : ℚ := applySign sign (magnitude F m)

/-- The smallest normal number. -/
def minNormal : ℚ := 2^F.normalExpMin

/-- Rounded to nearest, ties to even, as if the exponent had no bound; infinity if the result is
then too large for the format. -/
def Rounded (x : ℚ) (r : Datum) : Prop :=
  ∃ m, NearestEven (magnitude F) |x| m ∧
    r = if m < F.infinity then .finite (decide (x < 0)) m else .inf (decide (x < 0))

/-- The sum of two data, for finite ones where it is zero or at least the smallest normal number. -/
def IeeeSum : Datum → Datum → Datum → Prop
  | .nan, _, r => r = .nan
  | _, .nan, r => r = .nan
  | .inf s, .inf t, r => r = if s = t then .inf s else .nan
  | .inf s, .finite _ _, r => r = .inf s
  | .finite _ _, .inf t, r => r = .inf t
  | .finite s m, .finite t n, r =>
    if m = 0 ∧ n = 0 then r = .finite (s && t) 0
    else if m = 0 then r = .finite t n
    else if n = 0 then r = .finite s m
    else
      (value F s m+value F t n = 0 → r = .finite false 0) ∧
        (minNormal F ≤ |value F s m+value F t n| → Rounded F (value F s m+value F t n) r)

def IeeeProduct : Datum → Datum → Datum → Prop
  | .nan, _, r => r = .nan
  | _, .nan, r => r = .nan
  | .inf s, .inf t, r => r = .inf (s != t)
  | .inf s, .finite t n, r => r = if n = 0 then .nan else .inf (s != t)
  | .finite s m, .inf t, r => r = if m = 0 then .nan else .inf (s != t)
  | .finite s m, .finite t n, r =>
    if m = 0 ∨ n = 0 then r = .finite (s != t) 0
    else minNormal F ≤ |value F s m*value F t n| → Rounded F (value F s m*value F t n) r

def IeeeQuotient : Datum → Datum → Datum → Prop
  | .nan, _, r => r = .nan
  | _, .nan, r => r = .nan
  | .inf _, .inf _, r => r = .nan
  | .inf s, .finite t _, r => r = .inf (s != t)
  | .finite s _, .inf t, r => r = .finite (s != t) 0
  | .finite s m, .finite t n, r =>
    if m = 0 ∧ n = 0 then r = .nan
    else if n = 0 then r = .inf (s != t)
    else if m = 0 then r = .finite (s != t) 0
    else minNormal F ≤ |value F s m/value F t n| → Rounded F (value F s m/value F t n) r

/-- The datum of the other sign. -/
def Datum.neg : Datum → Datum
  | .nan => .nan
  | .inf s => .inf !s
  | .finite s m => .finite (!s) m

end Patterns

section Constants

variable (F : Format)

/-- The place of the leading one in a fraction. -/
def Format.point : ℕ := F.fracBits+F.ngards

theorem implicit1_eq : F.implicit1 = 2^F.point := by cases F <;> rfl

theorem implicit2_eq : F.implicit2 = 2^(F.point+1) := by cases F <;> rfl

theorem pow_point : 2^F.point = 2^F.fracBits*2^F.ngards := pow_add ..

theorem pow_point_succ : 2^(F.point+1) = 2^(F.fracBits+1)*2^F.ngards := by
  rw [Format.point,← pow_add]
  congr 1
  omega

theorem gardMsb_eq : F.gardMsb = 2^(F.ngards-1) := by cases F <;> rfl

theorem gardRound_eq : F.gardRound+1 = 2^(F.ngards-1) := by cases F <;> rfl

theorem gardMask_eq : F.gardMask = 2^F.ngards-1 := by cases F <;> rfl

theorem two_half : 2*2^(F.ngards-1) = 2^F.ngards := by cases F <;> rfl

theorem expMax_eq : F.expMax+1 = 2^F.expBits := by cases F <;> rfl

theorem expMax_bias : F.expMax = 2*F.expBias+1 := by cases F <;> rfl

theorem width_eq : F.fracBits+F.expBits+1 = F.fracNBits := by cases F <;> rfl

theorem point_lt : F.point+2 ≤ F.fracNBits := by cases F <;> decide

theorem ngards_ge : 7 ≤ F.ngards := by cases F <;> decide

theorem fracBits_pos : 0 < F.fracBits := by cases F <;> decide

theorem fracBits_le : F.fracBits ≤ F.fracNBits-F.ngards := by cases F <;> decide

theorem quietNan_lt : F.quietNan < 2^F.fracBits := by cases F <;> decide

theorem quietNan_pos : F.quietNan ≠ 0 := by cases F <;> decide

theorem one_le_bias : 1 ≤ F.expBias := by cases F <;> decide

theorem even_pow_fracBits : Even (2^F.fracBits) := by cases F <;> decide

end Constants

section Grid

variable (F : Format)

theorem pow_mul_zpow (k : ℕ) (z : ℤ) : (2 : ℚ)^k*2^z = 2^(k+z) := by
  rw [← zpow_natCast,← zpow_add₀ two_ne_zero]

theorem magnitude_normal (c r : ℕ) (hr : r < 2^F.fracBits) :
    magnitude F ((c+1)*2^F.fracBits+r) =
      (2^F.fracBits+r)*2^(c+F.normalExpMin-F.fracBits : ℤ) := by
  have hpos : 0 < 2^F.fracBits := Nat.two_pow_pos _
  have hdiv : ((c+1)*2^F.fracBits+r)/2^F.fracBits = c+1 := by
    rw [Nat.add_comm,Nat.add_mul_div_right _ _ hpos,Nat.div_eq_of_lt hr,Nat.zero_add]
  have hmod : ((c+1)*2^F.fracBits+r)%2^F.fracBits = r := by
    rw [Nat.add_comm,Nat.add_mul_mod_self_right,Nat.mod_eq_of_lt hr]
  have hge : ¬(c+1)*2^F.fracBits+r < 2^F.fracBits := by
    rw [Nat.succ_mul]
    omega
  rw [magnitude,if_neg hge,hdiv,hmod]
  congr 2
  rw [Format.normalExpMin]
  push_cast
  ring

/-- From one power of two to the next the numbers are the multiples of one unit. -/
theorem magnitude_grid (c q : ℕ) (hlow : 2^F.fracBits ≤ q) (hhigh : q ≤ 2^(F.fracBits+1)) :
    magnitude F (c*2^F.fracBits+q) = q*2^(c+F.normalExpMin-F.fracBits : ℤ) := by
  obtain ⟨r,rfl⟩ := Nat.exists_eq_add_of_le hlow
  rw [pow_succ] at hhigh
  have hsum : c*2^F.fracBits+(2^F.fracBits+r) = (c+1)*2^F.fracBits+r := by ring
  rcases Nat.lt_or_ge r (2^F.fracBits) with hr | hr
  · rw [hsum,magnitude_normal F c r hr]
    push_cast
    rfl
  · -- the next power of two itself
    obtain rfl : r = 2^F.fracBits := by omega
    have htop : c*2^F.fracBits+(2^F.fracBits+2^F.fracBits) = (c+1+1)*2^F.fracBits+0 := by ring
    rw [htop,magnitude_normal F (c+1) 0 (Nat.two_pow_pos _)]
    have hexp : ((c+1 : ℕ)+F.normalExpMin-F.fracBits : ℤ) = (c+F.normalExpMin-F.fracBits)+1 := by
      push_cast
      ring
    rw [hexp,zpow_add_one₀ two_ne_zero]
    push_cast
    ring

theorem magnitude_subnormal {m : ℕ} (hm : m ≤ 2^F.fracBits) :
    magnitude F m = m*2^(F.normalExpMin-F.fracBits : ℤ) := by
  rcases Nat.lt_or_eq_of_le hm with hlt | rfl
  · rw [magnitude,if_pos hlt]
  · have hgrid := magnitude_grid F 0 (2^F.fracBits) (Nat.le_refl _)
      (Nat.pow_le_pow_right two_pos (Nat.le_succ _))
    rw [Nat.zero_mul,Nat.zero_add,Nat.cast_zero,zero_add] at hgrid
    exact hgrid

/-- Every pattern is below the next one. -/
theorem strictMono_magnitude : StrictMono (magnitude F) := by
  apply strictMono_nat_of_lt_succ
  intro m
  rcases Nat.lt_or_ge m (2^F.fracBits) with hm | hm
  · rw [magnitude_subnormal F hm.le,magnitude_subnormal F hm]
    apply mul_lt_mul_of_pos_right _ (zpow_pos two_pos _)
    exact_mod_cast Nat.lt_succ_self m
  · have hpos : 0 < 2^F.fracBits := Nat.two_pow_pos _
    have hsplit := Nat.div_add_mod' m (2^F.fracBits)
    have hrem := Nat.mod_lt m hpos
    obtain ⟨c,hc⟩ := Nat.exists_eq_succ_of_ne_zero (Nat.div_pos hm hpos).ne'
    rw [hc,Nat.succ_mul,Nat.add_assoc] at hsplit
    have htop : 2^(F.fracBits+1) = 2*2^F.fracBits := pow_succ' 2 _
    rw [← hsplit,Nat.add_assoc,magnitude_grid F c _ (by omega) (by omega),
      magnitude_grid F c _ (by omega) (by omega)]
    apply mul_lt_mul_of_pos_right _ (zpow_pos two_pos _)
    exact_mod_cast Nat.lt_succ_self _

theorem magnitude_zero : magnitude F 0 = 0 := by
  rw [magnitude_subnormal F (Nat.zero_le _),Nat.cast_zero,zero_mul]

theorem magnitude_pos {m : ℕ} (hm : m ≠ 0) : 0 < magnitude F m := by
  rw [← magnitude_zero F]
  exact strictMono_magnitude F (Nat.pos_of_ne_zero hm)

end Grid

section Signs

theorem applySign_pos (s : Bool) {q : ℚ} (hq : 0 < q) :
    |applySign s q| = q ∧ decide (applySign s q < 0) = s := by
  cases s with
  | false => exact ⟨abs_of_pos hq,decide_eq_false (not_lt.mpr hq.le)⟩
  | true => exact ⟨by rw [applySign,if_pos rfl,abs_neg,abs_of_pos hq],decide_eq_true (neg_lt_zero.mpr hq)⟩

theorem applySign_add (s : Bool) (p q : ℚ) : applySign s p+applySign s q = applySign s (p+q) := by
  cases s with
  | false => rfl
  | true => exact (neg_add p q).symm

theorem applySign_not_add (s : Bool) (p q : ℚ) :
    applySign s p+applySign (!s) q = applySign s (p-q) := by
  cases s with
  | false => exact (sub_eq_add_neg p q).symm
  | true => exact (neg_sub p q ▸ (neg_add_eq_sub p q) : -p+q = -(p-q))

theorem applySign_not (s : Bool) (q : ℚ) : applySign (!s) q = applySign s (-q) := by
  cases s with
  | false => rfl
  | true => exact (neg_neg q).symm

theorem applySign_mul (s t : Bool) (p q : ℚ) :
    applySign s p*applySign t q = applySign (s != t) (p*q) := by
  cases s <;> cases t <;> simp [applySign]

theorem applySign_div (s t : Bool) (p q : ℚ) :
    applySign s p/applySign t q = applySign (s != t) (p/q) := by
  cases s <;> cases t <;> simp [applySign,div_neg,neg_div]

end Signs

end SoftFloat
end AgbTools
