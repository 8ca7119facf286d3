import Mathlib.Tactic.FieldSimp
import AgbTools.SoftFloatPack

/-! Quotients are rounded correctly: the bit loop computes the quotient to the last guard bit, and of
the rest rounding needs no more than whether it is zero. -/
namespace AgbTools
namespace SoftFloat

open Nearest

section Loop

variable {F : Format} {den num : ℕ}

/-- After `i` rounds: the quotient so far and the numerator make up the numerator of the start, and
the numerator is below twice the denominator. -/
structure DivInv (F : Format) (den num i : ℕ) (s : DivState) : Prop where
  bit : s.bit = 2^(F.point+1-i)/2
  small : s.numerator < 2*den
  dvd : 2^(F.point+1-i) ∣ s.quotient
  total : num*2^(F.point+1) = 2*den*s.quotient+s.numerator*2^(F.point+1-i)

theorem DivInv.reduced_lt {i : ℕ} {s : DivState} (h : DivInv F den num i s) :
    s.reduced den < den := by
  have := h.small
  rw [DivState.reduced]
  split <;> omega

theorem divInv_step {i : ℕ} {s : DivState} (hden : den < 2^(F.point+1)) (hi : i < F.point+1)
    (h : DivInv F den num i s) : DivInv F den num (i+1) (divStep F den s) := by
  obtain ⟨k,hk⟩ : ∃ k, F.point+1-i = k+1 := ⟨F.point-i,by omega⟩
  have hk' : F.point+1-(i+1) = k := by omega
  have hreduced := h.reduced_lt
  have hp : 2^(F.point+2) = 2*2^(F.point+1) := pow_succ' 2 _
  have htrunc : F.trunc (s.reduced den*2) = s.reduced den*2 := trunc_eq (by omega)
  have hpow : 2^(k+1) = 2*2^k := pow_succ' 2 _
  have hbit : s.bit = 2^k := by
    rw [h.bit,hk,hpow,Nat.mul_div_cancel_left _ two_pos]
  obtain ⟨c,hc⟩ := h.dvd
  have htotal := h.total
  rw [hk] at hc htotal
  have hor : s.quotient ||| s.bit = s.quotient+s.bit := by
    rw [hc,hbit]
    exact (Nat.two_pow_add_eq_or_of_lt (Nat.pow_lt_pow_right one_lt_two (Nat.lt_succ_self k)) c).symm
  constructor
  · rw [hk']
    change s.bit >>> 1 = _
    rw [hbit,Nat.shiftRight_eq_div_pow,pow_one]
  · change F.trunc (s.reduced den*2) < _
    omega
  · rw [hk']
    change _ ∣ if den ≤ s.numerator then s.quotient ||| s.bit else s.quotient
    have hdvd : 2^k ∣ s.quotient := hc ▸ (Dvd.intro_left 2 (hpow ▸ rfl)).mul_right c
    split
    · rw [hor,hbit]
      exact hdvd.add (dvd_refl _)
    · exact hdvd
  · rw [hk']
    change _ = 2*den*(if den ≤ s.numerator then s.quotient ||| s.bit else s.quotient)+
      F.trunc (s.reduced den*2)*2^k
    rw [htrunc,htotal,hpow,DivState.reduced,hor,hbit]
    split
    · rename_i hle
      obtain ⟨r,hr⟩ := Nat.exists_eq_add_of_le hle
      rw [hr,Nat.add_sub_cancel_left]
      ring
    · ring

theorem divLoop_spec (hden : den < 2^(F.point+1)) (n : ℕ) : ∀ {i : ℕ} {s : DivState},
    i ≤ F.point+1 → F.point+1 ≤ i+n → DivInv F den num i s →
    DivInv F den num (F.point+1) (divLoop F den n s) := by
  induction n with
  | zero =>
    intro i s hi hn h
    obtain rfl : i = F.point+1 := by omega
    exact h
  | succ n ih =>
    intro i s hi hn h
    rw [divLoop]
    by_cases hlast : i = F.point+1
    · subst hlast
      have hbit : s.bit = 0 := by
        rw [h.bit,Nat.sub_self]
        rfl
      rw [if_pos hbit]
      exact h
    · have hbit : s.bit ≠ 0 := by
        obtain ⟨k,hk⟩ : ∃ k, F.point+1-i = k+1 := ⟨F.point-i,by omega⟩
        rw [h.bit,hk,pow_succ,Nat.mul_div_cancel _ two_pos]
        exact (Nat.two_pow_pos k).ne'
      rw [if_neg hbit]
      exact ih (by omega) (by omega) (divInv_step hden (by omega) h)

/-- The numerator stays below twice the denominator, so that doubling it cannot overflow. -/
theorem divStep_small (hden : den < 2^(F.point+1)) {s : DivState} (h : s.numerator < 2*den) (i : ℕ) :
    ((divStep F den)^[i] s).reduced den*2 < 2^F.fracNBits := by
  have hroom : 2^(F.point+2) ≤ 2^F.fracNBits := Nat.pow_le_pow_right two_pos (point_lt F)
  have hp : 2^(F.point+2) = 2*2^(F.point+1) := pow_succ' 2 _
  have hreduced : ∀ {t : DivState}, t.numerator < 2*den → t.reduced den < den := by
    intro t ht
    rw [DivState.reduced]
    split <;> omega
  have hall : ((divStep F den)^[i] s).numerator < 2*den := by
    induction i with
    | zero => exact h
    | succ i ih =>
      rw [Function.iterate_succ_apply']
      have hlt := hreduced ih
      change F.trunc (((divStep F den)^[i] s).reduced den*2) < 2*den
      rw [trunc_eq (by omega)]
      omega
  have := hreduced hall
  omega

end Loop

section Results

variable {F : Format} {a b : FpNumber} {m n : ℕ}

/-- The start of the loop has a numerator from the denominator up to its double, and the value of the
quotient. -/
theorem divStart_spec (ha : Holds F a m) (hb : Holds F b n) :
    let s := divStart F a b
    DivInv F b.fraction s.1.numerator 0 s.1 ∧ b.fraction ≤ s.1.numerator ∧
      (a.fraction/b.fraction : ℚ)*2^(a.normalExp-b.normalExp) =
        s.1.numerator/b.fraction*2^s.2 := by
  have hp : 2^(F.point+1) = 2*2^F.point := pow_succ' 2 _
  have hp' : 2^(F.point+2) = 2*2^(F.point+1) := pow_succ' 2 _
  have hlow := ha.low
  have hhigh := ha.high
  have hlow' := hb.low
  have hhigh' := hb.high
  have hbit : F.implicit1 = 2^(F.point+1-0)/2 := by
    rw [implicit1_eq,Nat.sub_zero,hp,Nat.mul_div_cancel_left _ two_pos]
  unfold divStart
  split
  · rename_i hlt
    have htrunc : F.trunc (a.fraction*2) = a.fraction*2 := trunc_eq (by omega)
    simp only [htrunc]
    refine ⟨⟨hbit,by simp only; omega,dvd_zero _,?_⟩,by omega,?_⟩
    · rw [Nat.mul_zero,Nat.zero_add,Nat.sub_zero]
    · rw [zpow_sub_one₀ two_ne_zero]
      push_cast
      ring
  · rename_i hge
    refine ⟨⟨hbit,by simp only; omega,dvd_zero _,?_⟩,by simp only; omega,rfl⟩
    rw [Nat.mul_zero,Nat.zero_add,Nat.sub_zero]

/-- The quotient of two numbers, when it is packed. -/
theorem divNumbers_spec (ha : Holds F a m) (hb : Holds F b n) {x : ℚ}
    (hx : |x| = magnitude F m/magnitude F n) (hs : (a.sign != b.sign) = decide (x < 0))
    (hmin : minNormal F ≤ |x|) : Rounded F x (decode F (packD F (divNumbers F a b))) := by
  obtain ⟨hinv,hle,hvalue⟩ := divStart_spec ha hb
  simp only [divNumbers]
  generalize divStart F a b = start at hinv hle hvalue
  obtain ⟨s,exp⟩ := start
  simp only at hinv hle hvalue
  have hfuel : F.point+1 ≤ 0+F.fracNBits := by
    have := point_lt F
    omega
  have hend := divLoop_spec hb.high F.fracNBits (Nat.zero_le _) hfuel hinv
  simp only
  generalize divLoop F b.fraction F.fracNBits s = t at hend
  have hpos : 0 < b.fraction := (Nat.two_pow_pos _).trans_le hb.low
  have hden : (0 : ℚ) < b.fraction := by exact_mod_cast hpos
  have hsmall := hend.small
  have hstart := hinv.small
  have htotal := hend.total
  rw [Nat.sub_self,pow_zero,Nat.mul_one] at htotal
  have hp : 2^(F.point+1) = 2*2^F.point := pow_succ' 2 _
  -- the exact quotient in units of the last guard bit
  have hy : (s.numerator : ℚ)*2^F.point/b.fraction = t.quotient+t.numerator/(2*b.fraction) := by
    have hq : (s.numerator : ℚ)*2^(F.point+1) = 2*b.fraction*t.quotient+t.numerator := by
      exact_mod_cast htotal
    rw [pow_succ] at hq
    field_simp
    linarith
  have hylow : (2 : ℚ)^F.point ≤ s.numerator*2^F.point/b.fraction := by
    rw [le_div_iff₀ hden,mul_comm]
    exact mul_le_mul_of_nonneg_right (by exact_mod_cast hle) (by positivity)
  have hyhigh : (s.numerator : ℚ)*2^F.point/b.fraction < 2^(F.point+1) := by
    rw [div_lt_iff₀ hden,pow_succ,mul_comm,mul_assoc]
    exact mul_lt_mul_of_pos_left (by exact_mod_cast hstart) (by positivity)
  have hrest : (0 : ℚ) ≤ t.numerator/(2*b.fraction) := by positivity
  have hrest' : (t.numerator : ℚ)/(2*b.fraction) < 1 := by
    rw [div_lt_one (by positivity)]
    exact_mod_cast hsmall
  have hqlow : 2^F.point ≤ t.quotient := by
    have : (2 : ℚ)^F.point < t.quotient+1 := by linarith
    exact Nat.lt_succ_iff.mp (by exact_mod_cast this)
  have hqhigh : t.quotient < 2^(F.point+1) := by
    have : (t.quotient : ℚ) < 2^(F.point+1) := by linarith
    exact_mod_cast this
  have hzero : (t.numerator : ℚ)/(2*b.fraction) = 0 ↔ t.numerator = 0 := by
    rw [div_eq_zero_iff,or_iff_left (by positivity)]
    exact_mod_cast Iff.rfl
  obtain ⟨hround,hlow,hhigh⟩ := roundHalf_spec hqlow hqhigh hrest hrest' hzero hy
  apply rounded_packD (by exact ha.cls) hlow hhigh hround hylow hyhigh _ hs hmin
  have hexp : a.normalExp-F.point-(b.normalExp-F.point) = a.normalExp-b.normalExp := by ring
  have hexp' : (F.point : ℤ)+(exp-F.point) = exp := by ring
  calc |x| = a.fraction/b.fraction*2^(a.normalExp-b.normalExp) := by
        rw [hx,ha.value,hb.value,mul_div_mul_comm,← zpow_sub₀ two_ne_zero,hexp]
    _ = s.numerator/b.fraction*(2^F.point*2^(exp-F.point)) := by rw [hvalue,pow_mul_zpow,hexp']
    _ = s.numerator*2^F.point/b.fraction*2^(exp-F.point) := by ring

/-- A quotient below the normal range is packed as a zero or a subnormal. -/
theorem divNumbers_below (ha : Holds F a m) (hb : Holds F b n)
    (hsmall : magnitude F m/magnitude F n < minNormal F) :
    ∃ k < 2^F.fracBits, decode F (packD F (divNumbers F a b)) = .finite (a.sign != b.sign) k := by
  obtain ⟨-,hle,hvalue⟩ := divStart_spec ha hb
  simp only [divNumbers]
  generalize divStart F a b = start at hle hvalue
  obtain ⟨s,exp⟩ := start
  simp only at hle hvalue
  have hden : (0 : ℚ) < b.fraction := by exact_mod_cast (Nat.two_pow_pos _).trans_le hb.low
  have hsub : a.normalExp-F.point-(b.normalExp-F.point) = a.normalExp-b.normalExp := by ring
  have hpow : (2 : ℚ)^exp < minNormal F := by
    apply lt_of_le_of_lt _ hsmall
    calc (2 : ℚ)^exp ≤ s.numerator/b.fraction*2^exp :=
          le_mul_of_one_le_left (zpow_pos two_pos _).le
            ((one_le_div hden).mpr (by exact_mod_cast hle))
      _ = a.fraction/b.fraction*2^(a.normalExp-b.normalExp) := hvalue.symm
      _ = magnitude F m/magnitude F n := by
          rw [ha.value,hb.value,mul_div_mul_comm,← zpow_sub₀ two_ne_zero,hsub]
  exact decode_packD_below ha.cls ((zpow_lt_zpow_iff_right₀ one_lt_two).mp hpow)

theorem divide_below (a b : FpNumber) {x y : Flo F} {s t : Bool} (hx : decode F x = .finite s m)
    (hy : decode F y = .finite t n) (hm : m ≠ 0) (hn : n ≠ 0)
    (hsmall : magnitude F m/magnitude F n < minNormal F) :
    ∃ k < 2^F.fracBits, decode F (divide F a b x y) = .finite (s != t) k := by
  obtain ⟨rfl,rfl,hlt⟩ := decode_finite hx
  obtain ⟨rfl,rfl,hlt'⟩ := decode_finite hy
  obtain ⟨ha,hs⟩ := unpackD_number hm hlt a
  obtain ⟨hb,ht⟩ := unpackD_number hn hlt' b
  have hparts : fpdivParts F (unpackD F x a) (unpackD F y b) =
      divNumbers F (unpackD F x a) (unpackD F y b) := by
    simp [fpdivParts,isnan,isinf,iszero,ha.cls,hb.cls]
  rw [divide,hparts,← hs,← ht]
  exact divNumbers_below ha hb hsmall

/-- `_fpdiv_parts` and packing, for whatever two patterns were unpacked. -/
theorem fpdivParts_spec {x y : Datum} (ha : Unpacked F a x) (hb : Unpacked F b y) :
    IeeeQuotient F x y (decode F (packD F (fpdivParts F a b))) := by
  have hpack := ha.decode_packD
  have hpack' := hb.decode_packD
  have hinf : ∀ {c : FpNumber} (s : Bool), c.cls = .infinity →
      decode F (packD F { c with sign := s }) = .inf s := fun s h => decode_packD_infinity h
  have hzero : ∀ {c : FpNumber} (s : Bool), c.cls = .zero →
      decode F (packD F { c with sign := s }) = .finite s 0 := fun s h => decode_packD_zero h
  have hinvalid : decode F (packD F nan) = .nan := decode_packD_nan rfl
  cases ha with
  | nan h =>
    rw [fpdivParts,if_pos h]
    exact hpack
  | inf h =>
    have hclass := tests_infinity h
    cases hb with
    | nan h' => simpa [fpdivParts,hclass,h',IeeeQuotient] using hpack'
    | inf h' => simpa [fpdivParts,hclass,isnan,h,h',IeeeQuotient] using hinvalid
    | zero h' => simpa [fpdivParts,hclass,isnan,h,h',IeeeQuotient] using hinf _ h
    | number hm hlt h' => simpa [fpdivParts,hclass,isnan,h,h'.cls,IeeeQuotient] using hinf _ h
  | zero h =>
    have hclass := tests_zero h
    cases hb with
    | nan h' => simpa [fpdivParts,hclass,h',IeeeQuotient] using hpack'
    | inf h' => simpa [fpdivParts,hclass,isnan,h,h',IeeeQuotient] using hzero _ h
    | zero h' => simpa [fpdivParts,hclass,isnan,h,h',IeeeQuotient] using hinvalid
    | number hm hlt h' =>
      simpa [fpdivParts,hclass,isnan,h,h'.cls,IeeeQuotient,hm] using hzero _ h
  | number hm hlt h =>
    have hclass := tests_number h.cls
    cases hb with
    | nan h' => simpa [fpdivParts,hclass,h',IeeeQuotient] using hpack'
    | inf h' =>
      have hclass' := tests_infinity h'
      have hnull : decode F (packD F { a with sign := a.sign != b.sign, fraction := 0, normalExp := 0 }) =
          .finite (a.sign != b.sign) 0 := decode_packD_null h.cls rfl
      simpa [fpdivParts,hclass,hclass',IeeeQuotient] using hnull
    | zero h' =>
      have hclass' := tests_zero h'
      have hover : decode F (packD F { a with sign := a.sign != b.sign, cls := .infinity }) =
          .inf (a.sign != b.sign) := decode_packD_infinity rfl
      simpa [fpdivParts,hclass,hclass',IeeeQuotient,hm] using hover
    | number hm' hlt' h' =>
      have hclass' := tests_number h'.cls
      obtain ⟨habs,hs⟩ := applySign_pos (a.sign != b.sign) (div_pos (magnitude_pos F hm)
        (magnitude_pos F hm'))
      rw [← applySign_div] at habs hs
      have hdiv := fun hmin => divNumbers_spec h h' habs hs.symm hmin
      simpa [fpdivParts,hclass,hclass',IeeeQuotient,hm,hm',value] using hdiv

/-- The numerator fits its word: when it is doubled for the start, and in every round of the loop. -/
def NumeratorFits (F : Format) (a b : FpNumber) : Prop :=
  (a.fraction < b.fraction → a.fraction*2 < 2^F.fracNBits) ∧
    ∀ i, ((divStep F b.fraction)^[i] (divStart F a b).1).reduced b.fraction*2 < 2^F.fracNBits

theorem numeratorFits (ha : Holds F a m) (hb : Holds F b n) : NumeratorFits F a b := by
  have hroom : 2^(F.point+2) ≤ 2^F.fracNBits := Nat.pow_le_pow_right two_pos (point_lt F)
  have hp : 2^(F.point+2) = 2*2^(F.point+1) := pow_succ' 2 _
  have hhigh := ha.high
  constructor
  · intro _
    omega
  · exact divStep_small hb.high (divStart_spec ha hb).1.small

/-- Soft-float division: for both formats and all operands the quotient is what IEEE 754 asks for,
whatever the local numbers held before, and the numerator never outgrows its word. -/
theorem division (F : Format) (a b : FpNumber) (x y : Flo F) :
    IeeeQuotient F (decode F x) (decode F y) (decode F (divide F a b x y)) ∧
      ∀ s t m n, decode F x = .finite s m → decode F y = .finite t n → m ≠ 0 → n ≠ 0 →
        NumeratorFits F (unpackD F x a) (unpackD F y b) := by
  refine ⟨fpdivParts_spec (unpackD_spec x a) (unpackD_spec y b),?_⟩
  intro s t m n hx hy hm hn
  obtain ⟨-,hx'⟩ := decode_finite hx
  obtain ⟨-,hy'⟩ := decode_finite hy
  exact numeratorFits (unpackD_number (hx'.1 ▸ hm) hx'.2 a).1 (unpackD_number (hy'.1 ▸ hn) hy'.2 b).1

/-- One over three, which is not exact. -/
theorem division_third :
    let one : Flo .float := BitVec.ofNat 32 0x3f800000
    let three : Flo .float := BitVec.ofNat 32 0x40400000
    decode .float (divide .float nan nan one three) = .finite false 0x3eaaaaab ∧
      NumeratorFits .float (unpackD .float one nan) (unpackD .float three nan) := by
  refine ⟨by decide +kernel,?_⟩
  exact (division .float nan nan _ _).2 false false 0x3f800000 0x40400000 (by decide) (by decide)
    (by decide) (by decide)

end Results

end SoftFloat
end AgbTools
