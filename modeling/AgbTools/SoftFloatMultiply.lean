import AgbTools.SoftFloatPack

/-! Products are rounded correctly: the two halves of the product are exact, they are brought into
place together, and of the low half rounding needs no more than whether it is zero. -/
namespace AgbTools
namespace SoftFloat

open Nearest

section Product

theorem and_low (x : ℕ) : x &&& 0xffffffff = x%2^32 := Nat.and_two_pow_sub_one_eq_mod x 32

theorem and_high {x : ℕ} (hx : x < 2^64) (hlow : x%2^32 = 0) : x &&& 0xffffffff00000000 = x := by
  have hdiv : (x &&& 0xffffffff00000000)/2^32 = x/2^32 := by
    rw [Nat.and_div_two_pow]
    change x/2^32 &&& 0xffffffff = _
    rw [and_low]
    omega
  have hmod : (x &&& 0xffffffff00000000)%2^32 = 0 := by
    rw [Nat.and_mod_two_pow,hlow,Nat.zero_and]
  omega

theorem shift_high (x : ℕ) : (x <<< 32)%2^64 &&& 0xffffffff00000000 = x%2^32*2^32 := by
  have heq : (x <<< 32)%2^64 = x%2^32*2^32 := by
    rw [Nat.shiftLeft_eq]
    omega
  rw [heq]
  apply and_high
  · omega
  · omega

/-- The carries of the partial products come together to the exact product. -/
theorem carries_eq {ll hl lh hh : ℕ} (hll : ll < 2^64) (hhl : hl < 2^64) (hlh : lh < 2^64)
    (hbound : hh*2^64+(hl+lh)*2^32+ll < 2^128) :
    let ps := (hl+lh)%2^64
    let carry := if ps < hl then 0x100000000 else 0
    let low := (ll+ps%2^32*2^32)%2^64
    let carry := if low < ll then (carry+1)%2^64 else carry
    (carry+(ps/2^32+hh)%2^64)%2^64*2^64+low = hh*2^64+(hl+lh)*2^32+ll := by
  simp only
  have hps := Nat.div_add_mod (hl+lh) (2^64)
  have hcarry : (hl+lh)/2^64 < 2 := by omega
  have hlow := Nat.div_add_mod (ll+(hl+lh)%2^64%2^32*2^32) (2^64)
  have hcarry' : (ll+(hl+lh)%2^64%2^32*2^32)/2^64 < 2 := by omega
  have hfirst : (hl+lh)%2^64 < hl ↔ (hl+lh)/2^64 = 1 := by omega
  have hsecond : (ll+(hl+lh)%2^64%2^32*2^32)%2^64 < ll ↔
      (ll+(hl+lh)%2^64%2^32*2^32)/2^64 = 1 := by omega
  simp only [hfirst,hsecond]
  generalize (hl+lh)/2^64 = c at *
  generalize (ll+(hl+lh)%2^64%2^32*2^32)/2^64 = c' at *
  generalize (ll+(hl+lh)%2^64%2^32*2^32)%2^64 = low at *
  generalize (hl+lh)%2^64 = ps at *
  split <;> split <;> omega

theorem productDouble_eq {a b : ℕ} (ha : a < 2^64) (hb : b < 2^64) :
    (productDouble a b).1*2^64+(productDouble a b).2 = a*b ∧ (productDouble a b).2 < 2^64 := by
  have hsplit := Nat.div_add_mod a (2^32)
  have hsplit' := Nat.div_add_mod b (2^32)
  have hprod : ∀ {p q : ℕ}, p < 2^32 → q < 2^32 → p*q%2^64 = p*q ∧ p*q < 2^64 := by
    intro p q hp hq
    have hlt : p*q < 2^32*2^32 := Nat.mul_lt_mul'' hp hq
    norm_num at hlt
    exact ⟨Nat.mod_eq_of_lt hlt,hlt⟩
  have hlow := Nat.mod_lt a (show 0 < 2^32 by norm_num)
  have hlow' := Nat.mod_lt b (show 0 < 2^32 by norm_num)
  have hhigh : a/2^32 < 2^32 := by omega
  have hhigh' : b/2^32 < 2^32 := by omega
  obtain ⟨ell,hll⟩ := hprod hlow' hlow
  obtain ⟨ehl,hhl⟩ := hprod hhigh' hlow
  obtain ⟨elh,hlh⟩ := hprod hlow' hhigh
  obtain ⟨ehh,hhh⟩ := hprod hhigh' hhigh
  have hsum : b/2^32*(a/2^32)*2^64+(b/2^32*(a%2^32)+b%2^32*(a/2^32))*2^32+b%2^32*(a%2^32) = a*b := by
    calc _ = (2^32*(a/2^32)+a%2^32)*(2^32*(b/2^32)+b%2^32) := by ring
      _ = a*b := by rw [hsplit,hsplit']
  have hbound : a*b < 2^128 := by
    have hlt : a*b < 2^64*2^64 := Nat.mul_lt_mul'' ha hb
    norm_num at hlt ⊢
    exact hlt
  have hcarries := carries_eq hll hhl hlh (hsum ▸ hbound)
  simp only [productDouble,and_low,Nat.shiftRight_eq_div_pow,shift_high,ell,ehl,elh,ehh]
  constructor
  · rw [← hsum,← hcarries]
    have hmask : ∀ p : ℕ, p%2^64/2^32%2^32 = p%2^64/2^32 := by omega
    rw [hmask]
  · exact Nat.mod_lt _ (by norm_num)

theorem productFloat_eq {a b : ℕ} (ha : a < 2^32) (hb : b < 2^32) :
    (productFloat a b).1*2^32+(productFloat a b).2 = a*b ∧ (productFloat a b).2 < 2^32 := by
  have hlt : a*b < 2^64 := by
    calc a*b < 2^32*2^32 := Nat.mul_lt_mul'' ha hb
      _ = 2^64 := by norm_num
  simp only [productFloat]
  rw [Nat.mod_eq_of_lt hlt]
  omega

theorem product_eq (F : Format) {a b : ℕ} (ha : a < 2^F.fracNBits) (hb : b < 2^F.fracNBits) :
    (F.product a b).1*2^F.fracNBits+(F.product a b).2 = a*b ∧
      (F.product a b).2 < 2^F.fracNBits := by
  cases F with
  | float => exact productFloat_eq ha hb
  | double => exact productDouble_eq ha hb

end Product

section InPlace

variable {F : Format}

theorem fracHigh_bit {low : ℕ} (hlow : low < 2^F.fracNBits) :
    low &&& F.fracHigh ≠ 0 ↔ 2^F.fracNBits ≤ 2*low := by
  have hhigh : F.fracHigh = 2^(F.fracNBits-1) := by cases F <;> rfl
  have htop : 2^F.fracNBits = 2*2^(F.fracNBits-1) := by cases F <;> rfl
  rw [hhigh,Nat.and_two_pow,Nat.testBit_eq_decide_div_mod_eq]
  have hbit : low/2^(F.fracNBits-1) < 2 := Nat.div_lt_of_lt_mul (by omega)
  have hge : 1 ≤ low/2^(F.fracNBits-1) ↔ 2^(F.fracNBits-1) ≤ low := by
    rw [Nat.le_div_iff_mul_le (Nat.two_pow_pos _),Nat.one_mul]
  have hpos := Nat.two_pow_pos (F.fracNBits-1)
  generalize low/2^(F.fracNBits-1) = t at hbit hge
  by_cases hset : t%2 = 1
  · simp only [hset,decide_true,Bool.toNat_true,Nat.one_mul]
    omega
  · simp only [hset,decide_false,Bool.toNat_false,Nat.zero_mul]
    omega

/-- A step of the loop doubles both halves as one number. -/
theorem mulUp_step {high low : ℕ} (hhigh : high < 2^F.point) (hlow : low < 2^F.fracNBits) :
    (if low &&& F.fracHigh ≠ 0 then F.trunc (high <<< 1) ||| 1 else F.trunc (high <<< 1))*
        2^F.fracNBits+F.trunc (low <<< 1) = 2*(high*2^F.fracNBits+low) := by
  have hp : 2^(F.point+1) = 2*2^F.point := pow_succ' 2 _
  have hp' : 2^(F.point+2) = 2*2^(F.point+1) := pow_succ' 2 _
  have hhigh' : F.trunc (high <<< 1) = 2*high := by
    rw [Nat.shiftLeft_eq,pow_one,trunc_eq (by omega),Nat.mul_comm]
  have hor : 2*high ||| 1 = 2*high+1 := by
    have := Nat.two_pow_add_eq_or_of_lt (show 1 < 2^1 by decide) high
    rw [pow_one] at this
    exact this.symm
  rw [hhigh',Nat.shiftLeft_eq,pow_one,Format.trunc]
  by_cases hbit : 2^F.fracNBits ≤ 2*low
  · rw [if_pos ((fracHigh_bit hlow).mpr hbit),hor,Nat.mod_eq_sub_mod (by omega),
      Nat.mod_eq_of_lt (by omega),Nat.add_mul,Nat.mul_assoc]
    omega
  · rw [if_neg ((fracHigh_bit hlow).not.mpr hbit),Nat.mod_eq_of_lt (by omega),Nat.mul_assoc]
    omega

/-- The loop brings the leading one of the product into place. -/
theorem mulUp_spec (n : ℕ) : ∀ {high low : ℕ} {e : ℤ}, high < 2^(F.point+1) → low < 2^F.fracNBits →
    2^F.point*2^F.fracNBits ≤ (high*2^F.fracNBits+low)*2^n →
    ∃ k high' low' : ℕ, mulUp F n high low e = (high',low',e-k) ∧
      high'*2^F.fracNBits+low' = (high*2^F.fracNBits+low)*2^k ∧
      2^F.point ≤ high' ∧ high' < 2^(F.point+1) ∧ low' < 2^F.fracNBits := by
  have hp : 2^(F.point+1) = 2*2^F.point := pow_succ' 2 _
  induction n with
  | zero =>
    intro high low e hhigh hlow hfuel
    refine ⟨0,high,low,?_,?_,?_,hhigh,hlow⟩
    · rw [mulUp,Nat.cast_zero,sub_zero]
    · rw [pow_zero,Nat.mul_one]
    · rw [pow_zero,Nat.mul_one] at hfuel
      by_contra hlt
      have := Nat.mul_le_mul_right (2^F.fracNBits) (show high+1 ≤ 2^F.point by omega)
      rw [Nat.succ_mul] at this
      omega
  | succ n ih =>
    intro high low e hhigh hlow hfuel
    rw [mulUp,implicit1_eq]
    by_cases hlt : high < 2^F.point
    · have hstep := mulUp_step hlt hlow
      rw [if_pos hlt]
      generalize (if low &&& F.fracHigh ≠ 0 then F.trunc (high <<< 1) ||| 1
        else F.trunc (high <<< 1)) = high₁ at hstep
      have hlow₁ : F.trunc (low <<< 1) < 2^F.fracNBits := Nat.mod_lt _ (Nat.two_pow_pos _)
      generalize F.trunc (low <<< 1) = low₁ at hstep hlow₁
      have hhigh₁ : high₁ < 2^(F.point+1) := by
        have := Nat.mul_le_mul_right (2^F.fracNBits) (show high+1 ≤ 2^F.point by omega)
        rw [Nat.succ_mul] at this
        have hlt' : high₁*2^F.fracNBits < 2^(F.point+1)*2^F.fracNBits := by
          rw [hp,Nat.mul_assoc]
          omega
        exact Nat.lt_of_mul_lt_mul_right hlt'
      have hfuel₁ : 2^F.point*2^F.fracNBits ≤ (high₁*2^F.fracNBits+low₁)*2^n := by
        rw [hstep,Nat.mul_comm 2,Nat.mul_assoc,← pow_succ']
        exact hfuel
      obtain ⟨k,high',low',hk,heq,hge,hlt',hlow'⟩ := ih (e := e-1) hhigh₁ hlow₁ hfuel₁
      refine ⟨k+1,high',low',?_,?_,hge,hlt',hlow'⟩
      · rw [hk,Nat.cast_succ,sub_sub,add_comm (1 : ℤ)]
      · rw [heq,hstep,Nat.mul_comm 2,Nat.mul_assoc,← pow_succ']
    · rw [if_neg hlt]
      refine ⟨0,high,low,?_,?_,by omega,hhigh,hlow⟩
      · rw [Nat.cast_zero,sub_zero]
      · rw [pow_zero,Nat.mul_one]

theorem mulDown_inPlace (n : ℕ) {high low : ℕ} {e : ℤ} (hhigh : high < 2^(F.point+1)) :
    mulDown F n high low e = (high,low,e) := by
  cases n with
  | zero => rfl
  | succ n => rw [mulDown,implicit2_eq,if_neg (by omega)]

end InPlace

section Results

variable {F : Format}

theorem productExp_eq : F.productExp = (F.fracNBits : ℤ)-F.point := by cases F <;> rfl

/-- The product of two numbers, when it is packed. -/
theorem mulNumbers_spec {a b : FpNumber} {m n : ℕ} (ha : Holds F a m) (hb : Holds F b n) {x : ℚ}
    (hx : |x| = magnitude F m*magnitude F n) (hs : (a.sign != b.sign) = decide (x < 0))
    (hmin : minNormal F ≤ |x|) : Rounded F x (decode F (packD F (mulNumbers F a b))) := by
  have hp : 2^(F.point+1) = 2*2^F.point := pow_succ' 2 _
  have hroom : 2^(F.point+1) ≤ 2^F.fracNBits := by
    apply Nat.pow_le_pow_right two_pos
    have := point_lt F
    omega
  obtain ⟨heq,hlow⟩ := product_eq F (ha.high.trans_le hroom) (hb.high.trans_le hroom)
  have hlower : 2^F.point*2^F.point ≤ a.fraction*b.fraction := Nat.mul_le_mul ha.low hb.low
  have hupper : a.fraction*b.fraction < 2^(F.point+1)*2^(F.point+1) :=
    Nat.mul_lt_mul'' ha.high hb.high
  generalize hprod : F.product a.fraction b.fraction = p at heq hlow
  obtain ⟨high,low⟩ := p
  simp only at heq hlow
  have hhigh : high < 2^(F.point+1) := by
    have hfit : 2^(F.point+1)*2^(F.point+1) ≤ 2^(F.point+1)*2^F.fracNBits :=
      Nat.mul_le_mul_left _ hroom
    have hlt : high*2^F.fracNBits < 2^(F.point+1)*2^F.fracNBits := by omega
    exact Nat.lt_of_mul_lt_mul_right hlt
  have hfuel : 2^F.point*2^F.fracNBits ≤ (high*2^F.fracNBits+low)*2^F.fracNBits := by
    rw [heq]
    apply Nat.mul_le_mul_right
    exact (Nat.le_mul_of_pos_left _ (Nat.two_pow_pos _)).trans hlower
  obtain ⟨k,high',low',hk,heq',hge,hlt,hlow'⟩ := mulUp_spec F.fracNBits
    (e := a.normalExp+b.normalExp+F.productExp) hhigh hlow hfuel
  simp only [mulNumbers,hprod,mulDown_inPlace _ hhigh,hk]
  have hwidth : (0 : ℚ) < 2^F.fracNBits := pow_pos two_pos _
  have hy : (high'+low'/2^F.fracNBits : ℚ)*2^F.fracNBits = a.fraction*b.fraction*2^k := by
    rw [add_mul,div_mul_cancel₀ _ hwidth.ne']
    rw [heq] at heq'
    exact_mod_cast heq'
  obtain ⟨hround,hle,hle'⟩ := roundHalf_spec (t := low'/2^F.fracNBits) hge hlt (by positivity)
    (by rw [div_lt_one hwidth]; exact_mod_cast hlow')
    (by rw [div_eq_zero_iff,or_iff_left hwidth.ne']; exact_mod_cast Iff.rfl) rfl
  have hylow : (2 : ℚ)^F.point ≤ high'+low'/2^F.fracNBits := by
    have hge' : (2 : ℚ)^F.point ≤ high' := by exact_mod_cast hge
    have hnonneg : (0 : ℚ) ≤ low'/2^F.fracNBits := by positivity
    linarith
  have hyhigh : (high'+low'/2^F.fracNBits : ℚ) < 2^(F.point+1) := by
    have hsmall : (low' : ℚ)/2^F.fracNBits < 1 := by
      rw [div_lt_one hwidth]
      exact_mod_cast hlow'
    have hlt' : (high' : ℚ)+1 ≤ 2^(F.point+1) := by exact_mod_cast hlt
    linarith
  apply rounded_packD rfl hle hle' hround hylow hyhigh _ hs hmin
  rw [hx,ha.value,hb.value]
  have hscale : (2 : ℚ)^k*2^(a.normalExp+b.normalExp+F.productExp-k-F.point) =
      2^F.fracNBits*(2^(a.normalExp-F.point)*2^(b.normalExp-F.point)) := by
    rw [← zpow_add₀ two_ne_zero,pow_mul_zpow,pow_mul_zpow,productExp_eq]
    congr 1
    ring
  apply mul_left_cancel₀ (pow_ne_zero k (two_ne_zero : (2 : ℚ) ≠ 0))
  calc (2 : ℚ)^k*(a.fraction*2^(a.normalExp-F.point)*(b.fraction*2^(b.normalExp-F.point)))
      = a.fraction*b.fraction*2^k*(2^(a.normalExp-F.point)*2^(b.normalExp-F.point)) := by ring
    _ = (high'+low'/2^F.fracNBits)*2^F.fracNBits*
        (2^(a.normalExp-F.point)*2^(b.normalExp-F.point)) := by rw [hy]
    _ = (high'+low'/2^F.fracNBits)*
        (2^k*2^(a.normalExp+b.normalExp+F.productExp-k-F.point)) := by rw [hscale,mul_assoc]
    _ = 2^k*((high'+low'/2^F.fracNBits)*
        2^(a.normalExp+b.normalExp+F.productExp-k-F.point)) := by ring

/-- `_fpmul_parts` and packing, for whatever two patterns were unpacked. -/
theorem fpmulParts_spec {a b : FpNumber} {x y : Datum} (ha : Unpacked F a x) (hb : Unpacked F b y) :
    IeeeProduct F x y (decode F (packD F (fpmulParts F a b))) := by
  have hnan : ∀ {n : FpNumber} (s : Bool), isnan n = true →
      decode F (packD F { n with sign := s }) = .nan := fun s h => decode_packD_nan h
  have hinf : ∀ {n : FpNumber} (s : Bool), n.cls = .infinity →
      decode F (packD F { n with sign := s }) = .inf s := fun s h => decode_packD_infinity h
  have hzero : ∀ {n : FpNumber} (s : Bool), n.cls = .zero →
      decode F (packD F { n with sign := s }) = .finite s 0 := fun s h => decode_packD_zero h
  have hinvalid : decode F (packD F nan) = .nan := decode_packD_nan rfl
  cases ha with
  | nan h =>
    rw [fpmulParts,if_pos h]
    exact hnan _ h
  | inf h =>
    have hclass := tests_infinity h
    cases hb with
    | nan h' => simpa [fpmulParts,hclass,h',IeeeProduct] using hnan _ h'
    | inf h' =>
      have hclass' := tests_infinity h'
      simpa [fpmulParts,hclass,hclass',IeeeProduct] using hinf _ h
    | zero h' =>
      have hclass' := tests_zero h'
      simpa [fpmulParts,hclass,hclass',IeeeProduct] using hinvalid
    | number hm hlt h' =>
      have hclass' := tests_number h'.cls
      simpa [fpmulParts,hclass,hclass',IeeeProduct,hm] using hinf _ h
  | zero h =>
    have hclass := tests_zero h
    cases hb with
    | nan h' => simpa [fpmulParts,hclass,h',IeeeProduct] using hnan _ h'
    | inf h' =>
      have hclass' := tests_infinity h'
      simpa [fpmulParts,hclass,hclass',IeeeProduct] using hinvalid
    | zero h' =>
      have hclass' := tests_zero h'
      simpa [fpmulParts,hclass,hclass',IeeeProduct] using hzero _ h
    | number hm hlt h' =>
      have hclass' := tests_number h'.cls
      simpa [fpmulParts,hclass,hclass',IeeeProduct] using hzero _ h
  | number hm hlt h =>
    have hclass := tests_number h.cls
    cases hb with
    | nan h' => simpa [fpmulParts,hclass,h',IeeeProduct] using hnan _ h'
    | inf h' =>
      have hclass' := tests_infinity h'
      simpa [fpmulParts,hclass,hclass',IeeeProduct,hm] using hinf _ h'
    | zero h' =>
      have hclass' := tests_zero h'
      simpa [fpmulParts,hclass,hclass',IeeeProduct,hm] using hzero _ h'
    | number hm' hlt' h' =>
      have hclass' := tests_number h'.cls
      obtain ⟨habs,hs⟩ := applySign_pos (a.sign != b.sign) (mul_pos (magnitude_pos F hm)
        (magnitude_pos F hm'))
      rw [← applySign_mul] at habs hs
      have hmul := fun hmin => mulNumbers_spec h h' habs hs.symm hmin
      simpa [fpmulParts,hclass,hclass',IeeeProduct,hm,hm',value] using hmul

/-- Soft-float multiplication: for both formats and all operands the product is what IEEE 754 asks
for, whatever the local numbers held before. -/
theorem multiplication (F : Format) (a b : FpNumber) (x y : Flo F) :
    IeeeProduct F (decode F x) (decode F y) (decode F (multiply F a b x y)) :=
  fpmulParts_spec (unpackD_spec x a) (unpackD_spec y b)

end Results

end SoftFloat
end AgbTools
