import Mathlib.Data.Rat.Floor
import AgbTools.SoftFloatAdd
import AgbTools.SoftFloatCompare

/-! Conversions between the floating point formats and 32-bit integers. -/
namespace AgbTools
namespace SoftFloat

open Nearest

section Represents

variable {F : Format}

/-- The pattern of a finite number, by the value it stands for. -/
def Represents (F : Format) (x : Flo F) (q : ℚ) : Prop :=
  ∃ s m, decode F x = .finite s m ∧ value F s m = q

theorem applySign_abs (q : ℚ) : applySign (decide (q < 0)) |q| = q := by
  rcases lt_or_ge q 0 with hneg | hpos
  · rw [decide_eq_true hneg,abs_of_neg hneg,applySign,if_pos rfl,neg_neg]
  · rw [decide_eq_false (not_lt.mpr hpos),abs_of_nonneg hpos]
    rfl

theorem abs_value (s : Bool) (m : ℕ) : |value F s m| = magnitude F m := by
  have hnonneg : 0 ≤ magnitude F m := by
    rw [← magnitude_zero F]
    exact (strictMono_magnitude F).monotone (Nat.zero_le m)
  cases s with
  | false => exact abs_of_nonneg hnonneg
  | true => exact (abs_neg _).trans (abs_of_nonneg hnonneg)

/-- A number that the format has is represented when it is rounded. -/
theorem Rounded.represents {x : Flo F} {q : ℚ} {m : ℕ} (h : Rounded F q (decode F x))
    (hq : |q| = magnitude F m) (hm : m < F.infinity) : Represents F x q := by
  refine ⟨decide (q < 0),m,h.exact hq hm,?_⟩
  rw [value,← hq]
  exact applySign_abs q

theorem Represents.ne_nan {x : Flo F} {q : ℚ} (h : Represents F x q) : decode F x ≠ .nan := by
  obtain ⟨s,m,hd,-⟩ := h
  rw [hd]
  exact Datum.noConfusion

/-- Zero, or a number of the normal range that has a pattern. -/
def InFormat (F : Format) (q : ℚ) : Prop :=
  q = 0 ∨ minNormal F ≤ |q| ∧ ∃ m < F.infinity, |q| = magnitude F m

theorem inFormat_of_bits {q : ℚ} {n : ℕ} {t : ℤ} (hq : |q| = n*2^t) (hsmall : n < 2^(F.fracBits+1))
    (hlow : F.normalExpMin ≤ t) (hhigh : F.fracBits+t ≤ F.expBias) : InFormat F q := by
  by_cases hn : n = 0
  · rw [hn,Nat.cast_zero,zero_mul] at hq
    exact .inl (abs_eq_zero.mp hq)
  · have hlog : n.log2 < F.fracBits+1 := (Nat.log2_lt hn).mpr hsmall
    obtain ⟨m,-,hm,hmag⟩ := representable hn hsmall (by omega) (t := t) (by omega)
    refine .inr ⟨?_,m,hm,hq.trans hmag.symm⟩
    have hone : (1 : ℚ) ≤ n := by exact_mod_cast Nat.pos_of_ne_zero hn
    calc minNormal F ≤ 2^t := zpow_le_zpow_right₀ one_le_two hlow
      _ ≤ n*2^t := le_mul_of_one_le_left (zpow_pos two_pos t).le hone
      _ = |q| := hq.symm

/-- A sum that has a pattern is exact, and so is one with a zero. -/
theorem ieeeSum_exact {s t : Bool} {m n : ℕ} {r : Flo F}
    (hspec : IeeeSum F (.finite s m) (.finite t n) (decode F r))
    (hsum : value F s m = 0 ∨ value F t n = 0 ∨ InFormat F (value F s m+value F t n)) :
    Represents F r (value F s m+value F t n) := by
  simp only [IeeeSum] at hspec
  by_cases hm : m = 0
  · by_cases hn : n = 0
    · rw [if_pos ⟨hm,hn⟩] at hspec
      refine ⟨_,_,hspec,?_⟩
      rw [hm,hn,value_zero,value_zero,value_zero,add_zero]
    · rw [if_neg (by tauto),if_pos hm] at hspec
      refine ⟨_,_,hspec,?_⟩
      rw [hm,value_zero,zero_add]
  · by_cases hn : n = 0
    · rw [if_neg (by tauto),if_neg hm,if_pos hn] at hspec
      refine ⟨_,_,hspec,?_⟩
      rw [hn,value_zero,add_zero]
    · rw [if_neg (by tauto),if_neg hm,if_neg hn] at hspec
      have hne : ∀ {u : Bool} {k : ℕ}, k ≠ 0 → value F u k ≠ 0 := by
        intro u k hk hzero
        have habs := abs_value (F := F) u k
        rw [hzero,abs_zero] at habs
        exact (magnitude_pos F hk).ne habs
      rcases hsum with hzero | hzero | hzero | ⟨hmin,k,hk,heq⟩
      · exact absurd hzero (hne hm)
      · exact absurd hzero (hne hn)
      · refine ⟨_,_,hspec.1 hzero,?_⟩
        rw [hzero,value_zero]
      · exact (hspec.2 hmin).represents heq hk

theorem add_represents (a b : FpNumber) {x y : Flo F} {p q : ℚ} (hx : Represents F x p)
    (hy : Represents F y q) (hsum : p = 0 ∨ q = 0 ∨ InFormat F (p+q)) :
    Represents F (add F a b x y) (p+q) := by
  obtain ⟨s,m,hdx,rfl⟩ := hx
  obtain ⟨t,n,hdy,rfl⟩ := hy
  have hspec := add_spec a b x y
  rw [hdx,hdy] at hspec
  exact ieeeSum_exact hspec hsum

theorem value_not (s : Bool) (m : ℕ) : value F (!s) m = -value F s m := by
  cases s with
  | false => rfl
  | true => exact (neg_neg _).symm

theorem sub_represents (a b : FpNumber) {x y : Flo F} {p q : ℚ} (hx : Represents F x p)
    (hy : Represents F y q) (hdiff : p = 0 ∨ q = 0 ∨ InFormat F (p-q)) :
    Represents F (sub F a b x y) (p-q) := by
  obtain ⟨s,m,hdx,rfl⟩ := hx
  obtain ⟨t,n,hdy,rfl⟩ := hy
  have hspec := sub_spec a b x y
  rw [hdx,hdy,Datum.neg] at hspec
  have hexact := ieeeSum_exact hspec
  rw [value_not,neg_eq_zero,← sub_eq_add_neg] at hexact
  exact hexact hdiff

end Represents

section Integers

variable {F : Format}

theorem minNormal_le_one : minNormal F ≤ 1 := by
  have hle : F.normalExpMin ≤ 0 := by cases F <;> decide
  calc minNormal F ≤ 2^(0 : ℤ) := zpow_le_zpow_right₀ one_le_two hle
    _ = 1 := zpow_zero 2

/-- A positive integer is brought into place without guard bits being lost. -/
theorem rounded_natural {f : ℕ} (hpos : 0 < f) (hlt : f < 2^(F.point+1)) {x : ℚ} (hx : |x| = f)
    {sign : Bool} (hsign : sign = decide (x < 0)) :
    Rounded F x (decode F (packD F
      { cls := .number
        sign := sign
        normalExp := (unpackLoop F F.fracNBits f ((F.point : ℕ) : ℤ)).2
        fraction := (unpackLoop F F.fracNBits f ((F.point : ℕ) : ℤ)).1 })) := by
  have hfuel : 2^F.point ≤ f*2^F.fracNBits :=
    (Nat.pow_le_pow_right two_pos ((Nat.le_add_right _ 2).trans (point_lt F))).trans
      (Nat.le_mul_of_pos_left _ hpos)
  obtain ⟨k,hk,hlow,hhigh,-⟩ := unpackLoop_spec F.fracNBits (e := ((F.point : ℕ) : ℤ)) hlt hfuel
  rw [hk]
  apply rounded_inPlace hlow hhigh (alike_self _ _) _ hsign
  · have hone : (1 : ℚ) ≤ f := by exact_mod_cast hpos
    exact minNormal_le_one.trans (hx ▸ hone)
  · have hexp : (F.point-k-F.point : ℤ) = -(k : ℤ) := by ring
    have hcancel : (2 : ℚ)^k*2^(-(k : ℤ)) = 1 := by
      rw [pow_mul_zpow,add_neg_cancel,zpow_zero]
    rw [hx,hexp]
    push_cast
    rw [mul_assoc,hcancel,mul_one]

/-- The patterns from one power of two on. -/
theorem magnitude_from_pow (k : ℕ) {r : ℕ} (hr : r < 2^F.fracBits) :
    magnitude F ((F.expBias+k)*2^F.fracBits+r) = 2^k+r*2^(k-F.fracBits : ℤ) := by
  have hone := one_le_bias F
  have hmag := magnitude_normal F (F.expBias+k-1) r hr
  have hbias : F.expBias+k-1+1 = F.expBias+k := by omega
  have hexp : ((F.expBias+k-1 : ℕ)+F.normalExpMin-F.fracBits : ℤ) = k-F.fracBits := by
    rw [Format.normalExpMin]
    omega
  rw [hbias,hexp,add_mul (2^F.fracBits : ℚ),pow_mul_zpow,add_sub_cancel,zpow_natCast] at hmag
  exact hmag

theorem magnitude_pow (k : ℕ) : magnitude F ((F.expBias+k)*2^F.fracBits) = 2^k := by
  have hmag := magnitude_from_pow k (Nat.two_pow_pos F.fracBits)
  rwa [Nat.cast_zero,zero_mul,add_zero,add_zero] at hmag

theorem decode_twoPow31 (sign : Bool) :
    decode F (twoPow31 F sign) = .finite sign ((F.expBias+31)*2^F.fracBits) := by
  cases F <;> cases sign <;> decide

theorem represents_twoPow31 (sign : Bool) :
    Represents F (twoPow31 F sign) (applySign sign (2^31)) :=
  ⟨sign,_,decode_twoPow31 sign,by rw [value,magnitude_pow]⟩

theorem toNat_of_toInt_neg {n : BitVec 32} (hneg : n.toInt < 0) (hmin : n ≠ 0x80000000#32) :
    ((-n).toNat : ℤ) = -n.toInt ∧ (-n).toNat < 2^31 := by
  have hlt := n.isLt
  have hne : n.toNat ≠ 0x80000000 := fun h => hmin (BitVec.eq_of_toNat_eq h)
  rw [BitVec.toInt_eq_toNat_cond] at hneg ⊢
  rw [BitVec.toNat_neg]
  split at hneg
  · omega
  · rename_i hge
    rw [if_neg hge]
    omega

theorem toNat_of_toInt_nonneg {n : BitVec 32} (hneg : ¬n.toInt < 0) :
    (n.toNat : ℤ) = n.toInt ∧ n.toNat < 2^31 := by
  have hlt := n.isLt
  rw [BitVec.toInt_eq_toNat_cond] at hneg ⊢
  split at hneg
  · rename_i hge
    rw [if_pos hge]
    omega
  · omega

/-- An integer is rounded to the format. -/
theorem siToFloat_rounded (dst : FpNumber) (n : BitVec 32) :
    Rounded F n.toInt (decode F (siToFloat F dst n)) := by
  have hwide : 2^31 ≤ 2^(F.point+1) := by
    apply Nat.pow_le_pow_right two_pos
    cases F <;> decide
  have hpoint : F.fracBits+F.ngards = F.point := rfl
  rw [siToFloat]
  by_cases hzero : n = 0
  · subst hzero
    rw [if_pos rfl,decode_packD_zero rfl]
    have hdata := rounded_of_exact (F := F) (x := 0) (m := 0)
      (by rw [abs_zero,magnitude_zero]) (by cases F <;> decide)
    simpa using hdata
  rw [if_neg hzero]
  by_cases hmin : n.toInt < 0 ∧ n = 0x80000000#32
  · rw [if_pos hmin,decode_twoPow31,hmin.2]
    have hint : ((0x80000000#32 : BitVec 32).toInt : ℚ) = -2^31 := by
      have : (0x80000000#32 : BitVec 32).toInt = -2^31 := by decide
      rw [this]
      norm_num
    have hdata := rounded_of_exact (F := F) (x := ((0x80000000#32 : BitVec 32).toInt : ℚ))
      (m := (F.expBias+31)*2^F.fracBits)
      (by rw [hint,magnitude_pow,abs_neg,abs_of_pos (by positivity)]) (by cases F <;> decide)
    have hsign : decide (((0x80000000#32 : BitVec 32).toInt : ℚ) < 0) = true :=
      decide_eq_true (by rw [hint]; norm_num)
    rwa [hsign] at hdata
  rw [if_neg hmin,hpoint]
  have hsign : decide (n.toInt < 0) = decide ((n.toInt : ℚ) < 0) := by
    congr 1
    exact propext Int.cast_lt_zero.symm
  by_cases hneg : n.toInt < 0
  · obtain ⟨hcast,hlt⟩ := toNat_of_toInt_neg hneg (fun h => hmin ⟨hneg,h⟩)
    simp only [if_pos hneg]
    apply rounded_natural (by omega) (hlt.trans_le hwide) _ hsign
    rw [abs_of_neg (Int.cast_lt_zero.mpr hneg)]
    exact_mod_cast hcast.symm
  · obtain ⟨hcast,hlt⟩ := toNat_of_toInt_nonneg hneg
    have hne : n.toNat ≠ 0 := fun h => hzero (BitVec.eq_of_toNat_eq h)
    simp only [if_neg hneg]
    apply rounded_natural (by omega) (hlt.trans_le hwide) _ hsign
    rw [abs_of_nonneg (Int.cast_nonneg (not_lt.mp hneg))]
    exact_mod_cast hcast.symm

/-- An integer that the fraction can hold, or the first power of two past it, has a pattern. -/
theorem magnitude_natural {n : ℕ} (hn : n ≤ 2^(F.fracBits+1)) :
    ∃ m < F.infinity, magnitude F m = n := by
  have hbounds : F.normalExpMin ≤ 0 ∧ F.fracBits+1 ≤ F.expBias := by cases F <;> decide
  by_cases hzero : n = 0
  · exact ⟨0,by cases F <;> decide,by rw [hzero,magnitude_zero,Nat.cast_zero]⟩
  rcases Nat.lt_or_eq_of_le hn with hlt | rfl
  · have hlog : n.log2 < F.fracBits+1 := (Nat.log2_lt hzero).mpr hlt
    obtain ⟨m,-,hm,hmag⟩ := representable (F := F) (t := 0) hzero hlt (by omega) (by omega)
    rw [zpow_zero,mul_one] at hmag
    exact ⟨m,hm,hmag⟩
  · refine ⟨(F.expBias+(F.fracBits+1))*2^F.fracBits,by cases F <;> decide,?_⟩
    rw [magnitude_pow]
    push_cast
    rfl

theorem siToFloat_represents (dst : FpNumber) {n : BitVec 32}
    (hsmall : n.toInt.natAbs ≤ 2^(F.fracBits+1)) :
    Represents F (siToFloat F dst n) n.toInt := by
  obtain ⟨m,hm,hmag⟩ := magnitude_natural hsmall
  apply (siToFloat_rounded dst n).represents _ hm
  rw [hmag,Nat.cast_natAbs,Int.cast_abs]

end Integers

section Truncate

variable {F : Format}

/-- Rounding towards zero. -/
def truncate (q : ℚ) : ℤ := if q < 0 then ⌈q⌉ else ⌊q⌋

theorem truncate_applySign (s : Bool) {q : ℚ} (hq : 0 ≤ q) :
    truncate (applySign s q) = if s then -⌊q⌋ else ⌊q⌋ := by
  cases s with
  | false => exact if_neg (not_lt.mpr hq)
  | true =>
    rw [applySign,if_pos rfl,if_pos rfl,truncate,← Int.ceil_neg]
    rcases hq.lt_or_eq with hpos | rfl
    · rw [if_pos (neg_lt_zero.mpr hpos)]
    · rw [neg_zero,if_neg (lt_irrefl _),Int.floor_zero,Int.ceil_zero]

theorem truncate_intCast (z : ℤ) : truncate z = z := by
  rw [truncate,Int.ceil_intCast,Int.floor_intCast,ite_self]

/-- What a datum is as a 32-bit integer: truncated, or the nearer limit. -/
def toSi (F : Format) : Datum → ℤ
  | .nan => 0
  | .inf s => if s then -2^31 else 2^31-1
  | .finite s m => max (-2^31) (min (truncate (value F s m)) (2^31-1))

theorem floor_shifted {f : ℕ} {e : ℤ} {p : ℕ} (he : e ≤ p) :
    ⌊(f : ℚ)*2^(e-p)⌋ = ((f >>> (p-e).toNat : ℕ) : ℤ) := by
  obtain ⟨k,hk⟩ := Int.eq_ofNat_of_zero_le (sub_nonneg.mpr he)
  have hexp : e-p = -(k : ℤ) := by omega
  have hfloor := Rat.floor_natCast_div_natCast f (2^k)
  rw [hk,Int.toNat_natCast,hexp,zpow_neg,zpow_natCast,← div_eq_mul_inv,Nat.shiftRight_eq_div_pow]
  push_cast at hfloor ⊢
  exact hfloor

/-- A number in place whose exponent is small enough is shifted to its integer part. -/
theorem floatToSi_number {n : FpNumber} {m : ℕ} (h : Holds F n m) (hlow : 0 ≤ n.normalExp)
    (hhigh : n.normalExp ≤ 30) :
    (BitVec.ofNat 32 (n.fraction >>> (((F.fracBits+F.ngards : ℕ) : ℤ)-n.normalExp).toNat)).toInt =
      ⌊magnitude F m⌋ ∧ ⌊magnitude F m⌋ < 2^31 := by
  have hpoint : (30 : ℤ) ≤ F.point := by cases F <;> decide
  have hfloor := floor_shifted (f := n.fraction) (e := n.normalExp) (p := F.point) (by omega)
  rw [← h.value] at hfloor
  have hsmall : ⌊magnitude F m⌋ < 2^31 := by
    rw [Int.floor_lt,h.value]
    apply (magnitude_bounds h.low h.high _).2.trans_le
    calc (2 : ℚ)^(n.normalExp+1) ≤ 2^(31 : ℤ) := zpow_le_zpow_right₀ one_le_two (by omega)
      _ = ((2^31 : ℤ) : ℚ) := by norm_num
  refine ⟨?_,hsmall⟩
  change (BitVec.ofNat 32 (n.fraction >>> ((F.point : ℤ)-n.normalExp).toNat)).toInt = _
  rw [hfloor] at hsmall ⊢
  generalize n.fraction >>> ((F.point : ℤ)-n.normalExp).toNat = t at *
  rw [BitVec.toInt_eq_toNat_cond,BitVec.toNat_ofNat,Nat.mod_eq_of_lt (by omega),if_pos (by omega)]

/-- `float_to_si` truncates, and takes the nearer limit for what does not fit. -/
theorem floatToSi_spec (a : FpNumber) (x : Flo F) : floatToSi F a x = toSi F (decode F x) := by
  have hmax : maxSiInt = 2^31-1 := rfl
  have hspec := unpackD_spec x a
  rw [floatToSi]
  generalize unpackD F x a = n at hspec
  generalize decode F x = d at hspec
  cases hspec with
  | nan h =>
    have hzero : iszero n = false := by
      simp only [isnan,Bool.or_eq_true,decide_eq_true_eq] at h
      rcases h with h | h <;> simp [iszero,h]
    simp [hzero,h,toSi]
  | inf h =>
    simp only [iszero,isnan,isinf,h,reduceCtorEq,decide_false,decide_true,Bool.or_false,if_true,
      Bool.false_eq_true,if_false,toSi,hmax]
    cases n.sign <;> rfl
  | zero h =>
    have htrunc : truncate (value F n.sign 0) = 0 := by
      rw [value_zero]
      exact_mod_cast truncate_intCast 0
    simp [iszero,h,toSi,htrunc]
  | @number m hm hlt h =>
    have hpos := magnitude_pos F hm
    obtain ⟨hge,hle⟩ := magnitude_bounds h.low h.high n.normalExp
    rw [← h.value] at hge hle
    have htrunc := truncate_applySign n.sign hpos.le
    simp only [iszero,isnan,isinf,h.cls,reduceCtorEq,decide_false,Bool.or_false,
      Bool.false_eq_true,if_false,toSi,value,htrunc,hmax]
    have hnonneg := Int.floor_nonneg.mpr hpos.le
    by_cases hsmall : n.normalExp < 0
    · have hone : magnitude F m < 1 := by
        apply hle.trans_le
        calc (2 : ℚ)^(n.normalExp+1) ≤ 2^(0 : ℤ) := zpow_le_zpow_right₀ one_le_two (by omega)
          _ = 1 := zpow_zero 2
      rw [if_pos hsmall,Int.floor_eq_zero_iff.mpr ⟨hpos.le,hone⟩]
      simp
    rw [if_neg hsmall]
    by_cases hlarge : 30 < n.normalExp
    · have hbig : 2^31 ≤ ⌊magnitude F m⌋ := by
        rw [Int.le_floor]
        apply le_trans _ hge
        calc ((2^31 : ℤ) : ℚ) = 2^(31 : ℤ) := by norm_num
          _ ≤ 2^n.normalExp := zpow_le_zpow_right₀ one_le_two (by omega)
      rw [if_pos hlarge]
      cases n.sign <;> simp <;> omega
    · obtain ⟨htmp,hlt31⟩ := floatToSi_number h (by omega) (by omega)
      rw [if_neg hlarge,htmp]
      cases n.sign <;> simp <;> omega

/-- A represented number in the range of the integers. -/
theorem Represents.floatToSi_eq {x : Flo F} {q : ℚ} (h : Represents F x q) (a : FpNumber)
    (hlow : -2^31 ≤ truncate q) (hhigh : truncate q < 2^31) : floatToSi F a x = truncate q := by
  obtain ⟨s,m,hd,rfl⟩ := h
  rw [floatToSi_spec,hd,toSi,min_eq_left (by omega),max_eq_right hlow]

end Truncate

section Unsigned

variable {F : Format}

/-- `__fixunsdfsi` and `__fixunssfsi`; `junk` is what the locals of the routines they call hold. -/
def fixunsSi (F : Format) (junk : ℕ → FpNumber) (a : Flo F) : ℕ :=
  if 0 ≤ geF2 F (junk 0) (junk 1) a (twoPow31 F false) then
    ((floatToSi F (junk 2) (add F (junk 3) (junk 4) a (twoPow31 F true))+2^31)%2^32).toNat
  else (floatToSi F (junk 5) a%2^32).toNat

theorem geF2_iff (a b : FpNumber) {x y : Flo F} {p q : ℚ} (hx : Represents F x p)
    (hy : Represents F y q) : 0 ≤ geF2 F a b x y ↔ q ≤ p := by
  rw [geF2,predicate_ordered _ a b hx.ne_nan hy.ne_nan,← not_lt,
    (compare_spec a b hx.ne_nan hy.ne_nan).lt]
  obtain ⟨s,m,hdx,rfl⟩ := hx
  obtain ⟨t,n,hdy,rfl⟩ := hy
  rw [hdx,hdy,finite_lt_iff,not_lt]

/-- The upper half of the unsigned range without its leading bit. -/
theorem inFormat_sub_twoPow31 {m : ℕ} (hlow : 2^31 ≤ magnitude F m) (hhigh : magnitude F m < 2^32) :
    InFormat F (magnitude F m-2^31) := by
  have hbottom := magnitude_pow (F := F) 31
  have htop := magnitude_pow (F := F) 32
  rw [← hbottom] at hlow
  rw [← htop] at hhigh
  have hle := (strictMono_magnitude F).le_iff_le.mp hlow
  have hlt := (strictMono_magnitude F).lt_iff_lt.mp hhigh
  obtain ⟨r,rfl⟩ := Nat.exists_eq_add_of_le hle
  have hr : r < 2^F.fracBits := by
    rw [Nat.add_mul F.expBias 32] at hlt
    rw [Nat.add_mul F.expBias 31] at hlt
    omega
  have hdiff : magnitude F ((F.expBias+31)*2^F.fracBits+r)-2^31 = r*2^(31-F.fracBits : ℤ) := by
    rw [magnitude_from_pow 31 hr,add_sub_cancel_left]
    rfl
  apply inFormat_of_bits (n := r) (t := 31-F.fracBits)
  · rw [hdiff,abs_of_nonneg (mul_nonneg (Nat.cast_nonneg r) (zpow_nonneg zero_le_two _))]
  · exact hr.trans (Nat.pow_lt_pow_right one_lt_two (Nat.lt_succ_self _))
  · cases F <;> decide
  · cases F <;> decide

/-- The unsigned conversion truncates. -/
theorem fixunsSi_spec (junk : ℕ → FpNumber) {x : Flo F} {q : ℚ} (hx : Represents F x q)
    (hlow : 0 ≤ q) (hhigh : q < 2^32) : (fixunsSi F junk x : ℤ) = ⌊q⌋ := by
  have hnonneg := Int.floor_nonneg.mpr hlow
  have htop : ⌊q⌋ < 2^32 := by
    rw [Int.floor_lt]
    exact_mod_cast hhigh
  rw [fixunsSi]
  by_cases hge : 2^31 ≤ q
  · rw [if_pos ((geF2_iff _ _ hx (represents_twoPow31 false)).mpr hge)]
    have hmag : magnitude F (rawMagnitude F x) = q := by
      obtain ⟨s,m,hd,rfl⟩ := hx
      obtain ⟨-,hm,-⟩ := decode_finite hd
      rw [hm,← abs_value s,abs_of_nonneg hlow]
    have hdiff : q+applySign true (2^31) = q-2^31 := (sub_eq_add_neg _ _).symm
    have hin : InFormat F (q+applySign true (2^31)) := by
      rw [hdiff]
      rw [← hmag] at hge hhigh ⊢
      exact inFormat_sub_twoPow31 hge hhigh
    have hadd := add_represents (junk 3) (junk 4) hx (represents_twoPow31 true) (.inr (.inr hin))
    have hfloor : truncate (q-2^31) = ⌊q⌋-2^31 := by
      have hcast : (2^31 : ℚ) = ((2^31 : ℤ) : ℚ) := by norm_num
      rw [truncate,if_neg (not_lt.mpr (sub_nonneg.mpr hge)),hcast,Int.floor_sub_intCast]
    rw [hdiff] at hadd
    have hsi := hadd.floatToSi_eq (junk 2) (by omega) (by omega)
    rw [hsi,hfloor,sub_add_cancel,Int.emod_eq_of_lt hnonneg htop,Int.toNat_of_nonneg hnonneg]
  · rw [if_neg ((geF2_iff _ _ hx (represents_twoPow31 false)).not.mpr hge)]
    have htrunc : truncate q = ⌊q⌋ := if_neg (not_lt.mpr hlow)
    have hsmall : ⌊q⌋ < 2^31 := by
      rw [Int.floor_lt]
      exact_mod_cast not_le.mp hge
    have hsi := hx.floatToSi_eq (junk 5) (by omega) (by omega)
    rw [hsi,htrunc,Int.emod_eq_of_lt hnonneg htop,Int.toNat_of_nonneg hnonneg]

end Unsigned

section Conversion

/-- A 32-bit integer goes to a `double` and back, and to a `float` if it has few enough bits. -/
theorem floatToSi_siToFloat {F : Format} (dst a : FpNumber) {n : BitVec 32}
    (hn : n.toInt.natAbs ≤ 2^(F.fracBits+1)) : floatToSi F a (siToFloat F dst n) = n.toInt := by
  have hlow := BitVec.le_toInt n
  have hhigh := BitVec.toInt_lt (x := n)
  have htrunc := truncate_intCast n.toInt
  have hsi := (siToFloat_represents (F := F) dst hn).floatToSi_eq a (by omega) (by omega)
  rw [hsi,htrunc]

theorem natAbs_le_double (n : BitVec 32) : n.toInt.natAbs ≤ 2^(Format.double.fracBits+1) := by
  have hlow := BitVec.le_toInt n
  have hhigh := BitVec.toInt_lt (x := n)
  change n.toInt.natAbs ≤ 2^53
  omega

/-- The conversions between 32-bit integers and floating point numbers. -/
theorem integer_conversion (dst a : FpNumber) (junk : ℕ → FpNumber) :
    (∀ n : BitVec 32, Represents .double (siToFloat .double dst n) n.toInt ∧
      Rounded .float n.toInt (decode .float (siToFloat .float dst n)) ∧
      floatToSi .double a (siToFloat .double dst n) = n.toInt ∧
      (|n.toInt| ≤ 2^24 → floatToSi .float a (siToFloat .float dst n) = n.toInt)) ∧
      (∀ (F : Format) (x : Flo F), decode F x ≠ .nan → floatToSi F a x = toSi F (decode F x)) ∧
      (∀ (F : Format) (x : Flo F) (q : ℚ), Represents F x q → 0 ≤ q → q < 2^32 →
        (fixunsSi F junk x : ℤ) = ⌊q⌋) := by
  refine ⟨?_,fun F x _ => floatToSi_spec a x,fun F x q hx => fixunsSi_spec junk hx⟩
  intro n
  refine ⟨siToFloat_represents dst (natAbs_le_double n),siToFloat_rounded dst n,
    floatToSi_siToFloat dst a (natAbs_le_double n),?_⟩
  intro hn
  have hle : n.toInt.natAbs ≤ 2^24 := by
    rw [Int.abs_eq_natAbs] at hn
    exact_mod_cast hn
  exact floatToSi_siToFloat dst a hle

/-- The last integer that makes the round trip through a `float`, and the largest `float` below 2^32. -/
theorem integer_conversion_edge :
    let last : Flo .float := BitVec.ofNat 32 0x4f7fffff
    floatToSi .float nan (siToFloat .float nan (-0x1000000#32)) = -2^24 ∧
      decode .float last ≠ .nan ∧ floatToSi .float nan last = 2^31-1 ∧
      (fixunsSi .float (fun _ => nan) last : ℤ) = 0xffffff00 := by
  have hlast : Represents .float (BitVec.ofNat 32 0x4f7fffff) (0xffffff00 : ℤ) := by
    refine ⟨false,0x4f7fffff,by decide,?_⟩
    have hmag := magnitude_from_pow (F := .float) 31 (show 0x7fffff < 2^23 by decide)
    have hsplit : (Format.float.expBias+31)*2^Format.float.fracBits+0x7fffff = 0x4f7fffff := by decide
    rw [hsplit] at hmag
    rw [value,hmag]
    simp only [applySign,Format.fracBits]
    norm_num
  have h := integer_conversion nan nan (fun _ => nan)
  refine ⟨(h.1 (-0x1000000#32)).2.2.2 (by decide),by decide,?_,?_⟩
  · obtain ⟨s,m,hd,hvalue⟩ := hlast
    apply (h.2.1 .float _ (by decide)).trans
    rw [hd,toSi,hvalue,truncate_intCast]
    decide
  · apply (h.2.2 .float _ _ hlast (by norm_num) (by norm_num)).trans
    exact Int.floor_intCast _

end Conversion

end SoftFloat
end AgbTools
