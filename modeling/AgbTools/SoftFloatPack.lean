import Mathlib.Data.Nat.Bitwise
import AgbTools.SoftFloatIeee

/-! Packing and unpacking: a pattern is unpacked to what it stands for and comes back as it was, and a
number with guard bits is packed as it is rounded. -/
namespace AgbTools
namespace SoftFloat

open Nearest

section Fields

variable (F : Format)

theorem wordOrder_lt {x : ℕ} (hx : x < 2^F.fracNBits) : F.wordOrder x < 2^F.fracNBits := by
  cases F with
  | float => exact hx
  | double =>
    change x < 2^64 at hx
    change swapWords x < 2^64
    unfold swapWords
    omega

theorem wordOrder_wordOrder {x : ℕ} (hx : x < 2^F.fracNBits) : F.wordOrder (F.wordOrder x) = x := by
  cases F with
  | float => rfl
  | double =>
    change x < 2^64 at hx
    change swapWords (swapWords x) = x
    unfold swapWords
    omega

/-- The exponent and fraction fields as one number. -/
def joined (fraction : ℕ) (exp : ℤ) : ℕ :=
  fraction%2^F.fracBits+(exp%2^F.expBits).toNat*2^F.fracBits

theorem joined_lt (fraction : ℕ) (exp : ℤ) : joined F fraction exp < 2^(F.fracBits+F.expBits) := by
  have hfrac := Nat.mod_lt fraction (Nat.two_pow_pos F.fracBits)
  have hexp : (exp%2^F.expBits).toNat+1 ≤ 2^F.expBits := by
    have hlt := Int.emod_lt_of_pos exp (show (0 : ℤ) < 2^F.expBits by positivity)
    have hnonneg := Int.emod_nonneg exp (show (2 : ℤ)^F.expBits ≠ 0 by positivity)
    have hcast : ((2^F.expBits : ℕ) : ℤ) = 2^F.expBits := by push_cast; rfl
    omega
  have hmul := Nat.mul_le_mul_right (2^F.fracBits) hexp
  rw [Nat.succ_mul,← pow_add,Nat.add_comm F.expBits] at hmul
  unfold joined
  omega

theorem fields_eq (fraction : ℕ) (exp : ℤ) (sign : Bool) : fields F fraction exp sign =
    joined F fraction exp+2^(F.fracBits+F.expBits)*sign.toNat := by
  rw [Nat.mul_comm]
  rfl

theorem raw_pattern {m : ℕ} (hm : m < 2^(F.fracBits+F.expBits)) (sign : Bool) :
    F.wordOrder (BitVec.toNat (pattern F sign m)) = m+2^(F.fracBits+F.expBits)*sign.toNat := by
  have hlt : m+2^(F.fracBits+F.expBits)*sign.toNat < 2^F.fracNBits := by
    rw [← width_eq,pow_succ']
    cases sign with
    | false => simp only [Bool.toNat_false]; omega
    | true => simp only [Bool.toNat_true]; omega
  rw [pattern,BitVec.toNat_ofNat,Nat.mod_eq_of_lt (wordOrder_lt F hlt),wordOrder_wordOrder F hlt]

/-- A pattern by its fields stands for what the fields say. -/
theorem decode_pattern {m : ℕ} (hm : m < 2^(F.fracBits+F.expBits)) (sign : Bool) :
    decode F (pattern F sign m) = datum F sign m := by
  rw [decode,rawSign,rawMagnitude,raw_pattern F hm,Nat.add_mul_mod_self_left,Nat.mod_eq_of_lt hm,
    Nat.add_mul_div_left _ _ (Nat.two_pow_pos _),Nat.div_eq_of_lt hm,Nat.zero_add]
  congr 1
  cases sign <;> rfl

theorem packD_eq (src : FpNumber) :
    packD F src = pattern F src.sign (joined F (packParts F src).1 (packParts F src).2) := by
  rw [packD,fields_eq]
  rfl

theorem decode_packD (src : FpNumber) : decode F (packD F src) =
    datum F src.sign (joined F (packParts F src).1 (packParts F src).2) := by
  rw [packD_eq,decode_pattern F (joined_lt ..)]

theorem datum_infinity (sign : Bool) : datum F sign F.infinity = .inf sign := by
  rw [datum,if_neg (Nat.lt_irrefl _),if_pos rfl]

variable {F} in
theorem datum_of_le {m : ℕ} {sign : Bool} (hm : m ≤ F.infinity) :
    datum F sign m = if m < F.infinity then .finite sign m else .inf sign := by
  rcases Nat.lt_or_eq_of_le hm with hlt | rfl
  · rw [datum,if_pos hlt,if_pos hlt]
  · rw [datum_infinity,if_neg (Nat.lt_irrefl _)]

end Fields

section Pack

variable {F : Format}

theorem and_gardMask (f : ℕ) : f &&& F.gardMask = f%2^F.ngards := by
  rw [gardMask_eq,Nat.and_two_pow_sub_one_eq_mod]

theorem and_ngards (f : ℕ) : f &&& (1 <<< F.ngards) ≠ 0 ↔ f/2^F.ngards%2 = 1 := by
  rw [Nat.one_shiftLeft,Nat.and_two_pow,Nat.testBit_eq_decide_div_mod_eq]
  by_cases hbit : f/2^F.ngards%2 = 1
  · simp [hbit]
  · simp [hbit]

theorem trunc_eq {x : ℕ} (hx : x < 2^(F.point+2)) : F.trunc x = x :=
  Nat.mod_eq_of_lt (hx.trans_le (Nat.pow_le_pow_right two_pos (point_lt F)))

theorem half_le_point : 2^(F.ngards-1) < 2^(F.point+1) := by
  apply Nat.pow_lt_pow_right one_lt_two
  rw [Format.point]
  omega

/-- Rounding the guard bits rounds what stands in front of them to nearest, ties to even. -/
theorem roundGards_div {f : ℕ} (hf : f ≤ 2^(F.point+1)) :
    roundGards F f/2^F.ngards = halfEven (2^(F.ngards-1)) f := by
  have hhalf := half_le_point (F := F)
  have hround := gardRound_eq F
  have htop : 2^(F.point+2) = 2*2^(F.point+1) := pow_succ' 2 _
  have hdouble := two_half F
  have hpos : 0 < 2^(F.ngards-1) := Nat.two_pow_pos _
  rw [roundGards,and_gardMask,gardMsb_eq,hround,trunc_eq (show f+2^(F.ngards-1) < _ by omega),
    trunc_eq (show f+F.gardRound < _ by omega)]
  simp only [and_ngards]
  rw [← hdouble]
  have hsplit := Nat.div_add_mod f (2*2^(F.ngards-1))
  have hrem := Nat.mod_lt f (show 0 < 2*2^(F.ngards-1) by omega)
  by_cases heq : f%(2*2^(F.ngards-1)) = 2^(F.ngards-1)
  · rw [if_pos heq]
    by_cases hodd : f/(2*2^(F.ngards-1))%2 = 1
    · rw [if_pos hodd,halfEven_up (.inr ⟨heq,hodd⟩)]
      apply Nat.div_eq_of_lt_le
      · rw [Nat.add_mul,Nat.mul_comm (f/_)]
        omega
      · rw [Nat.add_mul,Nat.add_mul,Nat.mul_comm (f/_)]
        omega
    · rw [if_neg hodd,halfEven_down (by omega)]
  · rw [if_neg heq]
    by_cases hup : 2^(F.ngards-1) < f%(2*2^(F.ngards-1))
    · rw [halfEven_up (.inl hup)]
      apply Nat.div_eq_of_lt_le
      · rw [Nat.add_mul,Nat.mul_comm (f/_)]
        omega
      · rw [Nat.add_mul,Nat.add_mul,Nat.mul_comm (f/_)]
        omega
    · rw [halfEven_down (by omega)]
      apply Nat.div_eq_of_lt_le
      · rw [Nat.mul_comm (f/_)]
        omega
      · rw [Nat.add_mul,Nat.mul_comm (f/_)]
        omega

/-- A rounded fraction keeps its leading one, or becomes the next power of two. -/
theorem halfEven_bounds {f : ℕ} (hlow : 2^F.point ≤ f) (hhigh : f ≤ 2^(F.point+1)) :
    2^F.fracBits ≤ halfEven (2^(F.ngards-1)) f ∧
      halfEven (2^(F.ngards-1)) f ≤ 2^(F.fracBits+1) := by
  have hpos : 0 < 2^F.ngards := Nat.two_pow_pos _
  rw [pow_point] at hlow
  rw [pow_point_succ] at hhigh
  have hge : 2^F.fracBits ≤ f/2^F.ngards := (Nat.le_div_iff_mul_le hpos).mpr hlow
  have hle : f/2^F.ngards ≤ 2^(F.fracBits+1) := Nat.div_le_of_le_mul (by rwa [Nat.mul_comm])
  rw [halfEven,two_half]
  constructor
  · exact hge.trans (Nat.le_add_right ..)
  · rcases Nat.lt_or_eq_of_le hle with hlt | heq
    · split <;> omega
    · have hrem : f%2^F.ngards = 0 := by
        have hsplit := Nat.div_add_mod' f (2^F.ngards)
        rw [heq] at hsplit
        omega
      rw [hrem,if_neg (by have := Nat.two_pow_pos (F.ngards-1); omega),heq]
      exact Nat.le_refl _

theorem joined_eq {q c : ℕ} (hc : c < 2^F.expBits) :
    joined F q (c : ℤ) = q%2^F.fracBits+c*2^F.fracBits := by
  rw [joined,Int.emod_eq_of_lt (Int.natCast_nonneg c) (by exact_mod_cast hc),Int.toNat_natCast]

/-- Packing a number in the normal range rounds its fraction. -/
theorem decode_packD_normal {src : FpNumber} (hcls : src.cls = .number)
    (hlow : 2^F.point ≤ src.fraction) (hhigh : src.fraction ≤ 2^(F.point+1)) {c : ℕ}
    (hexp : src.normalExp = c+F.normalExpMin) {m : ℕ}
    (hm : m = c*2^F.fracBits+halfEven (2^(F.ngards-1)) src.fraction) :
    decode F (packD F src) = if m < F.infinity then .finite src.sign m else .inf src.sign := by
  obtain ⟨hge,hle⟩ := halfEven_bounds hlow hhigh
  have hround := roundGards_div hhigh
  have hbias := expMax_bias F
  have hmax := expMax_eq F
  have hone := one_le_bias F
  have hnonzero : src.fraction ≠ 0 := by
    have := Nat.two_pow_pos F.point
    omega
  have hmin : F.normalExpMin = -(F.expBias : ℤ)+1 := rfl
  have hparts : packParts F src = if (F.expBias : ℤ) < src.normalExp then (0,(F.expMax : ℤ)) else
      if F.implicit2 ≤ roundGards F src.fraction then
        ((roundGards F src.fraction >>> 1) >>> F.ngards,src.normalExp+F.expBias+1)
      else (roundGards F src.fraction >>> F.ngards,src.normalExp+F.expBias) := by
    simp only [packParts,isnan,isinf,iszero,hcls,reduceCtorEq,decide_false,Bool.or_false,
      Bool.false_eq_true,if_false,hnonzero]
    rw [if_neg (by omega)]
  have hpow : 2^(F.fracBits+1) = 2*2^F.fracBits := pow_succ' 2 _
  have hpos : 0 < 2^F.fracBits := Nat.two_pow_pos _
  rw [decode_packD,hparts]
  by_cases hover : (F.expBias : ℤ) < src.normalExp
  · have hc : F.expMax ≤ c+1 := by omega
    have hinf : F.infinity ≤ m := by
      have := Nat.mul_le_mul_right (2^F.fracBits) hc
      rw [Nat.succ_mul] at this
      rw [Format.infinity]
      omega
    rw [if_pos hover,joined_eq (by omega),Nat.zero_mod,Nat.zero_add,if_neg (by omega)]
    exact datum_infinity F src.sign
  · have hc : c+2 ≤ F.expMax := by omega
    have hmul := Nat.mul_le_mul_right (2^F.fracBits) hc
    rw [Nat.add_mul] at hmul
    have hle : m ≤ F.infinity := by
      rw [Format.infinity]
      omega
    rw [if_neg hover,← datum_of_le hle]
    congr 1
    by_cases hcarry : F.implicit2 ≤ roundGards F src.fraction
    · have htop : 2^(F.fracBits+1) ≤ roundGards F src.fraction/2^F.ngards := by
        rwa [Nat.le_div_iff_mul_le (Nat.two_pow_pos _),← pow_point_succ,← implicit2_eq]
      have hexp' : src.normalExp+F.expBias+1 = ((c+2 : ℕ) : ℤ) := by omega
      have hhalf : (roundGards F src.fraction >>> 1) >>> F.ngards = 2^F.fracBits := by
        rw [Nat.shiftRight_eq_div_pow,Nat.shiftRight_eq_div_pow,pow_one,Nat.div_div_eq_div_mul,
          Nat.mul_comm 2,← Nat.div_div_eq_div_mul,hround]
        omega
      rw [if_pos hcarry,hexp',joined_eq (by omega),hhalf,Nat.mod_self,Nat.add_mul]
      omega
    · have htop : roundGards F src.fraction/2^F.ngards < 2^(F.fracBits+1) := by
        rwa [Nat.div_lt_iff_lt_mul (Nat.two_pow_pos _),← pow_point_succ,← implicit2_eq,← not_le]
      have hexp' : src.normalExp+F.expBias = ((c+1 : ℕ) : ℤ) := by omega
      rw [if_neg hcarry,hexp',joined_eq (by omega),Nat.shiftRight_eq_div_pow,hround,Nat.add_mul,
        Nat.mod_eq_sub_mod hge,Nat.mod_eq_of_lt (by omega)]
      omega

end Pack

section Unpack

variable {F : Format}

/-- An unpacked number stands for a pattern: it has its leading one in place, no guard bits and the
value of the pattern. -/
structure Holds (F : Format) (n : FpNumber) (m : ℕ) : Prop where
  cls : n.cls = .number
  low : 2^F.point ≤ n.fraction
  high : n.fraction < 2^(F.point+1)
  guards : 2^F.ngards ∣ n.fraction
  value : magnitude F m = n.fraction*2^(n.normalExp-F.point : ℤ)

/-- The loop brings the leading one into place. -/
theorem unpackLoop_spec (n : ℕ) : ∀ {f : ℕ} {e : ℤ}, f < 2^(F.point+1) → 2^F.point ≤ f*2^n →
    ∃ k : ℕ, unpackLoop F n f e = (f*2^k,e-k) ∧ 2^F.point ≤ f*2^k ∧ f*2^k < 2^(F.point+1) ∧
      (2^F.point ≤ f → k = 0) := by
  induction n with
  | zero =>
    intro f e hhigh hlow
    rw [pow_zero,Nat.mul_one] at hlow
    refine ⟨0,?_,by simpa using hlow,by simpa using hhigh,fun _ => rfl⟩
    simp [unpackLoop]
  | succ n ih =>
    intro f e hhigh hlow
    rw [unpackLoop,implicit1_eq]
    by_cases hf : f < 2^F.point
    · have htop : 2^(F.point+1) = 2*2^F.point := pow_succ' 2 _
      have htop' : 2^(F.point+2) = 2*2^(F.point+1) := pow_succ' 2 _
      have hshift : F.trunc (f <<< 1) = f*2 := by
        rw [Nat.shiftLeft_eq,pow_one,trunc_eq (by omega)]
      rw [pow_succ',← Nat.mul_assoc] at hlow
      obtain ⟨k,hk,hkl,hkh,-⟩ := @ih (f*2) (e-1) (by omega) hlow
      rw [Nat.mul_assoc,← pow_succ'] at hk hkl hkh
      rw [if_pos hf,hshift]
      refine ⟨k+1,?_,hkl,hkh,fun h => absurd hf (by omega)⟩
      rw [hk]
      congr 1
      push_cast
      ring
    · rw [if_neg hf]
      refine ⟨0,?_,by simpa using hf,by simpa using hhigh,fun _ => rfl⟩
      simp

theorem magnitude_bounds {f : ℕ} (hlow : 2^F.point ≤ f) (hhigh : f < 2^(F.point+1)) (e : ℤ) :
    (2 : ℚ)^e ≤ f*2^(e-F.point) ∧ (f : ℚ)*2^(e-F.point) < 2^(e+1) := by
  have hpos : (0 : ℚ) < 2^(e-F.point) := zpow_pos two_pos _
  have hsplit : (2 : ℚ)^e = 2^F.point*2^(e-F.point) := by
    rw [pow_mul_zpow]
    congr 1
    ring
  have hsplit' : (2 : ℚ)^(e+1) = 2^(F.point+1)*2^(e-F.point) := by
    rw [pow_mul_zpow]
    congr 1
    push_cast
    ring
  constructor
  · rw [hsplit]
    exact mul_le_mul_of_nonneg_right (by exact_mod_cast hlow) hpos.le
  · rw [hsplit']
    exact mul_lt_mul_of_pos_right (by exact_mod_cast hhigh) hpos

/-- The magnitude of the smallest normal pattern. -/
theorem magnitude_minNormal : magnitude F (2^F.fracBits) = minNormal F := by
  rw [magnitude_subnormal F (Nat.le_refl _),minNormal]
  push_cast
  rw [pow_mul_zpow]
  congr 1
  ring

theorem raw_fraction (x : Flo F) : F.wordOrder (BitVec.toNat x)%2^F.fracBits =
    rawMagnitude F x%2^F.fracBits := by
  rw [rawMagnitude,Nat.mod_mod_of_dvd _ (Nat.pow_dvd_pow 2 (Nat.le_add_right ..))]

theorem raw_exp (x : Flo F) : F.wordOrder (BitVec.toNat x)/2^F.fracBits%2^F.expBits =
    rawMagnitude F x/2^F.fracBits := by
  rw [rawMagnitude,pow_add,Nat.mod_mul_right_div_self]

/-- A fraction that is shifted above the guard bits stays in its word. -/
theorem trunc_shifted {m : ℕ} (hm : m < 2^F.fracBits) :
    F.trunc (m <<< F.ngards) = m*2^F.ngards ∧ m*2^F.ngards < 2^F.point := by
  have hlow := Nat.mul_lt_mul_of_pos_right hm (Nat.two_pow_pos F.ngards)
  rw [← pow_point F] at hlow
  have hpow : 2^(F.point+1) = 2*2^F.point := pow_succ' 2 _
  have hpow' : 2^(F.point+2) = 2*2^(F.point+1) := pow_succ' 2 _
  exact ⟨by rw [Nat.shiftLeft_eq,trunc_eq (by omega)],hlow⟩

theorem or_implicit1 {m : ℕ} (hm : m < 2^F.fracBits) :
    F.trunc (m <<< F.ngards) ||| F.implicit1 = (2^F.fracBits+m)*2^F.ngards := by
  obtain ⟨hshift,hlow⟩ := trunc_shifted hm
  have hor := Nat.two_pow_add_eq_or_of_lt hlow 1
  rw [Nat.mul_one] at hor
  rw [hshift,implicit1_eq,Nat.or_comm,← hor,Nat.add_mul,pow_point F]

theorem unpackD_subnormal {x : Flo F} (hpos : rawMagnitude F x ≠ 0)
    (hexp : rawMagnitude F x/2^F.fracBits = 0) (dst : FpNumber) :
    Holds F (unpackD F x dst) (rawMagnitude F x) ∧ (unpackD F x dst).sign = rawSign F x := by
  have hsplit := Nat.div_add_mod' (rawMagnitude F x) (2^F.fracBits)
  have hrem := Nat.mod_lt (rawMagnitude F x) (Nat.two_pow_pos F.fracBits)
  simp only [unpackD,raw_fraction,raw_exp]
  rw [hexp,Nat.zero_mul,Nat.zero_add] at hsplit
  rw [if_pos hexp,if_neg (by omega),hsplit,hexp]
  rw [hsplit] at hrem
  generalize rawMagnitude F x = m at *
  obtain ⟨hshift,hlow⟩ := trunc_shifted hrem
  have hhigh : m*2^F.ngards < 2^(F.point+1) :=
    hlow.trans (Nat.pow_lt_pow_right one_lt_two (Nat.lt_succ_self _))
  have hfuel : 2^F.point ≤ m*2^F.ngards*2^F.fracNBits := by
    have hle : 2^F.point ≤ 2^F.fracNBits :=
      Nat.pow_le_pow_right two_pos ((Nat.le_add_right _ 2).trans (point_lt F))
    exact hle.trans (Nat.le_mul_of_pos_left _
      (Nat.mul_pos (Nat.pos_of_ne_zero hpos) (Nat.two_pow_pos _)))
  obtain ⟨k,hk,hkl,hkh,-⟩ := unpackLoop_spec F.fracNBits
    (e := ((0 : ℕ) : ℤ)-F.expBias+1) hhigh hfuel
  rw [hshift,hk]
  refine ⟨⟨rfl,hkl,hkh,?_,?_⟩,rfl⟩
  · exact Dvd.dvd.mul_right (Nat.dvd_mul_left ..) _
  · rw [magnitude_subnormal F hrem.le,Format.normalExpMin]
    push_cast
    rw [mul_assoc,mul_assoc,pow_mul_zpow,pow_mul_zpow,Format.point]
    congr 2
    push_cast
    ring

theorem unpackD_normal {x : Flo F} (hexp : rawMagnitude F x/2^F.fracBits ≠ 0)
    (hlt : rawMagnitude F x < F.infinity) (dst : FpNumber) :
    Holds F (unpackD F x dst) (rawMagnitude F x) ∧ (unpackD F x dst).sign = rawSign F x := by
  have hexpMax : rawMagnitude F x/2^F.fracBits < F.expMax :=
    Nat.div_lt_of_lt_mul (by rwa [Nat.mul_comm])
  have hsplit := Nat.div_add_mod' (rawMagnitude F x) (2^F.fracBits)
  have hrem := Nat.mod_lt (rawMagnitude F x) (Nat.two_pow_pos F.fracBits)
  have hpoint := pow_point F
  have hpow : 2^(F.point+1) = 2*2^F.point := pow_succ' 2 _
  obtain ⟨c,hc⟩ := Nat.exists_eq_succ_of_ne_zero hexp
  simp only [unpackD,raw_fraction,raw_exp]
  rw [if_neg hexp,if_neg hexpMax.ne,or_implicit1 hrem]
  refine ⟨⟨rfl,?_,?_,Nat.dvd_mul_left ..,?_⟩,rfl⟩
  · change 2^F.point ≤ (2^F.fracBits+rawMagnitude F x%2^F.fracBits)*2^F.ngards
    rw [hpoint]
    exact Nat.mul_le_mul_right _ (Nat.le_add_right ..)
  · change (2^F.fracBits+rawMagnitude F x%2^F.fracBits)*2^F.ngards < 2^(F.point+1)
    rw [hpow,hpoint,← Nat.mul_assoc]
    apply Nat.mul_lt_mul_of_pos_right _ (Nat.two_pow_pos _)
    omega
  · rw [hc] at hsplit
    have hmag := magnitude_normal F c _ hrem
    rw [hsplit] at hmag
    rw [hmag,hc,Format.normalExpMin,Format.point]
    push_cast
    rw [mul_assoc,pow_mul_zpow]
    congr 2
    ring

/-- A pattern of a finite number that is not zero is unpacked to what it stands for. -/
theorem unpackD_number {x : Flo F} (hpos : rawMagnitude F x ≠ 0)
    (hlt : rawMagnitude F x < F.infinity) (dst : FpNumber) :
    Holds F (unpackD F x dst) (rawMagnitude F x) ∧ (unpackD F x dst).sign = rawSign F x := by
  by_cases hexp : rawMagnitude F x/2^F.fracBits = 0
  · exact unpackD_subnormal hpos hexp dst
  · exact unpackD_normal hexp hlt dst

theorem decode_finite {x : Flo F} {s : Bool} {m : ℕ} (h : decode F x = .finite s m) :
    rawSign F x = s ∧ rawMagnitude F x = m ∧ rawMagnitude F x < F.infinity := by
  unfold decode datum at h
  split at h
  · rename_i hlt
    obtain ⟨hs,hm⟩ := Datum.finite.inj h
    exact ⟨hs,hm,hlt⟩
  · split at h <;> cases h

theorem halfEven_guards {f : ℕ} (hf : 2^F.ngards ∣ f) :
    halfEven (2^(F.ngards-1)) f = f/2^F.ngards := by
  have hpos := Nat.two_pow_pos (F.ngards-1)
  rw [halfEven_down,two_half]
  rw [two_half,Nat.mod_eq_zero_of_dvd hf]
  omega

/-- A number in the normal range without guard bits is on the grid. -/
theorem magnitude_of_normal {f c : ℕ} (hlow : 2^F.point ≤ f) (hhigh : f < 2^(F.point+1))
    (hguards : 2^F.ngards ∣ f) : magnitude F (c*2^F.fracBits+f/2^F.ngards) =
      f*2^(c+F.normalExpMin-F.point : ℤ) := by
  obtain ⟨hge,hle⟩ := halfEven_bounds hlow hhigh.le
  rw [halfEven_guards hguards] at hge hle
  rw [magnitude_grid F c _ hge hle]
  obtain ⟨q,rfl⟩ := hguards
  rw [Nat.mul_div_cancel_left _ (Nat.two_pow_pos _)]
  push_cast
  rw [mul_comm ((2 : ℚ)^F.ngards),mul_assoc,pow_mul_zpow,Format.point]
  congr 2
  push_cast
  ring

/-- Packing a number below the normal range cuts its fraction off. -/
theorem decode_packD_subnormal {src : FpNumber} (hcls : src.cls = .number) (hpos : src.fraction ≠ 0)
    (hhigh : src.fraction < 2^(F.point+1)) {k : ℕ} (hk : 0 < k)
    (hexp : F.normalExpMin-src.normalExp = k) :
    decode F (packD F src) = .finite src.sign (src.fraction/2^(F.ngards+k)) := by
  have hfracBits := fracBits_le F
  have hsmall : src.fraction/2^(F.ngards+k) < 2^F.fracBits := by
    apply Nat.div_lt_of_lt_mul
    apply hhigh.trans_le
    rw [← pow_add,Format.point]
    exact Nat.pow_le_pow_right two_pos (by omega)
  have hparts : packParts F src = (src.fraction/2^(F.ngards+k),((0 : ℕ) : ℤ)) := by
    simp only [packParts,isnan,isinf,iszero,hcls,reduceCtorEq,decide_false,Bool.or_false,
      Bool.false_eq_true,if_false,hpos]
    rw [if_pos (by omega),hexp,Int.toNat_natCast]
    split
    · -- everything is shifted out
      have hzero : src.fraction/2^(F.ngards+k) = 0 := by
        apply Nat.div_eq_of_lt
        apply hhigh.trans_le
        rw [Format.point]
        exact Nat.pow_le_pow_right two_pos (by omega)
      rw [Nat.zero_shiftRight,hzero]
      rfl
    · rw [Nat.shiftRight_eq_div_pow,Nat.shiftRight_eq_div_pow,Nat.div_div_eq_div_mul,← pow_add,
        Nat.add_comm k]
      rfl
  have hinf : 2^F.fracBits ≤ F.infinity := by cases F <;> decide
  rw [SoftFloat.decode_packD,hparts,joined_eq (Nat.two_pow_pos _),Nat.mod_eq_of_lt hsmall,
    Nat.zero_mul,Nat.add_zero,datum,if_pos (by omega)]

/-- Whatever its fraction, a number below the normal range is packed as a zero or a subnormal. -/
theorem decode_packD_below {src : FpNumber} (hcls : src.cls = .number)
    (hexp : src.normalExp < F.normalExpMin) :
    ∃ m < 2^F.fracBits, decode F (packD F src) = .finite src.sign m := by
  have hparts : ∃ f, packParts F src = (f,((0 : ℕ) : ℤ)) := by
    by_cases hzero : src.fraction = 0
    · refine ⟨src.fraction,?_⟩
      simp [packParts,isnan,isinf,iszero,hcls,hzero]
    · simp only [packParts,isnan,isinf,iszero,hcls,reduceCtorEq,decide_false,Bool.or_false,
        Bool.false_eq_true,if_false,hzero,if_pos hexp]
      exact ⟨_,rfl⟩
  obtain ⟨f,hf⟩ := hparts
  have hlt := Nat.mod_lt f (Nat.two_pow_pos F.fracBits)
  have hinf : 2^F.fracBits ≤ F.infinity := by cases F <;> decide
  refine ⟨f%2^F.fracBits,hlt,?_⟩
  rw [SoftFloat.decode_packD,hf,joined_eq (Nat.two_pow_pos _),Nat.zero_mul,Nat.add_zero,datum,
    if_pos (by omega)]

/-- A pattern of a finite number comes back from packing, also when it is subnormal. -/
theorem Holds.decode_packD {n : FpNumber} {m : ℕ} (h : Holds F n m) (hm : m < F.infinity) :
    decode F (packD F n) = .finite n.sign m := by
  by_cases hexp : F.normalExpMin ≤ n.normalExp
  · obtain ⟨c,hc⟩ := Int.eq_ofNat_of_zero_le (sub_nonneg.mpr hexp)
    have hexp' : n.normalExp = c+F.normalExpMin := by
      rw [← hc]
      ring
    have hmag := magnitude_of_normal h.low h.high h.guards (c := c)
    rw [← hexp',← h.value] at hmag
    have heq := (strictMono_magnitude F).injective hmag
    rw [decode_packD_normal h.cls h.low h.high.le hexp' rfl,halfEven_guards h.guards,heq,if_pos hm]
  · have hsub : m < 2^F.fracBits := by
      rw [← (strictMono_magnitude F).lt_iff_lt,magnitude_minNormal,minNormal,h.value]
      apply (magnitude_bounds h.low h.high _).2.trans_le
      exact zpow_le_zpow_right₀ one_le_two (by omega)
    obtain ⟨k,hk⟩ := Int.eq_ofNat_of_zero_le (show 0 ≤ F.normalExpMin-n.normalExp by omega)
    have hfrac : n.fraction = m*2^(F.ngards+k) := by
      have hvalue := h.value
      rw [magnitude_subnormal F hsub.le] at hvalue
      have hsplit : (2 : ℚ)^(F.normalExpMin-F.fracBits) =
          2^(F.ngards+k)*2^(n.normalExp-F.point) := by
        rw [pow_mul_zpow,Format.point]
        congr 1
        push_cast
        omega
      rw [hsplit,← mul_assoc] at hvalue
      have := mul_right_cancel₀ (zpow_pos two_pos _).ne' hvalue
      exact_mod_cast this.symm
    have hnonzero : n.fraction ≠ 0 := by
      have := h.low
      have := Nat.two_pow_pos F.point
      omega
    rw [decode_packD_subnormal h.cls hnonzero h.high (by omega) hk,hfrac,
      Nat.mul_div_cancel _ (Nat.two_pow_pos _)]

theorem decode_packD_zero {n : FpNumber} (h : n.cls = .zero) :
    decode F (packD F n) = .finite n.sign 0 := by
  have hpos : 0 < F.infinity := by cases F <;> decide
  have hparts : packParts F n = (0,((0 : ℕ) : ℤ)) := by simp [packParts,isnan,isinf,iszero,h]
  rw [decode_packD,hparts,joined_eq (Nat.two_pow_pos _),Nat.zero_mod,Nat.zero_mul,Nat.add_zero,datum,
    if_pos hpos]

/-- A number without a fraction is packed as a zero. -/
theorem decode_packD_null {n : FpNumber} (h : n.cls = .number) (hf : n.fraction = 0) :
    decode F (packD F n) = .finite n.sign 0 := by
  have hpos : 0 < F.infinity := by cases F <;> decide
  have hparts : packParts F n = (0,((0 : ℕ) : ℤ)) := by simp [packParts,isnan,isinf,iszero,h,hf]
  rw [decode_packD,hparts,joined_eq (Nat.two_pow_pos _),Nat.zero_mod,Nat.zero_mul,Nat.add_zero,datum,
    if_pos hpos]

theorem decode_packD_infinity {n : FpNumber} (h : n.cls = .infinity) :
    decode F (packD F n) = .inf n.sign := by
  have hparts : packParts F n = (0,(F.expMax : ℤ)) := by simp [packParts,isnan,isinf,h]
  have hmax := expMax_eq F
  rw [decode_packD,hparts,joined_eq (by omega),Nat.zero_mod,Nat.zero_add]
  exact datum_infinity F n.sign

theorem decode_packD_nan {n : FpNumber} (h : isnan n = true) : decode F (packD F n) = .nan := by
  have hparts : packParts F n = (n.fraction ||| F.quietNan,(F.expMax : ℤ)) := by
    simp [packParts,h]
  have hmax := expMax_eq F
  have hquiet : (n.fraction ||| F.quietNan)%2^F.fracBits ≠ 0 := by
    rw [Nat.or_mod_two_pow,Nat.mod_eq_of_lt (quietNan_lt F)]
    have hle : F.quietNan ≤ n.fraction%2^F.fracBits ||| F.quietNan := Nat.right_le_or
    have := quietNan_pos F
    omega
  rw [decode_packD,hparts,joined_eq (by omega),← Format.infinity]
  generalize (n.fraction ||| F.quietNan)%2^F.fracBits = r at hquiet
  rw [datum,if_neg (by omega),if_neg (by omega)]

/-- What the tests of the source say about a class. -/
theorem tests_infinity {n : FpNumber} (h : n.cls = .infinity) :
    isnan n = false ∧ isinf n = true ∧ iszero n = false := by
  simp [isnan,isinf,iszero,h]

theorem tests_zero {n : FpNumber} (h : n.cls = .zero) :
    isnan n = false ∧ isinf n = false ∧ iszero n = true := by
  simp [isnan,isinf,iszero,h]

theorem tests_number {n : FpNumber} (h : n.cls = .number) :
    isnan n = false ∧ isinf n = false ∧ iszero n = false := by
  simp [isnan,isinf,iszero,h]

/-- An unpacked number and what it stands for. -/
inductive Unpacked (F : Format) : FpNumber → Datum → Prop
  | nan {n} : isnan n = true → Unpacked F n .nan
  | inf {n} : n.cls = .infinity → Unpacked F n (.inf n.sign)
  | zero {n} : n.cls = .zero → Unpacked F n (.finite n.sign 0)
  | number {n m} : m ≠ 0 → m < F.infinity → Holds F n m → Unpacked F n (.finite n.sign m)

theorem Unpacked.decode_packD {n : FpNumber} {d : Datum} (h : Unpacked F n d) :
    decode F (packD F n) = d := by
  cases h with
  | nan h => exact decode_packD_nan h
  | inf h => exact decode_packD_infinity h
  | zero h => exact decode_packD_zero h
  | number _ hm h => exact h.decode_packD hm

theorem Unpacked.of_inf {n : FpNumber} {s : Bool} (h : Unpacked F n (.inf s)) :
    n.cls = .infinity ∧ n.sign = s := by
  cases h with
  | inf h => exact ⟨h,rfl⟩

theorem Holds.withSign {n : FpNumber} {m : ℕ} (h : Holds F n m) (s : Bool) :
    Holds F { n with sign := s } m := ⟨h.cls,h.low,h.high,h.guards,h.value⟩

theorem Unpacked.neg {n : FpNumber} {d : Datum} (h : Unpacked F n d) :
    Unpacked F { n with sign := !n.sign } d.neg := by
  cases h with
  | nan h => exact .nan h
  | inf h => exact .inf (n := { n with sign := !n.sign }) h
  | zero h => exact .zero (n := { n with sign := !n.sign }) h
  | number hm hlt h => exact .number (n := { n with sign := !n.sign }) hm hlt (h.withSign _)

theorem unpackD_zero {x : Flo F} (h : rawMagnitude F x = 0) (dst : FpNumber) :
    unpackD F x dst = { dst with sign := rawSign F x, cls := .zero } := by
  simp only [unpackD,raw_fraction,raw_exp,h,Nat.zero_div,Nat.zero_mod,if_true]
  rfl

/-- `unpack_d` gives what the pattern stands for, whatever the structure held before. -/
theorem unpackD_spec (x : Flo F) (dst : FpNumber) : Unpacked F (unpackD F x dst) (decode F x) := by
  have hsplit := Nat.div_add_mod' (rawMagnitude F x) (2^F.fracBits)
  have hbound : rawMagnitude F x/2^F.fracBits ≤ F.expMax := by
    have hlt : rawMagnitude F x < 2^(F.fracBits+F.expBits) := Nat.mod_lt _ (Nat.two_pow_pos _)
    rw [pow_add] at hlt
    have := Nat.div_lt_of_lt_mul hlt
    have := expMax_eq F
    omega
  have hmax : F.expMax ≠ 0 := by cases F <;> decide
  rcases Nat.lt_trichotomy (rawMagnitude F x) F.infinity with hlt | heq | hgt
  · rw [decode,datum,if_pos hlt]
    by_cases hzero : rawMagnitude F x = 0
    · rw [unpackD_zero hzero,hzero]
      exact .zero (n := { dst with sign := rawSign F x, cls := .zero }) rfl
    · obtain ⟨hholds,hsign⟩ := unpackD_number hzero hlt dst
      rw [← hsign]
      exact .number hzero hlt hholds
  · have hexp : rawMagnitude F x/2^F.fracBits = F.expMax := by
      rw [heq,Format.infinity,Nat.mul_div_cancel _ (Nat.two_pow_pos _)]
    have hfrac : rawMagnitude F x%2^F.fracBits = 0 := by
      rw [heq,Format.infinity,Nat.mul_mod_left]
    have hunpack : unpackD F x dst = { dst with sign := rawSign F x, cls := .infinity } := by
      simp only [unpackD,raw_fraction,raw_exp,hexp,hfrac,if_true,if_neg hmax]
      rfl
    rw [decode,heq,datum_infinity,hunpack]
    exact .inf (n := { dst with sign := rawSign F x, cls := .infinity }) rfl
  · have hexp : rawMagnitude F x/2^F.fracBits = F.expMax :=
      le_antisymm hbound ((Nat.le_div_iff_mul_le (Nat.two_pow_pos _)).mpr hgt.le)
    have hfrac : rawMagnitude F x%2^F.fracBits ≠ 0 := by
      rw [hexp] at hsplit
      rw [Format.infinity] at hgt
      omega
    rw [decode,datum,if_neg (by omega),if_neg (by omega)]
    apply Unpacked.nan
    simp only [unpackD,raw_fraction,raw_exp,hexp,hfrac,if_true,if_false,if_neg hmax,isnan]
    split <;> rfl

theorem unpackD_inf {x : Flo F} {s : Bool} (h : decode F x = .inf s) (dst : FpNumber) :
    (unpackD F x dst).cls = .infinity ∧ (unpackD F x dst).sign = s := by
  have hspec := unpackD_spec x dst
  rw [h] at hspec
  exact hspec.of_inf

theorem magnitude_lt_of_exp {a b : FpNumber} {m k : ℕ} (ha : Holds F a m) (hb : Holds F b k)
    (hlt : b.normalExp < a.normalExp) : magnitude F k < magnitude F m := by
  rw [ha.value,hb.value]
  calc (b.fraction : ℚ)*2^(b.normalExp-F.point) < 2^(b.normalExp+1) :=
        (magnitude_bounds hb.low hb.high _).2
    _ ≤ 2^a.normalExp := zpow_le_zpow_right₀ one_le_two hlt
    _ ≤ a.fraction*2^(a.normalExp-F.point) := (magnitude_bounds ha.low ha.high _).1

theorem magnitude_lt_of_fraction {a b : FpNumber} {m k : ℕ} (ha : Holds F a m) (hb : Holds F b k)
    (heq : b.normalExp = a.normalExp) (hlt : b.fraction < a.fraction) :
    magnitude F k < magnitude F m := by
  rw [ha.value,hb.value,heq]
  exact mul_lt_mul_of_pos_right (by exact_mod_cast hlt) (zpow_pos two_pos _)

theorem datum_inj {s t : Bool} {m k : ℕ} (h : datum F s m = datum F t k) (hs : datum F s m ≠ .nan) :
    s = t ∧ m = k := by
  unfold datum at h hs
  split at h <;> split at h <;> (try split at h) <;> (try split at h) <;> simp_all

/-- The bits of a pattern are its sign and its magnitude. -/
theorem raw_eq (x : Flo F) : F.wordOrder (BitVec.toNat x) =
    (rawSign F x).toNat*2^(F.fracBits+F.expBits)+rawMagnitude F x := by
  have htop : F.wordOrder (BitVec.toNat x)/2^(F.fracBits+F.expBits) < 2 := by
    apply Nat.div_lt_of_lt_mul
    rw [← pow_succ,width_eq]
    exact wordOrder_lt F x.isLt
  have hsplit := Nat.div_add_mod' (F.wordOrder (BitVec.toNat x)) (2^(F.fracBits+F.expBits))
  rw [rawMagnitude,rawSign,Nat.mod_eq_of_lt htop]
  rcases Nat.lt_succ_iff_lt_or_eq.mp htop with hzero | hone
  · rw [Nat.lt_one_iff.mp hzero] at hsplit ⊢
    exact hsplit.symm
  · rw [hone] at hsplit ⊢
    exact hsplit.symm

theorem raw_inj {x y : Flo F} (h : F.wordOrder (BitVec.toNat x) = F.wordOrder (BitVec.toNat y)) :
    x = y := by
  apply BitVec.eq_of_toNat_eq
  rw [← wordOrder_wordOrder F x.isLt,← wordOrder_wordOrder F y.isLt,h]

/-- Two patterns that are not NaNs and stand for the same are the same. -/
theorem decode_inj {x y : Flo F} (h : decode F x = decode F y) (hx : decode F x ≠ .nan) : x = y := by
  obtain ⟨hsign,hmag⟩ := datum_inj h hx
  apply raw_inj
  rw [raw_eq,raw_eq,hsign,hmag]

end Unpack

section Rounding

variable {F : Format}

/-- What is at least the smallest normal number has an exponent of the normal range. -/
theorem normalExpMin_le {y : ℚ} {e : ℤ} (hy : y < 2^(F.point+1))
    (hmin : minNormal F ≤ y*2^(e-F.point)) : ∃ c : ℕ, e = c+F.normalExpMin := by
  have hlt := mul_lt_mul_of_pos_right hy (zpow_pos two_pos (e-F.point) : (0 : ℚ) < _)
  have hsum : ((F.point+1 : ℕ) : ℤ)+(e-F.point) = e+1 := by
    push_cast
    ring
  rw [pow_mul_zpow,hsum] at hlt
  have hexp := (zpow_lt_zpow_iff_right₀ one_lt_two).mp (hmin.trans_lt hlt)
  obtain ⟨c,hc⟩ := Int.eq_ofNat_of_zero_le (show 0 ≤ e-F.normalExpMin by omega)
  exact ⟨c,by omega⟩

/-- A number whose fraction rounds like `y` is packed as the exact number is rounded. -/
theorem rounded_packD {src : FpNumber} {x y : ℚ} (hcls : src.cls = .number)
    (hlow : 2^F.point ≤ src.fraction) (hhigh : src.fraction ≤ 2^(F.point+1))
    (hround : RoundsTo (2^F.ngards) y (halfEven (2^(F.ngards-1)) src.fraction))
    (hylow : 2^F.point ≤ y) (hyhigh : y < 2^(F.point+1))
    (hx : |x| = y*2^(src.normalExp-F.point)) (hsign : src.sign = decide (x < 0))
    (hmin : minNormal F ≤ |x|) : Rounded F x (decode F (packD F src)) := by
  have hscale : (0 : ℚ) < 2^(src.normalExp-F.point) := zpow_pos two_pos _
  obtain ⟨c,hexp'⟩ := normalExpMin_le hyhigh (hx ▸ hmin)
  refine ⟨c*2^F.fracBits+halfEven (2^(F.ngards-1)) src.fraction,?_,?_⟩
  · rw [hx]
    have hgrid : ∀ j : ℕ, 2^F.fracBits ≤ j → j ≤ 2^(F.fracBits+1) →
        magnitude F (c*2^F.fracBits+j) = j*(2^F.ngards : ℕ)*2^(src.normalExp-F.point) := by
      intro j hj hj'
      rw [magnitude_grid F c j hj hj',hexp',mul_assoc]
      push_cast
      rw [pow_mul_zpow,Format.point]
      congr 2
      push_cast
      ring
    apply hround.nearestEven (strictMono_magnitude F) hscale
      ((even_pow_fracBits F).mul_left c) hgrid
    · have : ((2^F.point : ℕ) : ℚ) ≤ y := by exact_mod_cast hylow
      rw [pow_point] at this
      exact_mod_cast this
    · have : y < ((2^(F.point+1) : ℕ) : ℚ) := by exact_mod_cast hyhigh
      rw [pow_point_succ] at this
      exact_mod_cast this
  · rw [decode_packD_normal hcls hlow hhigh hexp' rfl,hsign]

theorem half_dvd_point : 2^(F.ngards-1) ∣ 2^F.point := by
  apply Nat.pow_dvd_pow
  rw [Format.point]
  omega

theorem half_dvd_point_succ : 2^(F.ngards-1) ∣ 2^(F.point+1) :=
  half_dvd_point.trans (Nat.pow_dvd_pow 2 (Nat.le_succ _))

/-- A fraction in its place that compares like the exact one with halves of the last place kept. -/
theorem rounded_inPlace {f : ℕ} {e : ℤ} {x y : ℚ} {sign : Bool} (hlow : 2^F.point ≤ f)
    (hhigh : f < 2^(F.point+1)) (h : Alike (2^(F.ngards-1)) f y) (hx : |x| = y*2^(e-F.point))
    (hsign : sign = decide (x < 0)) (hmin : minNormal F ≤ |x|) : Rounded F x
      (decode F (packD F { cls := .number, sign := sign, normalExp := e, fraction := f })) := by
  have hround := h.roundsTo (Nat.two_pow_pos _)
  rw [two_half] at hround
  have hylow := (h.le_iff half_dvd_point).mp (by exact_mod_cast hlow)
  have hyhigh := (h.lt_iff half_dvd_point_succ).mp (by exact_mod_cast hhigh)
  push_cast at hylow hyhigh
  exact rounded_packD rfl hlow hhigh.le hround hylow hyhigh hx hsign hmin

/-- What the format can represent is not changed by rounding. -/
theorem Rounded.exact {x : ℚ} {r : Datum} {m : ℕ} (h : Rounded F x r) (hx : |x| = magnitude F m)
    (hm : m < F.infinity) : r = .finite (decide (x < 0)) m := by
  obtain ⟨k,hk,rfl⟩ := h
  obtain rfl : k = m := eq_of_nearestEven (strictMono_magnitude F) (hx ▸ hk)
  rw [if_pos hm]

theorem rounded_of_exact {x : ℚ} {m : ℕ} (hx : |x| = magnitude F m) (hm : m < F.infinity) :
    Rounded F x (.finite (decide (x < 0)) m) :=
  ⟨m,hx ▸ nearestEven_self (strictMono_magnitude F) m,by rw [if_pos hm]⟩

/-- A number with few enough bits, and an exponent in the normal range, has a pattern. -/
theorem representable {n : ℕ} {t : ℤ} (hn : n ≠ 0) (hsmall : n < 2^(F.fracBits+1))
    (hlow : F.normalExpMin ≤ n.log2+t) (hhigh : (n.log2 : ℤ)+t ≤ F.expBias) :
    ∃ m, m ≠ 0 ∧ m < F.infinity ∧ magnitude F m = n*2^t := by
  obtain ⟨c,hc⟩ := Int.eq_ofNat_of_zero_le (sub_nonneg.mpr hlow)
  have hlog : n.log2 ≤ F.fracBits := by
    have := (Nat.log2_lt hn).mpr hsmall
    omega
  have hge : 2^F.fracBits ≤ n*2^(F.fracBits-n.log2) := by
    have hpow : 2^F.fracBits = 2^n.log2*2^(F.fracBits-n.log2) := by
      rw [← pow_add,Nat.add_sub_cancel' hlog]
    rw [hpow]
    exact Nat.mul_le_mul_right _ (Nat.log2_self_le hn)
  have hlt : n*2^(F.fracBits-n.log2) < 2^(F.fracBits+1) := by
    have hpow : 2^(F.fracBits+1) = 2^(n.log2+1)*2^(F.fracBits-n.log2) := by
      rw [← pow_add]
      congr 1
      omega
    rw [hpow]
    exact Nat.mul_lt_mul_of_pos_right Nat.lt_log2_self (Nat.two_pow_pos _)
  have hpos := Nat.two_pow_pos F.fracBits
  refine ⟨c*2^F.fracBits+n*2^(F.fracBits-n.log2),by omega,?_,?_⟩
  · have hbias := expMax_bias F
    have hmin : F.normalExpMin = -(F.expBias : ℤ)+1 := rfl
    have hc' : c+2 ≤ F.expMax := by omega
    have hmul := Nat.mul_le_mul_right (2^F.fracBits) hc'
    rw [Nat.add_mul] at hmul
    rw [Format.infinity]
    have htop : 2^(F.fracBits+1) = 2*2^F.fracBits := pow_succ' 2 _
    omega
  · rw [magnitude_grid F c _ hge hlt.le]
    push_cast
    rw [mul_assoc,pow_mul_zpow]
    congr 2
    omega

/-- What is rounded early, and again when it is packed, is rounded once: the rest only has to be known
to be zero or not. -/
theorem roundHalf_spec {high low : ℕ} {t y : ℚ} (hge : 2^F.point ≤ high)
    (hlt : high < 2^(F.point+1)) (ht : 0 ≤ t) (ht' : t < 1) (hzero : t = 0 ↔ low = 0)
    (hy : y = high+t) :
    RoundsTo (2^F.ngards) y (halfEven (2^(F.ngards-1)) (roundHalf F high low)) ∧
      2^F.point ≤ roundHalf F high low ∧ roundHalf F high low ≤ 2^(F.point+1) := by
  have hhalf := half_le_point (F := F)
  have hp : 2^(F.point+2) = 2*2^(F.point+1) := pow_succ' 2 _
  have hsplit := Nat.div_add_mod high (2^F.ngards)
  have hrem := Nat.mod_lt high (Nat.two_pow_pos F.ngards)
  have hdouble := two_half F
  have hnext : high/2^F.ngards+1 ≤ 2^(F.fracBits+1) := by
    apply Nat.div_lt_of_lt_mul
    rwa [Nat.mul_comm,← pow_point_succ]
  have hnext' := Nat.mul_le_mul_left (2^F.ngards) hnext
  rw [Nat.mul_comm _ (2^(F.fracBits+1)),← pow_point_succ,Nat.mul_succ] at hnext'
  rw [roundHalf,and_gardMask,gardMsb_eq,gardRound_eq,trunc_eq (by omega)]
  simp only [and_ngards]
  rw [← hdouble] at hsplit hrem hnext' ⊢
  generalize hq : high/(2*2^(F.ngards-1)) = q at *
  generalize hr : high%(2*2^(F.ngards-1)) = r at *
  generalize 2^(F.ngards-1) = D at *
  subst hy hsplit
  by_cases hmid : r = D
  · rw [if_pos hmid]
    by_cases hup : q%2 = 1 ∨ low ≠ 0
    · have hround := roundsTo_up (q := q) hrem ht ht'
        (.inr ⟨hmid,hup.imp Nat.odd_iff.mpr hzero.not.mpr⟩)
      have hvalue : (if q%2 = 1 then 2*D*q+r+D else if low ≠ 0 then 2*D*q+r+D else 2*D*q+r) =
          2*D*(q+1) := by
        rw [Nat.mul_succ]
        rcases hup with hup | hup
        · rw [if_pos hup]
          omega
        · rw [if_pos hup,ite_self]
          omega
      rw [hvalue,halfEven_mul (by omega)]
      refine ⟨hround,?_,?_⟩
      · rw [Nat.mul_succ]
        omega
      · rw [Nat.mul_succ]
        omega
    · rw [if_neg (fun h => hup (.inl h)),if_neg (fun h => hup (.inr h))]
      have hlow : low = 0 := by omega
      have hround := roundsTo_down (q := q) hrem ht ht'
        (.inr ⟨hmid,Nat.even_iff.mpr (by omega),hzero.mpr hlow⟩)
      rw [halfEven_down (by rw [hr,hq]; omega),hq]
      exact ⟨hround,hge,hlt.le⟩
  · rw [if_neg hmid]
    by_cases hup : D < r
    · rw [halfEven_above hup hrem]
      exact ⟨roundsTo_up hrem ht ht' (.inl hup),hge,hlt.le⟩
    · rw [halfEven_below (by omega)]
      exact ⟨roundsTo_down hrem ht ht' (.inl (by omega)),hge,hlt.le⟩

end Rounding

end SoftFloat
end AgbTools
