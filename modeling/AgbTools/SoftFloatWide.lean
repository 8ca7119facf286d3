import AgbTools.SoftFloatMultiply
import AgbTools.SoftFloatDivide
import AgbTools.SoftFloatNarrow

/-! Conversions between the floating point formats and 64-bit integers, which libgcc2.c builds from the
soft-float routines and conversions of 32-bit halves. -/
namespace AgbTools
namespace SoftFloat

open Nearest

section Model

/-- The `double` constant of a power of two. -/
def powTwo (k : ℕ) : Flo .double :=
  pattern .double false ((Format.double.expBias+k)*2^Format.double.fracBits)

def zeroFlo (F : Format) : Flo F := pattern F false 0

-- `junk` is what the locals of the soft-float routines hold; the conversions of unsigned integers to
-- `double` are generated by the compiler.
variable (junk : ℕ → FpNumber) (floatunsSi floatunsDi : ℕ → Flo .double)

def fixunsdfdi (a : Flo .double) : BitVec 64 :=
  if ltF2 .double (junk 0) (junk 1) a (zeroFlo .double) < 0 then 0
  else
    let b := divide .double (junk 2) (junk 3) a (powTwo 32)
    let v := BitVec.ofNat 64 (fixunsSi .double (fun i => junk (4+i)) b) <<< 32
    let a := sub .double (junk 10) (junk 11) a (floatunsDi v.toNat)
    if ltF2 .double (junk 12) (junk 13) a (zeroFlo .double) < 0 then
      v-BitVec.ofNat 64 (fixunsSi .double (fun i => junk (14+i)) (negate .double (junk 20) a))
    else v+BitVec.ofNat 64 (fixunsSi .double (fun i => junk (14+i)) a)

def fixdfdi (a : Flo .double) : BitVec 64 :=
  if ltF2 .double (junk 21) (junk 22) a (zeroFlo .double) < 0 then
    -fixunsdfdi junk floatunsDi (negate .double (junk 23) a)
  else fixunsdfdi junk floatunsDi a

/-- `__fixunssfdi` has the body of `__fixunsdfdi` after it has widened its argument. -/
def fixunssfdi (a : Flo .float) : BitVec 64 := fixunsdfdi junk floatunsDi (sfToDf (junk 24) a)

def fixsfdi (a : Flo .float) : BitVec 64 :=
  if ltF2 .float (junk 25) (junk 26) a (zeroFlo .float) < 0 then
    -fixunssfdi junk floatunsDi (negate .float (junk 27) a)
  else fixunssfdi junk floatunsDi a

def floatdidf (u : BitVec 64) : Flo .double :=
  let d := siToFloat .double (junk 0) ((u.sshiftRight 32).setWidth 32)
  let d := multiply .double (junk 1) (junk 2) d (powTwo 16)
  let d := multiply .double (junk 3) (junk 4) d (powTwo 16)
  add .double (junk 5) (junk 6) d (floatunsSi (u &&& 0xffffffff#64).toNat)

def repBit : BitVec 64 := 1#64 <<< (64-53)

/-- Bits that might be lost in a `double` are meant to be represented by one that is not. -/
def foldLow (u : BitVec 64) : BitVec 64 :=
  if ¬(-2^53 < u.toInt ∧ u.toInt < 2^53) ∧ u &&& (repBit-1) ≠ 0 then u ||| repBit else u

/-- `__floatdisf`, which calculates as `__floatdidf` does. -/
def floatdisf (u : BitVec 64) : Flo .float := dfToSf (junk 7) (floatdidf junk floatunsSi (foldLow u))

/-- The conversions of unsigned integers are exact where a `double` can represent the number. -/
structure ExactUnsigned (floatunsSi floatunsDi : ℕ → Flo .double) : Prop where
  si : ∀ n < 2^32, Represents .double (floatunsSi n) n
  di : ∀ n k : ℕ, n < 2^53 → n*2^k < 2^64 → Represents .double (floatunsDi (n*2^k)) (n*2^k : ℕ)

end Model

section Exact

variable {F : Format}

theorem represents_zeroFlo : Represents F (zeroFlo F) 0 := by
  refine ⟨false,0,?_,value_zero _⟩
  cases F <;> decide

theorem value_eq_zero {s : Bool} {m : ℕ} (h : value F s m = 0) : m = 0 := by
  by_contra hm
  have habs := abs_value (F := F) s m
  rw [h,abs_zero] at habs
  exact (magnitude_pos F hm).ne habs

theorem multiply_represents (a b : FpNumber) {x y : Flo F} {p q : ℚ} (hx : Represents F x p)
    (hy : Represents F y q) (hprod : InFormat F (p*q)) : Represents F (multiply F a b x y) (p*q) := by
  obtain ⟨s,m,hdx,rfl⟩ := hx
  obtain ⟨t,n,hdy,rfl⟩ := hy
  have hspec := fpmulParts_spec (unpackD_spec x a) (unpackD_spec y b)
  rw [hdx,hdy] at hspec
  simp only [IeeeProduct] at hspec
  by_cases hzero : m = 0 ∨ n = 0
  · rw [if_pos hzero] at hspec
    refine ⟨_,_,hspec,?_⟩
    rcases hzero with rfl | rfl
    · rw [value_zero,value_zero,zero_mul]
    · rw [value_zero,value_zero,mul_zero]
  · rw [if_neg hzero] at hspec
    rcases hprod with hprod | ⟨hmin,k,hk,heq⟩
    · rcases mul_eq_zero.mp hprod with h | h
      · exact absurd (.inl (value_eq_zero h)) hzero
      · exact absurd (.inr (value_eq_zero h)) hzero
    · exact (hspec hmin).represents heq hk

theorem divide_represents (a b : FpNumber) {x y : Flo F} {p q : ℚ} (hx : Represents F x p)
    (hy : Represents F y q) (hq : q ≠ 0) (hquot : InFormat F (p/q)) :
    Represents F (divide F a b x y) (p/q) := by
  obtain ⟨s,m,hdx,rfl⟩ := hx
  obtain ⟨t,n,hdy,rfl⟩ := hy
  have hspec := fpdivParts_spec (unpackD_spec x a) (unpackD_spec y b)
  have hn : n ≠ 0 := by
    rintro rfl
    exact hq (value_zero t)
  rw [hdx,hdy] at hspec
  simp only [IeeeQuotient,hn,and_false,if_false] at hspec
  by_cases hm : m = 0
  · rw [if_pos hm] at hspec
    refine ⟨_,_,hspec,?_⟩
    rw [hm,value_zero,value_zero,zero_div]
  · rw [if_neg hm] at hspec
    rcases hquot with hquot | ⟨hmin,k,hk,heq⟩
    · exact absurd (value_eq_zero ((div_eq_zero_iff.mp hquot).resolve_right hq)) hm
    · exact (hspec hmin).represents heq hk

theorem sign_of_pos {s : Bool} {m : ℕ} (h : 0 < value F s m) :
    s = false ∧ m ≠ 0 ∧ magnitude F m = value F s m := by
  have hm : m ≠ 0 := by
    rintro rfl
    rw [value_zero] at h
    exact h.false
  cases s with
  | false => exact ⟨rfl,hm,rfl⟩
  | true => exact absurd h (not_lt.mpr (value_neg_of_true hm).le)

/-- A quotient that is too small for a normal number is at least not rounded to one. -/
theorem divide_small (a b : FpNumber) {x y : Flo F} {p q : ℚ} (hx : Represents F x p)
    (hy : Represents F y q) (hp : 0 < p) (hq : 0 < q) (hsmall : p/q < minNormal F) :
    ∃ r, Represents F (divide F a b x y) r ∧ 0 ≤ r ∧ r < minNormal F := by
  obtain ⟨s,m,hdx,rfl⟩ := hx
  obtain ⟨t,n,hdy,rfl⟩ := hy
  obtain ⟨rfl,hm,hmag⟩ := sign_of_pos hp
  obtain ⟨rfl,hn,hmag'⟩ := sign_of_pos hq
  rw [← hmag,← hmag'] at hsmall
  obtain ⟨k,hk,hdk⟩ := divide_below a b hdx hdy hm hn hsmall
  refine ⟨_,⟨_,_,hdk,rfl⟩,?_,?_⟩
  · change 0 ≤ magnitude F k
    rw [← abs_value false]
    exact abs_nonneg _
  · change magnitude F k < _
    rw [← magnitude_minNormal]
    exact strictMono_magnitude F hk

theorem Represents.rounded {x : Flo F} {q : ℚ} (hx : Represents F x q) (hq : q ≠ 0) :
    Rounded F q (decode F x) := by
  obtain ⟨s,m,hd,rfl⟩ := hx
  obtain ⟨-,hm,hlt⟩ := decode_finite hd
  have hne : m ≠ 0 := by
    rintro rfl
    exact hq (value_zero s)
  have hsign : decide (value F s m < 0) = s := (applySign_pos s (magnitude_pos F hne)).2
  have hdata := rounded_of_exact (abs_value s m) (hm ▸ hlt)
  rw [hsign] at hdata
  rwa [hd]

/-- A sum in the normal range is rounded once. -/
theorem add_rounded (a b : FpNumber) {x y : Flo F} {p q : ℚ} (hx : Represents F x p)
    (hy : Represents F y q) (hmin : minNormal F ≤ |p+q|) : Rounded F (p+q) (decode F (add F a b x y)) := by
  have hne : p+q ≠ 0 := by
    intro hzero
    rw [hzero,abs_zero] at hmin
    exact absurd hmin (not_le.mpr (zpow_pos two_pos _))
  by_cases hp : p = 0
  · exact (add_represents a b hx hy (.inl hp)).rounded hne
  by_cases hq : q = 0
  · exact (add_represents a b hx hy (.inr (.inl hq))).rounded hne
  obtain ⟨s,m,hdx,rfl⟩ := hx
  obtain ⟨t,n,hdy,rfl⟩ := hy
  have hm : m ≠ 0 := by
    rintro rfl
    exact hp (value_zero s)
  have hn : n ≠ 0 := by
    rintro rfl
    exact hq (value_zero t)
  have hspec := add_spec a b x y
  rw [hdx,hdy] at hspec
  simp only [IeeeSum] at hspec
  rw [if_neg (by tauto),if_neg hm,if_neg hn] at hspec
  exact hspec.2 hmin

theorem multiply_zero (a b : FpNumber) {x y : Flo F} {s t : Bool} {n : ℕ}
    (hx : decode F x = .finite s 0) (hy : decode F y = .finite t n) :
    decode F (multiply F a b x y) = .finite (s != t) 0 := by
  have hspec := fpmulParts_spec (unpackD_spec x a) (unpackD_spec y b)
  rw [hx,hy] at hspec
  simp only [IeeeProduct] at hspec
  rwa [if_pos (.inl trivial)] at hspec

theorem add_zero_zero (a b : FpNumber) {x y : Flo F} {s t : Bool} (hx : decode F x = .finite s 0)
    (hy : decode F y = .finite t 0) : decode F (add F a b x y) = .finite (s && t) 0 := by
  have hspec := add_spec a b x y
  rw [hx,hy] at hspec
  simp only [IeeeSum] at hspec
  rwa [if_pos ⟨trivial,trivial⟩] at hspec

theorem negate_represents (a : FpNumber) {x : Flo F} {q : ℚ} (hx : Represents F x q) :
    Represents F (negate F a x) (-q) := by
  obtain ⟨s,m,hdx,rfl⟩ := hx
  have hspec := (unpackD_spec x a).neg.decode_packD
  rw [hdx,Datum.neg] at hspec
  exact ⟨_,_,hspec,value_not s m⟩

theorem ltF2_iff (a b : FpNumber) {x y : Flo F} {p q : ℚ} (hx : Represents F x p)
    (hy : Represents F y q) : ltF2 F a b x y < 0 ↔ p < q := by
  rw [ltF2,predicate_ordered _ a b hx.ne_nan hy.ne_nan,(compare_spec a b hx.ne_nan hy.ne_nan).lt]
  obtain ⟨s,m,hdx,rfl⟩ := hx
  obtain ⟨t,n,hdy,rfl⟩ := hy
  rw [hdx,hdy,finite_lt_iff]

/-- A number that is not negative, by the fraction and the exponent it is unpacked to. -/
theorem Represents.bits {x : Flo F} {q : ℚ} (hx : Represents F x q) (hq : 0 < q) : ∃ (n : ℕ) (e : ℤ),
    2^F.fracBits ≤ n ∧ n < 2^(F.fracBits+1) ∧ q = n*2^(e-F.fracBits) ∧ 2^e ≤ q ∧ q < 2^(e+1) ∧
      e ≤ F.expBias := by
  obtain ⟨s,m,hdx,rfl⟩ := hx
  obtain ⟨-,hm,hlt⟩ := decode_finite hdx
  have hne : m ≠ 0 := by
    rintro rfl
    rw [value_zero] at hq
    exact hq.false
  rw [← abs_of_pos hq,abs_value]
  rw [← hm] at hne ⊢
  have hholds := (unpackD_number hne hlt nan).1
  obtain ⟨-,hmax⟩ := hholds.exp_bounds hne hlt
  generalize unpackD F x nan = u at hholds hmax
  obtain ⟨n,hn⟩ := hholds.guards
  have hlow := hholds.low
  have hhigh := hholds.high
  have hbounds := magnitude_bounds hlow hhigh u.normalExp
  rw [← hholds.value] at hbounds
  rw [hn,pow_point,Nat.mul_comm] at hlow
  rw [hn,pow_point_succ,Nat.mul_comm _ (2^F.ngards)] at hhigh
  refine ⟨n,u.normalExp,Nat.le_of_mul_le_mul_left hlow (Nat.two_pow_pos _),
    Nat.lt_of_mul_lt_mul_left hhigh,?_,hbounds.1,hbounds.2,hmax⟩
  have hexp : u.normalExp-F.fracBits = F.ngards+(u.normalExp-F.point) := by
    rw [Format.point]
    push_cast
    ring
  rw [hholds.value,hn,hexp,← pow_mul_zpow]
  push_cast
  ring

end Exact

section Fix

theorem decode_powTwo {k : ℕ} (hk : k = 16 ∨ k = 32) : decode .double (powTwo k) =
    .finite false ((Format.double.expBias+k)*2^Format.double.fracBits) := by
  rcases hk with rfl | rfl <;> decide

theorem represents_powTwo {k : ℕ} (hk : k = 16 ∨ k = 32) : Represents .double (powTwo k) (2^k) := by
  refine ⟨false,_,decode_powTwo hk,?_⟩
  rw [value,magnitude_pow]
  rfl

/-- The high word of a number, as a flonum: a quotient that is not exact is below one. -/
theorem divide_high (a b : FpNumber) {x : Flo .double} {q : ℚ} (hx : Represents .double x q)
    (hlow : 0 ≤ q) (hhigh : q < 2^64) : ∃ p, Represents .double (divide .double a b x (powTwo 32)) p ∧
      0 ≤ p ∧ p < 2^32 ∧ ⌊p⌋ = ⌊q/2^32⌋ := by
  have hpow := represents_powTwo (k := 32) (.inr rfl)
  have hscale : (0 : ℚ) < 2^32 := by positivity
  have hnonneg : 0 ≤ q/2^32 := div_nonneg hlow hscale.le
  have htop : q/2^32 < 2^32 := by
    rw [div_lt_iff₀ hscale,← pow_add]
    exact hhigh
  rcases hlow.lt_or_eq with hpos | rfl
  · rcases le_or_gt (minNormal .double) (q/2^32) with hmin | hmin
    · refine ⟨q/2^32,?_,hnonneg,htop,rfl⟩
      apply divide_represents a b hx hpow hscale.ne'
      obtain ⟨n,e,hn,hn',hq,-,hlt,hbias⟩ := hx.bits hpos
      have hlog : n.log2 = 52 := (Nat.log2_eq_iff (by omega)).mpr ⟨hn,hn'⟩
      have hexp : ∀ z : ℤ, (2 : ℚ)^z/2^32 = 2^(z-32) := by
        intro z
        rw [zpow_sub₀ two_ne_zero]
        rfl
      have hrange : -1022 ≤ e-32 := by
        have hlt' : minNormal .double < 2^(e+1-32) := by
          rw [← hexp]
          exact hmin.trans_lt (div_lt_div_of_pos_right hlt hscale)
        have := (zpow_lt_zpow_iff_right₀ one_lt_two).mp hlt'
        change -1022 < e+1-32 at this
        omega
      obtain ⟨k,-,hk,hmag⟩ := representable (F := .double) (n := n) (t := e-52-32) (by omega) hn'
        (by rw [hlog]; change -1022 ≤ _; omega) (by rw [hlog]; omega)
      refine .inr ⟨?_,k,hk,?_⟩
      · rwa [abs_of_nonneg hnonneg]
      · rw [abs_of_nonneg hnonneg,hmag,hq,mul_div_assoc,hexp]
        rfl
    · obtain ⟨r,hr,hr0,hrlt⟩ := divide_small a b hx hpow hpos hscale hmin
      have hone : ∀ {t : ℚ}, 0 ≤ t → t < minNormal .double → ⌊t⌋ = 0 := fun h0 h =>
        Int.floor_eq_zero_iff.mpr ⟨h0,h.trans_le minNormal_le_one⟩
      refine ⟨r,hr,hr0,?_,?_⟩
      · exact (hrlt.trans_le minNormal_le_one).trans_le (by norm_num)
      · rw [hone hr0 hrlt,hone hnonneg hmin]
  · refine ⟨0/2^32,?_,by norm_num,by norm_num,rfl⟩
    exact divide_represents a b hx hpow hscale.ne' (.inl (zero_div _))

/-- What is left of a number without its high word has no more bits than the number. -/
theorem inFormat_low {x : Flo .double} {q : ℚ} (hx : Represents .double x q) (hhigh : q < 2^64)
    {h : ℕ} (hh : h ≠ 0) (hle : (h : ℚ)*2^32 ≤ q) : InFormat .double (q-h*2^32) := by
  have hone : (1 : ℚ) ≤ h := by exact_mod_cast Nat.one_le_iff_ne_zero.mpr hh
  have hlow : (2 : ℚ)^(32 : ℤ) ≤ q := (le_mul_of_one_le_left (by positivity) hone).trans hle
  have hpos : 0 < q := lt_of_lt_of_le (by norm_num) hlow
  obtain ⟨n,e,-,hn,hq,hge,hlt,-⟩ := hx.bits hpos
  have he : 32 < e+1 := (zpow_lt_zpow_iff_right₀ one_lt_two).mp (hlow.trans_lt hlt)
  have he' : e < 64 := by
    have : (2 : ℚ)^e < 2^(64 : ℤ) := hge.trans_lt hhigh
    exact (zpow_lt_zpow_iff_right₀ one_lt_two).mp this
  obtain ⟨j,hj⟩ := Int.eq_ofNat_of_zero_le (show 0 ≤ 84-e by omega)
  have hsplit : (2 : ℚ)^32 = 2^j*2^(e-52) := by
    have hexp : (j : ℤ)+(e-52) = (32 : ℕ) := by
      push_cast
      omega
    rw [pow_mul_zpow,hexp,zpow_natCast]
  have hscale : (0 : ℚ) < 2^(e-52) := zpow_pos two_pos _
  have hq' : q = n*2^(e-52) := hq
  have hnle : h*2^j ≤ n := by
    rw [hq',hsplit,← mul_assoc] at hle
    exact_mod_cast le_of_mul_le_mul_right hle hscale
  have hdiff : q-h*2^32 = ((n-h*2^j : ℕ) : ℚ)*2^(e-52) := by
    rw [hq',hsplit,Nat.cast_sub hnle]
    push_cast
    ring
  apply inFormat_of_bits (n := n-h*2^j) (t := e-52)
  · rw [hdiff,abs_of_nonneg (mul_nonneg (Nat.cast_nonneg _) hscale.le)]
  · exact (Nat.sub_le ..).trans_lt hn
  · change -1022 ≤ e-52
    omega
  · change 52+(e-52) ≤ 1023
    omega

variable {junk : ℕ → FpNumber} {floatunsSi floatunsDi : ℕ → Flo .double}

/-- The two words are put together to the integer part. -/
theorem fixunsdfdi_spec (hexact : ExactUnsigned floatunsSi floatunsDi) {x : Flo .double} {q : ℚ}
    (hx : Represents .double x q) (hlow : 0 ≤ q) (hhigh : q < 2^64) :
    ((fixunsdfdi junk floatunsDi x).toNat : ℤ) = ⌊q⌋ := by
  have hnonneg : ¬ltF2 .double (junk 0) (junk 1) x (zeroFlo .double) < 0 := by
    rw [ltF2_iff _ _ hx represents_zeroFlo]
    exact not_lt.mpr hlow
  obtain ⟨p,hp,hp0,hp32,hfloor⟩ := divide_high (junk 2) (junk 3) hx hlow hhigh
  have hfix := fixunsSi_spec (fun i => junk (4+i)) hp hp0 hp32
  rw [fixunsdfdi,if_neg hnonneg]
  simp only
  generalize divide .double (junk 2) (junk 3) x (powTwo 32) = b at *
  generalize hh : fixunsSi .double (fun i => junk (4+i)) b = h at *
  rw [hfloor] at hfix
  have hscale : (0 : ℚ) < 2^32 := by positivity
  have hle : (h : ℚ)*2^32 ≤ q := by
    rw [← le_div_iff₀ hscale]
    exact_mod_cast Int.le_floor.mp hfix.le
  have hlt : q < (h+1)*2^32 := by
    rw [← div_lt_iff₀ hscale]
    exact_mod_cast Int.floor_lt.mp (show ⌊q/2^32⌋ < h+1 by omega)
  have hsmall : h < 2^32 := by
    have : (h : ℚ)*2^32 < 2^32*2^32 := hle.trans_lt (by rwa [← pow_add])
    exact_mod_cast lt_of_mul_lt_mul_right this hscale.le
  have hv : BitVec.toNat (BitVec.ofNat 64 h <<< 32) = h*2^32 := by
    rw [BitVec.toNat_shiftLeft,BitVec.toNat_ofNat,Nat.shiftLeft_eq,Nat.mod_eq_of_lt (by omega),
      Nat.mod_eq_of_lt (by omega)]
  have hhigh' := hexact.di h 32 (by omega) (by omega)
  rw [Nat.cast_mul,Nat.cast_pow,Nat.cast_ofNat] at hhigh'
  rw [hv]
  have hsub := sub_represents (junk 10) (junk 11) hx hhigh' (by
    by_cases hzero : h = 0
    · right
      left
      rw [hzero,Nat.cast_zero,zero_mul]
    · exact .inr (.inr (inFormat_low hx hhigh hzero hle)))
  have hrest : 0 ≤ q-h*2^32 := sub_nonneg.mpr hle
  have hrest' : q-h*2^32 < 2^32 := by
    rw [add_mul,one_mul] at hlt
    linarith
  have hfix' := fixunsSi_spec (fun i => junk (14+i)) hsub hrest hrest'
  have hneg : ¬ltF2 .double (junk 12) (junk 13)
      (sub .double (junk 10) (junk 11) x (floatunsDi (h*2^32))) (zeroFlo .double) < 0 := by
    rw [ltF2_iff _ _ hsub represents_zeroFlo]
    exact not_lt.mpr hrest
  rw [if_neg hneg,BitVec.toNat_add,hv,BitVec.toNat_ofNat]
  generalize fixunsSi .double (fun i => junk (14+i)) _ = l at *
  have hsum : ⌊q-h*2^32⌋ = ⌊q⌋-h*2^32 := by
    have : (h : ℚ)*2^32 = ((h*2^32 : ℤ) : ℚ) := by push_cast; rfl
    rw [this,Int.floor_sub_intCast]
  have hl : (l : ℤ) < 2^32 := by
    rw [hfix',Int.floor_lt]
    exact_mod_cast hrest'
  rw [hsum] at hfix'
  omega

theorem toInt_of_small {v : BitVec 64} (hv : v.toNat < 2^63) :
    v.toInt = v.toNat ∧ (-v).toInt = -(v.toNat : ℤ) := by
  constructor
  · rw [BitVec.toInt_eq_toNat_cond,if_pos (by omega)]
  · rw [BitVec.toInt_eq_toNat_cond,BitVec.toNat_neg]
    split <;> omega

/-- A signed conversion by way of the unsigned one, as `__fixdfdi` and `__fixsfdi` do it. -/
theorem signed_fix {v w : BitVec 64} {q : ℚ} (hq : |q| < 2^63)
    (hpos : 0 ≤ q → (v.toNat : ℤ) = ⌊q⌋) (hneg : q < 0 → (w.toNat : ℤ) = ⌊-q⌋) :
    (if q < 0 then -w else v).toInt = truncate q := by
  obtain ⟨hlow,hhigh⟩ := abs_lt.mp hq
  rw [truncate]
  by_cases hsign : q < 0
  · have hfloor := hneg hsign
    have hlt : ⌊-q⌋ < 2^63 := by
      rw [Int.floor_lt]
      have : -q < 2^63 := by linarith
      exact_mod_cast this
    rw [if_pos hsign,if_pos hsign,(toInt_of_small (by omega)).2,hfloor,Int.floor_neg,neg_neg]
  · have hfloor := hpos (not_lt.mp hsign)
    have hlt : ⌊q⌋ < 2^63 := by
      rw [Int.floor_lt]
      exact_mod_cast hhigh
    rw [if_neg hsign,if_neg hsign,(toInt_of_small (by omega)).1,hfloor]

theorem fixdfdi_spec (hexact : ExactUnsigned floatunsSi floatunsDi) {x : Flo .double} {q : ℚ}
    (hx : Represents .double x q) (hq : |q| < 2^63) :
    (fixdfdi junk floatunsDi x).toInt = truncate q := by
  obtain ⟨hlow,hhigh⟩ := abs_lt.mp hq
  rw [fixdfdi]
  simp only [ltF2_iff _ _ hx represents_zeroFlo]
  apply signed_fix hq
  · intro hpos
    exact fixunsdfdi_spec hexact hx hpos (by norm_num at hhigh ⊢; linarith)
  · intro hneg
    exact fixunsdfdi_spec hexact (negate_represents _ hx) (by linarith) (by norm_num at hlow ⊢; linarith)

theorem sfToDf_represents (a : FpNumber) {x : Flo .float} {q : ℚ} (hx : Represents .float x q) :
    Represents .double (sfToDf a x) q := by
  obtain ⟨s,m,hd,rfl⟩ := hx
  have hspec := sfToDf_spec a x
  rw [hd] at hspec
  obtain ⟨k,hk,hmag⟩ := hspec
  exact ⟨s,k,hk,by rw [value,value,hmag]⟩

theorem fixunssfdi_spec (hexact : ExactUnsigned floatunsSi floatunsDi) {x : Flo .float} {q : ℚ}
    (hx : Represents .float x q) (hlow : 0 ≤ q) (hhigh : q < 2^64) :
    ((fixunssfdi junk floatunsDi x).toNat : ℤ) = ⌊q⌋ :=
  fixunsdfdi_spec hexact (sfToDf_represents _ hx) hlow hhigh

theorem fixsfdi_spec (hexact : ExactUnsigned floatunsSi floatunsDi) {x : Flo .float} {q : ℚ}
    (hx : Represents .float x q) (hq : |q| < 2^63) :
    (fixsfdi junk floatunsDi x).toInt = truncate q := by
  obtain ⟨hlow,hhigh⟩ := abs_lt.mp hq
  rw [fixsfdi]
  simp only [ltF2_iff _ _ hx represents_zeroFlo]
  apply signed_fix hq
  · intro hpos
    exact fixunssfdi_spec hexact hx hpos (by norm_num at hhigh ⊢; linarith)
  · intro hneg
    exact fixunssfdi_spec hexact (negate_represents _ hx) (by linarith) (by norm_num at hlow ⊢; linarith)

end Fix

section Float

variable {junk : ℕ → FpNumber} {floatunsSi floatunsDi : ℕ → Flo .double}

theorem words_eq (u : BitVec 64) : u.toInt =
    ((u.sshiftRight 32).setWidth 32).toInt*2^32+((u &&& 0xffffffff#64).toNat : ℤ) := by
  have hhigh : (u.sshiftRight 32).setWidth 32 = u.extractLsb' 32 32 := by
    ext i hi
    simp [BitVec.getLsbD_sshiftRight]
    grind
  have hlow : (u &&& 0xffffffff#64).toNat = u.toNat%2^32 := Nat.and_two_pow_sub_one_eq_mod u.toNat 32
  have hlt := u.isLt
  have hnat : (u.extractLsb' 32 32).toNat = u.toNat/2^32 := by
    rw [BitVec.extractLsb'_toNat,Nat.shiftRight_eq_div_pow]
    omega
  rw [hhigh,hlow,BitVec.toInt_eq_toNat_cond,BitVec.toInt_eq_toNat_cond,hnat]
  split <;> split <;> omega

/-- The high word is scaled without an error. -/
theorem multiply_high (a b : FpNumber) {x : Flo .double} {n : ℤ} {k : ℕ} (hn : n.natAbs ≤ 2^31)
    (hk : k ≤ 16) (hx : Represents .double x (n*2^k)) :
    Represents .double (multiply .double a b x (powTwo 16)) (n*2^(k+16)) := by
  have hprod : (n : ℚ)*2^k*2^16 = n*2^(k+16) := by
    rw [mul_assoc,← pow_add]
  rw [← hprod]
  apply multiply_represents a b hx (represents_powTwo (.inl rfl))
  rw [hprod]
  apply inFormat_of_bits (n := n.natAbs) (t := (k+16 : ℕ))
  · rw [abs_mul,abs_of_pos (show (0 : ℚ) < 2^(k+16) by positivity),zpow_natCast,Nat.cast_natAbs,
      Int.cast_abs]
  · exact hn.trans_lt (by decide)
  · change (-1022 : ℤ) ≤ (k+16 : ℕ)
    omega
  · change (52 : ℤ)+(k+16 : ℕ) ≤ 1023
    omega

/-- A 64-bit integer is rounded once. -/
theorem floatdidf_spec (hexact : ExactUnsigned floatunsSi floatunsDi) (u : BitVec 64) :
    Rounded .double u.toInt (decode .double (floatdidf junk floatunsSi u)) := by
  have hwords := words_eq u
  have hlow : (u &&& 0xffffffff#64).toNat < 2^32 := by
    have : (u &&& 0xffffffff#64).toNat = u.toNat%2^32 := Nat.and_two_pow_sub_one_eq_mod u.toNat 32
    omega
  rw [floatdidf]
  generalize (u.sshiftRight 32).setWidth 32 = hi at hwords
  generalize (u &&& 0xffffffff#64).toNat = lo at hwords hlow
  have hhi : hi.toInt.natAbs ≤ 2^31 := by
    have := BitVec.le_toInt hi
    have := BitVec.toInt_lt (x := hi)
    omega
  have hlo := hexact.si lo hlow
  by_cases hzero : u.toInt = 0
  · obtain ⟨hhi0,rfl⟩ : hi.toInt = 0 ∧ lo = 0 := by omega
    have hround := siToFloat_rounded (F := .double) (junk 0) hi
    have hstart := hround.exact (m := 0) (by rw [hhi0,Int.cast_zero,abs_zero,magnitude_zero]) (by decide)
    rw [hhi0,Int.cast_zero,decide_eq_false (lt_irrefl _)] at hstart
    have hpow := decode_powTwo (k := 16) (.inl rfl)
    have hfirst := multiply_zero (junk 1) (junk 2) hstart hpow
    have hsecond := multiply_zero (junk 3) (junk 4) hfirst hpow
    obtain ⟨t,n,hd,hvalue⟩ := hlo
    obtain rfl := value_eq_zero (hvalue.trans Nat.cast_zero)
    have hsum := add_zero_zero (junk 5) (junk 6) hsecond hd
    rw [hsum,hzero,Int.cast_zero]
    have hdata := rounded_of_exact (F := .double) (x := 0) (m := 0)
      (by rw [abs_zero,magnitude_zero]) (by decide)
    simpa using hdata
  · have hstart := siToFloat_represents (F := .double) (junk 0) (n := hi) (hhi.trans (by decide))
    have hfirst := multiply_high (junk 1) (junk 2) (k := 0) hhi (by omega) (by simpa using hstart)
    have hsecond := multiply_high (junk 3) (junk 4) hhi (by omega) hfirst
    have hsum : (u.toInt : ℚ) = hi.toInt*2^(0+16+16)+lo := by
      rw [hwords]
      push_cast
      rfl
    have habs : 1 ≤ |(u.toInt : ℚ)| := by exact_mod_cast Int.one_le_abs hzero
    rw [hsum] at habs ⊢
    exact add_rounded (junk 5) (junk 6) hsecond hlo (minNormal_le_one.trans habs)

end Float

end SoftFloat
end AgbTools
