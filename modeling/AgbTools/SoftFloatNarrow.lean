import Mathlib.Algebra.Order.Floor.Semifield
import AgbTools.SoftFloatConvert

/-! Conversions between `float` and `double`. Widening is exact; narrowing rounds to nearest as long as
the result is a normal number, while a subnormal result is cut off. -/
namespace AgbTools
namespace SoftFloat

open Nearest

section Widen

/-- The exponent of a number that has a pattern. -/
theorem Holds.exp_bounds {F : Format} {n : FpNumber} {m : ℕ} (h : Holds F n m) (hm : m ≠ 0)
    (hlt : m < F.infinity) : F.normalExpMin-F.fracBits ≤ n.normalExp ∧ n.normalExp ≤ F.expBias := by
  obtain ⟨hge,hle⟩ := magnitude_bounds h.low h.high n.normalExp
  rw [← h.value] at hge hle
  constructor
  · have hone : magnitude F 1 ≤ magnitude F m :=
      (strictMono_magnitude F).monotone (Nat.one_le_iff_ne_zero.mpr hm)
    rw [magnitude_subnormal F Nat.one_le_two_pow,Nat.cast_one,one_mul] at hone
    have := (zpow_lt_zpow_iff_right₀ one_lt_two).mp (hone.trans_lt hle)
    omega
  · have htop : magnitude F F.infinity = 2^(F.expBias+1 : ℕ) := by
      have hinf : F.infinity = (F.expBias+(F.expBias+1))*2^F.fracBits := by
        rw [Format.infinity,expMax_bias]
        ring
      rw [hinf,magnitude_pow]
    have hbelow := strictMono_magnitude F hlt
    rw [htop,← zpow_natCast] at hbelow
    have := (zpow_lt_zpow_iff_right₀ one_lt_two).mp (hge.trans_lt hbelow)
    push_cast at this
    omega

/-- A `float` has a `double` of the same value. -/
theorem Holds.widen {n : FpNumber} {m : ℕ} (h : Holds .float n m) (hm : m ≠ 0)
    (hlt : m < Format.float.infinity) : ∃ k, k ≠ 0 ∧ k < Format.double.infinity ∧
      magnitude .double k = magnitude .float m ∧
      Holds .double { n with fraction := Format.double.trunc (n.fraction <<< fDBitoff) } k := by
  obtain ⟨hmin,hmax⟩ := h.exp_bounds hm hlt
  have hlow : 2^30 ≤ n.fraction := h.low
  have hhigh : n.fraction < 2^31 := h.high
  have hnonzero : n.fraction ≠ 0 := by omega
  have hlog : n.fraction.log2 = 30 := (Nat.log2_eq_iff hnonzero).mpr ⟨hlow,hhigh⟩
  change -126-23 ≤ n.normalExp at hmin
  change n.normalExp ≤ 127 at hmax
  have hshift : Format.double.trunc (n.fraction <<< fDBitoff) = n.fraction*2^30 := by
    rw [Nat.shiftLeft_eq]
    apply trunc_eq
    change n.fraction*2^30 < 2^62
    omega
  obtain ⟨k,hk,hklt,hmag⟩ := representable (F := .double) (t := n.normalExp-30) hnonzero
    (hhigh.trans (by decide)) (by rw [hlog]; change -1022 ≤ _; omega)
    (by rw [hlog]; change _ ≤ (1023 : ℤ); omega)
  have hvalue : magnitude .float m = n.fraction*2^(n.normalExp-30) := h.value
  refine ⟨k,hk,hklt,hmag.trans hvalue.symm,?_⟩
  rw [hshift]
  refine ⟨h.cls,?_,?_,?_,?_⟩
  · change 2^60 ≤ n.fraction*2^30
    omega
  · change n.fraction*2^30 < 2^61
    omega
  · exact Dvd.dvd.mul_left (by decide) _
  · have hexp : n.normalExp-30 = (30 : ℕ)+(n.normalExp-Format.double.point) := by
      change n.normalExp-30 = (30 : ℕ)+(n.normalExp-(60 : ℕ))
      push_cast
      ring
    rw [hmag,hexp,← pow_mul_zpow,Nat.cast_mul,Nat.cast_pow,Nat.cast_ofNat,mul_assoc]

/-- The `double` that stands for the same as a `float`, with its sign also when it is zero. -/
def Widened : Datum → Datum → Prop
  | .nan, d => d = .nan
  | .inf s, d => d = .inf s
  | .finite s m, d => ∃ k, d = .finite s k ∧ magnitude .double k = magnitude .float m

theorem sfToDf_spec (a : FpNumber) (x : Flo .float) :
    Widened (decode .float x) (decode .double (sfToDf a x)) := by
  have hspec := unpackD_spec x a
  rw [sfToDf]
  generalize unpackD .float x a = n at hspec
  generalize decode .float x = d at hspec
  cases hspec with
  | nan h =>
    generalize Format.double.trunc (n.fraction <<< fDBitoff) = f
    exact decode_packD_nan (n := { n with fraction := f }) h
  | inf h =>
    generalize Format.double.trunc (n.fraction <<< fDBitoff) = f
    exact decode_packD_infinity (n := { n with fraction := f }) h
  | zero h =>
    generalize Format.double.trunc (n.fraction <<< fDBitoff) = f
    refine ⟨0,decode_packD_zero (n := { n with fraction := f }) h,?_⟩
    rw [magnitude_zero,magnitude_zero]
  | number hm hlt h =>
    obtain ⟨k,-,hk,hmag,hholds⟩ := h.widen hm hlt
    exact ⟨k,hholds.decode_packD hk,hmag⟩

theorem Widened.extended_eq {d d' : Datum} (h : Widened d d') :
    extended .double d' = extended .float d := by
  cases d with
  | nan =>
    obtain rfl : d' = .nan := h
    rfl
  | inf s =>
    obtain rfl : d' = .inf s := h
    cases s <;> rfl
  | finite s m =>
    obtain ⟨k,rfl,hk⟩ := h
    rw [extended,extended,value,value,hk]

end Widen

section Narrow

/-- The datum nearest to a magnitude, with the sign it is given. -/
def NearestDatum (F : Format) (s : Bool) (q : ℚ) (r : Datum) : Prop :=
  ∃ m, NearestEven (magnitude F) q m ∧ r = if m < F.infinity then .finite s m else .inf s

theorem Rounded.nearestDatum {F : Format} {s : Bool} {q : ℚ} {r : Datum} (hq : 0 < q)
    (h : Rounded F (applySign s q) r) : NearestDatum F s q r := by
  obtain ⟨habs,hsign⟩ := applySign_pos s hq
  obtain ⟨m,hm,hr⟩ := h
  rw [habs] at hm
  rw [hsign] at hr
  exact ⟨m,hm,hr⟩

/-- The fraction that `df_to_sf` passes on. -/
theorem sffrac_eq {f : ℕ} (hf : f < 2^61) :
    (if f &&& ((1 <<< fDBitoff)-1) ≠ 0 then Format.float.trunc (f >>> fDBitoff) ||| 1
      else Format.float.trunc (f >>> fDBitoff)) = sticky 30 f := by
  have hmask : f &&& ((1 <<< fDBitoff)-1) = f%2^30 := Nat.and_two_pow_sub_one_eq_mod f 30
  have hshift : Format.float.trunc (f >>> fDBitoff) = f/2^30 := by
    rw [Nat.shiftRight_eq_div_pow]
    apply trunc_eq
    change f/2^30 < 2^32
    omega
  rw [hmask,hshift,sticky]
  by_cases hzero : f%2^30 = 0
  · rw [if_neg (not_not.mpr hzero),if_pos hzero]
  · rw [if_pos hzero,if_neg hzero]

theorem sticky_bounds {f : ℕ} (hlow : 2^60 ≤ f) (hhigh : f < 2^61) :
    2^30 ≤ sticky 30 f ∧ sticky 30 f < 2^31 := by
  rw [sticky,or_one]
  split <;> omega

/-- In the normal range of `float` a number is rounded with the sticky bit in its place. -/
theorem narrow_normal {n : FpNumber} {m : ℕ} (h : Holds .double n m) (hm : m ≠ 0)
    (hmin : minNormal .float ≤ magnitude .double m) :
    NearestDatum .float n.sign (magnitude .double m)
      (decode .float (packD .float { n with fraction := sticky 30 n.fraction })) := by
  obtain ⟨hge,hlt⟩ := sticky_bounds h.low h.high
  have hpos := magnitude_pos .double hm
  obtain ⟨habs,hsign⟩ := applySign_pos n.sign hpos
  have halike := alike_sticky (K := ℚ) n.fraction 30
  have hvalue : magnitude .double m = (n.fraction : ℚ)/2^30*2^(n.normalExp-Format.float.point) := by
    have hexp : n.normalExp-Format.double.point = -30+(n.normalExp-Format.float.point) := by
      change n.normalExp-(60 : ℕ) = -30+(n.normalExp-(30 : ℕ))
      push_cast
      ring
    rw [h.value,hexp,zpow_add₀ two_ne_zero,← mul_assoc,div_eq_mul_inv]
    rfl
  have hrecord : { n with fraction := sticky 30 n.fraction } =
      { cls := .number, sign := n.sign, normalExp := n.normalExp, fraction := sticky 30 n.fraction } := by
    rw [← h.cls]
  apply Rounded.nearestDatum hpos
  rw [hrecord]
  apply rounded_inPlace hge hlt (halike.coarse (by decide)) (habs.trans hvalue) hsign.symm
  rwa [habs]

/-- Below it the fraction is cut off at the smallest subnormal. -/
theorem narrow_subnormal {n : FpNumber} {m : ℕ} (h : Holds .double n m)
    (hmin : magnitude .double m < minNormal .float) :
    decode .float (packD .float { n with fraction := sticky 30 n.fraction }) =
      .finite n.sign ⌊magnitude .double m*2^149⌋₊ := by
  obtain ⟨hge,hlt⟩ := sticky_bounds h.low h.high
  have hexp : n.normalExp < -126 := by
    have hle := (magnitude_bounds h.low h.high n.normalExp).1
    rw [← h.value] at hle
    exact (zpow_lt_zpow_iff_right₀ one_lt_two).mp (hle.trans_lt hmin)
  obtain ⟨k,hk⟩ := Int.eq_ofNat_of_zero_le (show 0 ≤ -126-n.normalExp by omega)
  have hfloor : magnitude .double m*2^149 = (n.fraction : ℚ)/(2^(37+k) : ℕ) := by
    have hsum : n.normalExp-Format.double.point+(149 : ℕ) = -((37+k : ℕ) : ℤ) := by
      change n.normalExp-(60 : ℕ)+(149 : ℕ) = _
      push_cast
      omega
    rw [h.value,mul_assoc,← zpow_natCast,← zpow_add₀ two_ne_zero,hsum,zpow_neg,zpow_natCast,
      ← div_eq_mul_inv,Nat.cast_pow,Nat.cast_ofNat]
  have hcls : ({ n with fraction := sticky 30 n.fraction } : FpNumber).cls = .number := h.cls
  have hpack := decode_packD_subnormal (F := .float) hcls (show sticky 30 n.fraction ≠ 0 by omega) hlt
    (k := k) (by omega) hk
  have hgards : Format.float.ngards+k = (6+k)+1 := by
    change 7+k = (6+k)+1
    omega
  have hsum : 30+(6+k+1) = 37+k := by omega
  rw [hpack,hgards]
  change Datum.finite n.sign (sticky 30 n.fraction/2^(6+k+1)) = _
  rw [sticky_div,hsum,hfloor,Nat.floor_div_eq_div]

/-- `df_to_sf` of a number that is not zero. -/
theorem dfToSf_number (b : FpNumber) {y : Flo .double} {s : Bool} {m : ℕ}
    (hy : decode .double y = .finite s m) (hm : m ≠ 0) : ∃ n, Holds .double n m ∧ n.sign = s ∧
      dfToSf b y = packD .float { n with fraction := sticky 30 n.fraction } := by
  obtain ⟨rfl,rfl,hlt⟩ := decode_finite hy
  obtain ⟨hholds,hsign⟩ := unpackD_number hm hlt b
  refine ⟨unpackD .double y b,hholds,hsign,?_⟩
  rw [dfToSf,← sffrac_eq hholds.high]

theorem dfToSf_fraction (b : FpNumber) (y : Flo .double) :
    ∃ f, dfToSf b y = packD .float { unpackD .double y b with fraction := f } := ⟨_,rfl⟩

theorem dfToSf_zero (b : FpNumber) {y : Flo .double} {s : Bool}
    (hy : decode .double y = .finite s 0) : decode .float (dfToSf b y) = .finite s 0 := by
  obtain ⟨rfl,hzero,-⟩ := decode_finite hy
  obtain ⟨f,hf⟩ := dfToSf_fraction b y
  rw [hf,unpackD_zero hzero]
  exact decode_packD_zero rfl

theorem decode_packD_fraction {n : FpNumber} (h : n.cls = .infinity) (f : ℕ) :
    decode .float (packD .float { n with fraction := f }) = .inf n.sign :=
  decode_packD_infinity (n := { n with fraction := f }) h

theorem dfToSf_inf (b : FpNumber) {y : Flo .double} {s : Bool} (hy : decode .double y = .inf s) :
    decode .float (dfToSf b y) = .inf s := by
  obtain ⟨f,hf⟩ := dfToSf_fraction b y
  obtain ⟨hcls,hsign⟩ := unpackD_inf hy b
  rw [hf,← hsign]
  exact decode_packD_fraction hcls f

/-- What is left of a number below the normal range of `float`. -/
theorem dfToSf_subnormal (b : FpNumber) {y : Flo .double} {s : Bool} {m : ℕ}
    (hy : decode .double y = .finite s m) (hmin : magnitude .double m < minNormal .float) :
    decode .float (dfToSf b y) = .finite s ⌊magnitude .double m*2^149⌋₊ := by
  by_cases hm : m = 0
  · subst hm
    rw [dfToSf_zero b hy,magnitude_zero,zero_mul,Nat.floor_zero]
  · obtain ⟨n,hholds,rfl,hpack⟩ := dfToSf_number b hy hm
    rw [hpack,narrow_subnormal hholds hmin]

theorem dfToSf_normal (b : FpNumber) {y : Flo .double} {s : Bool} {m : ℕ}
    (hy : decode .double y = .finite s m) (hmin : minNormal .float ≤ magnitude .double m) :
    NearestDatum .float s (magnitude .double m) (decode .float (dfToSf b y)) := by
  have hm : m ≠ 0 := by
    rintro rfl
    rw [magnitude_zero] at hmin
    exact absurd hmin (not_le.mpr (zpow_pos two_pos _))
  obtain ⟨n,hholds,rfl,hpack⟩ := dfToSf_number b hy hm
  rw [hpack]
  exact narrow_normal hholds hm hmin

theorem magnitude_float_subnormal {m : ℕ} (hm : m ≤ 2^23) : magnitude .float m*2^149 = m := by
  rw [magnitude_subnormal .float hm,mul_assoc,← zpow_natCast,← zpow_add₀ two_ne_zero]
  have hexp : Format.float.normalExpMin-Format.float.fracBits+(149 : ℕ) = 0 := rfl
  rw [hexp,zpow_zero,mul_one]

/-- A `float` comes back from `double`. -/
theorem dfToSf_sfToDf (a b : FpNumber) {x : Flo .float} (hx : decode .float x ≠ .nan) :
    dfToSf b (sfToDf a x) = x := by
  have hwide := sfToDf_spec a x
  symm
  apply decode_inj _ hx
  cases hd : decode .float x with
  | nan => exact absurd hd hx
  | inf s =>
    rw [hd] at hwide
    rw [dfToSf_inf b hwide]
  | finite s m =>
    rw [hd] at hwide
    obtain ⟨k,hk,hmag⟩ := hwide
    obtain ⟨-,-,hlt⟩ := decode_finite hd
    obtain ⟨-,hm,-⟩ := decode_finite hd
    rw [hm] at hlt
    rcases lt_or_ge (magnitude .double k) (minNormal .float) with hsub | hnorm
    · have hm' : m < 2^23 := by
        rw [hmag,← magnitude_minNormal] at hsub
        exact (strictMono_magnitude .float).lt_iff_lt.mp hsub
      rw [dfToSf_subnormal b hk hsub,hmag,magnitude_float_subnormal hm'.le,Nat.floor_natCast]
    · obtain ⟨j,hj,hr⟩ := dfToSf_normal b hk hnorm
      rw [hmag] at hj
      obtain rfl := eq_of_nearestEven (strictMono_magnitude .float) hj
      rw [hr,if_pos hlt]

/-- Cutting off leaves the nearest integer, the even one of two. -/
def CutsToNearest (q : ℚ) : Prop := Int.fract q < 1/2 ∨ Int.fract q = 1/2 ∧ Even ⌊q⌋

theorem nearestDatum_cut {q : ℚ} (hq : 0 ≤ q) (hlt : q < minNormal .float) (s : Bool) :
    NearestDatum .float s q (.finite s ⌊q*2^149⌋₊) ↔ CutsToNearest (q*2^149) := by
  have hscale : (0 : ℚ) < 2^149 := by positivity
  have hnonneg : 0 ≤ q*2^149 := mul_nonneg hq hscale.le
  have hfract := Int.self_sub_floor (q*2^149)
  have hcast : ((⌊q*2^149⌋₊ : ℕ) : ℤ) = ⌊q*2^149⌋ := Int.natCast_floor_eq_floor hnonneg
  have htop : ⌊q*2^149⌋₊ < 2^23 := by
    rw [Nat.floor_lt hnonneg,← magnitude_float_subnormal (Nat.le_refl _)]
    apply mul_lt_mul_of_pos_right _ hscale
    rwa [← magnitude_minNormal] at hlt
  have hinf : ⌊q*2^149⌋₊ < Format.float.infinity := htop.trans (by decide)
  generalize ⌊q*2^149⌋₊ = n at *
  have hlow := magnitude_float_subnormal htop.le
  have hhigh := magnitude_float_subnormal (show n+1 ≤ 2^23 from htop)
  rw [CutsToNearest,← hcast,Int.even_coe_nat]
  rw [← hcast,Int.cast_natCast,← hlow,← sub_mul] at hfract
  push_cast at hhigh
  rw [← hlow] at hhigh
  have hbelow : magnitude .float n ≤ q := by
    have hfloor := Int.fract_nonneg (q*2^149)
    rw [← hfract] at hfloor
    exact sub_nonneg.mp (nonneg_of_mul_nonneg_left hfloor hscale)
  have hdiff : (magnitude .float (n+1)-q)*2^149 = 1-(q-magnitude .float n)*2^149 := by
    rw [sub_mul,hhigh,sub_mul]
    ring
  rw [← hfract]
  have hv := strictMono_magnitude .float
  constructor
  · rintro ⟨m,hm,heq⟩
    obtain rfl : m = n := by
      split at heq
      · exact (Datum.finite.inj heq).2.symm
      · cases heq
    have hnear := hm.nearest (m+1)
    have habove : q ≤ magnitude .float (m+1) := by
      have hfloor := Int.fract_lt_one (q*2^149)
      rw [← hfract] at hfloor
      have : 0 ≤ (magnitude .float (m+1)-q)*2^149 := by linarith
      exact sub_nonneg.mp (nonneg_of_mul_nonneg_left this hscale)
    rw [abs_below hv (Nat.le_refl m) hbelow,abs_above hv (Nat.le_refl _) habove] at hnear
    have hhalf := mul_le_mul_of_nonneg_right hnear hscale.le
    rw [hdiff] at hhalf
    rcases (show (q-magnitude .float m)*2^149 ≤ 1/2 by linarith).lt_or_eq with hlt' | heq'
    · exact .inl hlt'
    · refine .inr ⟨heq',hm.even (m+1) (Nat.succ_ne_self m) ?_⟩
      rw [abs_below hv (Nat.le_refl m) hbelow,abs_above hv (Nat.le_refl _) habove]
      apply mul_right_cancel₀ hscale.ne'
      linarith
  · intro hcut
    refine ⟨n,?_,by rw [if_pos hinf]⟩
    apply nearestEven_low hv hbelow
    · apply le_of_mul_le_mul_right _ hscale
      rw [hdiff]
      rcases hcut with hlt' | ⟨heq',-⟩ <;> linarith
    · intro htie
      rcases hcut with hlt' | ⟨-,heven⟩
      · rw [← htie] at hdiff
        linarith
      · exact heven

/-- The conversions between `float` and `double`: widening is exact and is undone by narrowing, and
narrowing rounds to nearest exactly if the result is a normal number or what is cut off would be
rounded down. -/
theorem float_conversion (a b : FpNumber) :
    (∀ x : Flo .float, decode .float x ≠ .nan →
      extended .double (decode .double (sfToDf a x)) = extended .float (decode .float x) ∧
      dfToSf b (sfToDf a x) = x) ∧
      ∀ (y : Flo .double) (s : Bool) (m : ℕ), decode .double y = .finite s m →
        (NearestDatum .float s (magnitude .double m) (decode .float (dfToSf b y)) ↔
          minNormal .float ≤ magnitude .double m ∨ CutsToNearest (magnitude .double m*2^149)) := by
  constructor
  · intro x hx
    exact ⟨(sfToDf_spec a x).extended_eq,dfToSf_sfToDf a b hx⟩
  · intro y s m hy
    rcases lt_or_ge (magnitude .double m) (minNormal .float) with hsub | hnorm
    · have hnonneg : 0 ≤ magnitude .double m := (abs_value (F := .double) false m) ▸ abs_nonneg _
      rw [dfToSf_subnormal b hy hsub,nearestDatum_cut hnonneg hsub]
      exact ⟨.inr,fun h => h.resolve_left (not_le.mpr hsub)⟩
    · exact ⟨fun _ => .inl hnorm,fun _ => dfToSf_normal b hy hnorm⟩

/-- Three quarters of the smallest subnormal `float` are not rounded up to it. -/
theorem narrow_cut :
    decode .double (pattern .double false 0x3698000000000000) = .finite false 0x3698000000000000 ∧
      ¬NearestDatum .float false (magnitude .double 0x3698000000000000)
        (decode .float (dfToSf nan (pattern .double false 0x3698000000000000))) := by
  have hdecode : decode .double (pattern .double false 0x3698000000000000) =
      .finite false 0x3698000000000000 := by decide
  have hmag : magnitude .double 0x3698000000000000*2^149 = 3/4 := by
    have hgrid := magnitude_normal .double 872 (2^51) (by decide)
    have hsplit : (872+1)*2^Format.double.fracBits+2^51 = 0x3698000000000000 := by decide
    have hexp : ((872 : ℕ)+Format.double.normalExpMin-Format.double.fracBits : ℤ) = -202 := by decide
    rw [hsplit,hexp] at hgrid
    rw [hgrid]
    simp only [Format.fracBits]
    norm_num
  have hbelow : magnitude .double 0x3698000000000000 < minNormal .float := by
    have hmin : minNormal .float*2^149 = 2^23 := by
      rw [← magnitude_minNormal]
      exact (magnitude_float_subnormal (Nat.le_refl (2^23))).trans (by norm_num)
    apply lt_of_mul_lt_mul_right _ (show (0 : ℚ) ≤ 2^149 by positivity)
    rw [hmag,hmin]
    norm_num
  have hpos := magnitude_pos .double (show 0x3698000000000000 ≠ 0 by decide)
  refine ⟨hdecode,?_⟩
  rw [dfToSf_subnormal nan hdecode hbelow,nearestDatum_cut hpos.le hbelow,hmag]
  norm_num [CutsToNearest,Int.fract]

/-- The smallest subnormal makes the round trip, and a half in the last place of one is rounded. -/
theorem float_conversion_edge :
    let small : Flo .float := BitVec.ofNat 32 1
    let half : ℕ := (Format.double.expBias+0)*2^Format.double.fracBits+2^28
    dfToSf nan (sfToDf nan small) = small ∧ NearestDatum .float false (magnitude .double half)
      (decode .float (dfToSf nan (pattern .double false half))) := by
  have h := float_conversion nan nan
  refine ⟨(h.1 _ (by decide)).2,?_⟩
  apply (h.2 _ false _ (by decide)).mpr
  left
  apply minNormal_le_one.trans
  rw [magnitude_from_pow 0 (show 2^28 < 2^Format.double.fracBits by decide),pow_zero]
  exact le_add_of_nonneg_right (mul_nonneg (Nat.cast_nonneg _) (zpow_nonneg zero_le_two _))

end Narrow

end SoftFloat
end AgbTools
