import AgbTools.SoftFloatWide

/-! A 64-bit integer goes to `float` by way of `double`. Which integers are rounded twice, and come out
as another number than the one nearest to them. -/
namespace AgbTools
namespace SoftFloat

open Nearest

section Places

variable {F : Format}

/-- The patterns of the numbers with `j` places more than the fraction has. -/
def placeBase (F : Format) (j : ℕ) : ℕ := (F.expBias+(F.fracBits+j)-1)*2^F.fracBits

theorem magnitude_place (j : ℕ) {i : ℕ} (hlow : 2^F.fracBits ≤ i) (hhigh : i ≤ 2^(F.fracBits+1)) :
    magnitude F (placeBase F j+i) = i*2^j := by
  have hone := one_le_bias F
  have hexp : ((F.expBias+(F.fracBits+j)-1 : ℕ)+F.normalExpMin-F.fracBits : ℤ) = j := by
    rw [Format.normalExpMin]
    omega
  rw [placeBase,magnitude_grid F _ i hlow hhigh,hexp,zpow_natCast]

theorem halfEven_places {v j : ℕ} (hj : 0 < j) (hlow : 2^(F.fracBits+j) ≤ v)
    (hhigh : v ≤ 2^(F.fracBits+j+1)) :
    2^F.fracBits ≤ halfEven (2^(j-1)) v ∧ halfEven (2^(j-1)) v ≤ 2^(F.fracBits+1) := by
  have hstep : 2*2^(j-1) = 2^j := by
    rw [← pow_succ',Nat.sub_add_cancel hj]
  have hpos : 0 < 2^(j-1) := Nat.two_pow_pos _
  have heven : ∀ {i : ℕ}, 0 < i → 2^i%2 = 0 := fun hi =>
    Nat.mod_eq_zero_of_dvd (dvd_pow_self 2 hi.ne')
  constructor
  · rw [← not_lt,halfEven_lt_iff hpos (heven (fracBits_pos F)),hstep,← pow_add,Nat.add_comm j]
    omega
  · rw [← not_lt,lt_halfEven_iff hpos (heven (Nat.succ_pos _)),hstep,← pow_add]
    have : j+(F.fracBits+1) = F.fracBits+j+1 := by omega
    rw [this]
    omega

/-- A natural number between two powers of two is rounded to so many places. -/
theorem nearestEven_places {v j : ℕ} (hj : 0 < j) (hlow : 2^(F.fracBits+j) ≤ v)
    (hhigh : v ≤ 2^(F.fracBits+j+1)) :
    NearestEven (magnitude F) v (placeBase F j+halfEven (2^(j-1)) v) := by
  have hstep : 2*2^(j-1) = 2^j := by
    rw [← pow_succ',Nat.sub_add_cancel hj]
  have hpos : 0 < 2^(j-1) := Nat.two_pow_pos _
  rcases Nat.lt_or_eq_of_le hhigh with hlt | rfl
  · have hround := (alike_self (K := ℚ) (2^(j-1)) (v : ℤ)).roundsTo (f := v) hpos
    have hgrid : ∀ i, 2^F.fracBits ≤ i → i ≤ 2^(F.fracBits+1) →
        magnitude F (placeBase F j+i) = i*(2*2^(j-1) : ℕ)*1 := by
      intro i hi hi'
      rw [magnitude_place j hi hi',hstep,mul_one,Nat.cast_pow,Nat.cast_ofNat]
    have hlo : ((2^F.fracBits : ℕ) : ℚ)*(2*2^(j-1) : ℕ) ≤ ((v : ℤ) : ℚ) := by
      rw [hstep,Int.cast_natCast]
      exact_mod_cast (pow_add 2 F.fracBits j).symm.le.trans hlow
    have hhi : ((v : ℤ) : ℚ) < ((2^(F.fracBits+1) : ℕ) : ℚ)*(2*2^(j-1) : ℕ) := by
      have htop : 2^(F.fracBits+1)*2^j = 2^(F.fracBits+j+1) := by
        rw [← pow_add]
        congr 1
        omega
      rw [hstep,Int.cast_natCast]
      exact_mod_cast hlt.trans_eq htop.symm
    have hbase : Even (placeBase F j) := (even_pow_fracBits F).mul_left _
    have hnear := hround.nearestEven (strictMono_magnitude F) one_pos hbase hgrid hlo hhi
    rwa [mul_one,Int.cast_natCast] at hnear
  · -- the next power of two is on the grid
    have htop : 2^(F.fracBits+j+1) = 2*2^(j-1)*2^(F.fracBits+1) := by
      rw [hstep,← pow_add]
      congr 1
      omega
    have hmag := magnitude_place (F := F) j (Nat.pow_le_pow_right two_pos (Nat.le_succ F.fracBits))
      (Nat.le_refl (2^(F.fracBits+1)))
    have hself := nearestEven_self (strictMono_magnitude F) (placeBase F j+2^(F.fracBits+1))
    rw [hmag] at hself
    rw [htop,halfEven_mul hpos,hstep,Nat.mul_comm]
    exact_mod_cast hself

end Places

section Twice

variable {k q r : ℕ}

/-- Rounding to a `double` leaves the places of a `float`, and moves the rest to a multiple. -/
theorem halfEven_inner (hk : 0 < k) : 2^k*halfEven (2^(k-1)) (2^(k+29)*q+r) =
    2*2^(k+28)*q+2^k*halfEven (2^(k-1)) r := by
  have hstep : 2*2^(k-1) = 2^k := by
    rw [← pow_succ',Nat.sub_add_cancel hk]
  have hshift := halfEven_shift (Nat.two_pow_pos (k-1)) (2^28*q) r
  have hwhole : 2*2^(k-1)*(2*(2^28*q)) = 2^(k+29)*q := by
    rw [hstep,pow_add]
    ring
  rw [hwhole] at hshift
  rw [hshift,Nat.mul_add,pow_add]
  ring

/-- The rest reaches the half only from close by. -/
theorem inner_lt_iff (hk : 0 < k) :
    (2^k*halfEven (2^(k-1)) r < 2^(k+28) ↔ r+2^(k-1) < 2^(k+28)) ∧
      (2^(k+28) < 2^k*halfEven (2^(k-1)) r ↔ 2^(k+28)+2^(k-1) < r) := by
  have hstep : 2*2^(k-1) = 2^k := by
    rw [← pow_succ',Nat.sub_add_cancel hk]
  have hpos : 0 < 2^k := Nat.two_pow_pos k
  have hhalf : 0 < 2^(k-1) := Nat.two_pow_pos _
  rw [pow_add 2 k 28,Nat.mul_lt_mul_left hpos,Nat.mul_lt_mul_left hpos,
    halfEven_lt_iff hhalf (by decide),lt_halfEven_iff hhalf (by decide),hstep]
  exact ⟨Iff.rfl,Iff.rfl⟩

/-- The number of `float` places after both roundings. -/
def twice (k w : ℕ) : ℕ := halfEven (2^(k+28)) (2^k*halfEven (2^(k-1)) w)

theorem twice_below (hk : 0 < k) (hr : r+2^(k-1) < 2^(k+28)) : twice k (2^(k+29)*q+r) = q := by
  rw [twice,halfEven_inner hk]
  exact halfEven_below ((inner_lt_iff hk).1.mpr hr)

theorem twice_tie (hk : 0 < k) (hlow : 2^(k+28) ≤ r+2^(k-1)) (hhigh : r ≤ 2^(k+28)+2^(k-1)) :
    twice k (2^(k+29)*q+r) = q+q%2 := by
  have hinner : 2^k*halfEven (2^(k-1)) r = 2^(k+28) := by
    have hlt := (inner_lt_iff hk (r := r)).1
    have hgt := (inner_lt_iff hk (r := r)).2
    omega
  rw [twice,halfEven_inner hk,hinner,halfEven_tie (Nat.two_pow_pos _)]

theorem twice_above (hk : 0 < k) (hr : 2^(k+28)+2^(k-1) < r) (hr' : r < 2^(k+29)) :
    twice k (2^(k+29)*q+r) = q+1 := by
  have hstep : 2*2^(k-1) = 2^k := by
    rw [← pow_succ',Nat.sub_add_cancel hk]
  have hle : 2^k*halfEven (2^(k-1)) r ≤ 2*2^(k+28) := by
    have htop : 2*2^(k+28) = 2^k*2^29 := by
      rw [← pow_succ',← pow_add]
    rw [htop]
    apply Nat.mul_le_mul_left
    rw [← not_lt,lt_halfEven_iff (Nat.two_pow_pos _) (by decide),hstep,← pow_add]
    omega
  rw [twice,halfEven_inner hk]
  rcases Nat.lt_or_eq_of_le hle with hlt | heq
  · exact halfEven_above ((inner_lt_iff hk).2.mpr hr) hlt
  · have hwhole : 2*2^(k+28)*q+2*2^(k+28) = 2*2^(k+28)*(q+1) := by ring
    rw [heq,hwhole,halfEven_mul (Nat.two_pow_pos _)]

theorem or_rep (r : ℕ) : r ||| 2^11 = 2^12*(r/2^12)+2^11+r%2^11 := by
  have hdiv : (r ||| 2^11)/2^11 = r/2^11 ||| 1 := by
    rw [← Nat.shiftRight_eq_div_pow,Nat.shiftRight_or_distrib,Nat.shiftRight_eq_div_pow]
    rfl
  have hmod : (r ||| 2^11)%2^11 = r%2^11 := by
    rw [Nat.or_mod_two_pow]
    exact Nat.or_zero _
  rw [or_one] at hdiv
  omega

theorem and_rep (r : ℕ) : r &&& 2^11 = 2^11*(r/2^11%2) := by
  rw [Nat.and_two_pow,Nat.testBit_eq_decide_div_mod_eq]
  rcases Nat.mod_two_eq_zero_or_one (r/2^11) with h | h
  · rw [h]
    rfl
  · rw [h]
    rfl

theorem place_bounds (hk : 0 < k) (hk' : k ≤ 10) :
    2^(k+28) = 2^12*2^(k+16) ∧ 2^(k+29) = 2*2^(k+28) ∧ 2^(k-1) ≤ 2^9 := by
  refine ⟨by rw [← pow_add]; congr 1; omega,pow_succ' 2 _,?_⟩
  exact Nat.pow_le_pow_right two_pos (by omega)

/-- A number below the half goes up if the rest is moved to the half and the place is odd. -/
theorem twice_or_iff (hk : 0 < k) (hk' : k ≤ 10) (hr : r < 2^(k+29)) (hlow : r%2^11 ≠ 0) :
    twice k (2^(k+29)*q+(r ||| 2^11)) = halfEven (2^(k+28)) (2^(k+29)*q+r) ↔
      ¬(q%2 = 1 ∧ r < 2^(k+28) ∧ 2^(k+28) ≤ (r ||| 2^11)+2^(k-1)) := by
  obtain ⟨hhalf,hwhole,hsmall⟩ := place_bounds hk hk'
  have hor := or_rep r
  rcases Nat.lt_trichotomy r (2^(k+28)) with hlt | heq | hgt
  · have honce : halfEven (2^(k+28)) (2^(k+29)*q+r) = q := by
      rw [hwhole]
      exact halfEven_below hlt
    by_cases hreach : 2^(k+28) ≤ (r ||| 2^11)+2^(k-1)
    · rw [honce,twice_tie hk hreach (by omega)]
      omega
    · rw [honce,twice_below hk (by omega)]
      omega
  · omega
  · have honce : halfEven (2^(k+28)) (2^(k+29)*q+r) = q+1 := by
      rw [hwhole]
      exact halfEven_above hgt (by omega)
    rw [honce,twice_above hk (by omega) (by omega)]
    omega

/-- A number above the half goes down if the rest is moved to the half and the place is even. -/
theorem twice_clear_iff (hk : 0 < k) (hk' : k ≤ 10) (hr : r < 2^(k+29)) (hlow : r%2^11 ≠ 0) :
    twice k (2^(k+29)*q+(r-(r &&& 2^11))) = halfEven (2^(k+28)) (2^(k+29)*q+r) ↔
      ¬(q%2 = 0 ∧ 2^(k+28) < r ∧ r-(r &&& 2^11) ≤ 2^(k+28)+2^(k-1)) := by
  obtain ⟨hhalf,hwhole,hsmall⟩ := place_bounds hk hk'
  have hand := and_rep r
  rcases Nat.lt_trichotomy r (2^(k+28)) with hlt | heq | hgt
  · have honce : halfEven (2^(k+28)) (2^(k+29)*q+r) = q := by
      rw [hwhole]
      exact halfEven_below hlt
    rw [honce,twice_below hk (by omega)]
    omega
  · omega
  · have honce : halfEven (2^(k+28)) (2^(k+29)*q+r) = q+1 := by
      rw [hwhole]
      exact halfEven_above hgt (by omega)
    by_cases hreach : r-(r &&& 2^11) ≤ 2^(k+28)+2^(k-1)
    · rw [honce,twice_tie hk (by omega) hreach]
      omega
    · rw [honce,twice_above hk (by omega) (by omega)]
      omega

end Twice

section Floatdisf

variable {junk : ℕ → FpNumber} {floatunsSi floatunsDi : ℕ → Flo .double}

/-- Between the two roundings the integer is a `double`, and after them it has so many places of a
`float`. -/
theorem floatdisf_twice (hexact : ExactUnsigned floatunsSi floatunsDi) (u : BitVec 64) {w k : ℕ}
    (hw : (foldLow u).toInt.natAbs = w) (hk : 0 < k) (hk' : k ≤ 10) (hlow : 2^(52+k) ≤ w)
    (hhigh : w < 2^(53+k)) : decode .float (floatdisf junk floatunsSi u) =
      .finite (decide ((foldLow u).toInt < 0)) (placeBase .float (k+29)+twice k w) := by
  have hsign : decide (((foldLow u).toInt : ℚ) < 0) = decide ((foldLow u).toInt < 0) := by
    congr 1
    exact propext Int.cast_lt_zero
  have habs : |((foldLow u).toInt : ℚ)| = w := by
    rw [← hw,Nat.cast_natAbs,Int.cast_abs]
  have hhigh' : w ≤ 2^(52+k+1) := by
    have : 52+k+1 = 53+k := by omega
    rw [this]
    exact hhigh.le
  have hspec : Rounded .double (foldLow u).toInt (decode .double (floatdidf junk floatunsSi (foldLow u))) :=
    floatdidf_spec hexact (foldLow u)
  obtain ⟨m,hm,hd⟩ := hspec
  rw [habs] at hm
  obtain rfl := hm.unique (strictMono_magnitude .double) (nearestEven_places hk hlow hhigh')
  obtain ⟨hge,hle⟩ := halfEven_places (F := .double) hk hlow hhigh'
  have hmag := magnitude_place (F := .double) k hge hle
  change 2^52 ≤ _ at hge
  change _ ≤ 2^53 at hle
  have hinf : placeBase .double k+halfEven (2^(k-1)) w < Format.double.infinity := by
    change (1023+(52+k)-1)*2^52+_ < 2047*2^52
    omega
  rw [if_pos hinf,hsign] at hd
  have hvalue : magnitude .double (placeBase .double k+halfEven (2^(k-1)) w) =
      ((2^k*halfEven (2^(k-1)) w : ℕ) : ℚ) := by
    rw [hmag]
    push_cast
    ring
  have hge' : 2^(23+(k+29)) ≤ 2^k*halfEven (2^(k-1)) w := by
    have : 23+(k+29) = k+52 := by omega
    rw [this,pow_add]
    exact Nat.mul_le_mul_left _ hge
  have hle' : 2^k*halfEven (2^(k-1)) w ≤ 2^(23+(k+29)+1) := by
    have : 23+(k+29)+1 = k+53 := by omega
    rw [this,pow_add]
    exact Nat.mul_le_mul_left _ hle
  have hone : minNormal .float ≤ magnitude .double (placeBase .double k+halfEven (2^(k-1)) w) := by
    apply minNormal_le_one.trans
    rw [hvalue]
    exact_mod_cast (Nat.one_le_two_pow).trans hge'
  obtain ⟨m',hm',hd'⟩ := dfToSf_normal (junk 7) hd hone
  rw [hvalue] at hm'
  obtain rfl := hm'.unique (strictMono_magnitude .float)
    (nearestEven_places (F := .float) (j := k+29) (by omega) hge' hle')
  have hplaces := (halfEven_places (F := .float) (j := k+29) (by omega) hge' hle').2
  change _ ≤ 2^24 at hplaces
  rw [floatdisf,hd',if_pos]
  · rfl
  · change (127+(23+(k+29))-1)*2^23+_ < 255*2^23
    omega

theorem low_bits_iff (u : BitVec 64) : u &&& (repBit-1) ≠ 0 ↔ u.toInt.natAbs%2^11 ≠ 0 := by
  have hnat : (u &&& (repBit-1)).toNat = u.toNat%2^11 := Nat.and_two_pow_sub_one_eq_mod u.toNat 11
  have hlt := u.isLt
  have hint := BitVec.toInt_eq_toNat_cond u
  have hzero : u &&& (repBit-1) = 0 ↔ u.toNat%2^11 = 0 := by
    rw [← hnat,← BitVec.toNat_inj]
    rfl
  rw [Ne,hzero]
  split at hint <;> omega

/-- The representative bit is set in the magnitude of a positive number and cleared in that of a
negative one. -/
theorem foldLow_active {u : BitVec 64} (h53 : 2^53 ≤ u.toInt.natAbs) (hlow : u.toInt.natAbs%2^11 ≠ 0) :
    (foldLow u).toInt = if 0 < u.toInt then ((u.toInt.natAbs ||| 2^11 : ℕ) : ℤ)
      else -((u.toInt.natAbs-(u.toInt.natAbs &&& 2^11) : ℕ) : ℤ) := by
  have hfold : foldLow u = u ||| repBit := by
    rw [foldLow,if_pos ⟨by omega,(low_bits_iff u).mpr hlow⟩]
  have hor : (u ||| repBit).toNat = u.toNat ||| 2^11 := BitVec.toNat_or ..
  have hlt := u.isLt
  have hint := BitVec.toInt_eq_toNat_cond u
  rw [hfold,BitVec.toInt_eq_toNat_cond,hor,or_rep,or_rep,and_rep]
  split at hint
  · rw [if_pos (by omega),if_pos (by omega)]
    omega
  · rw [if_neg (by omega),if_neg (by omega)]
    omega

theorem foldLow_inactive {u : BitVec 64} (h : u.toInt.natAbs < 2^53 ∨ u.toInt.natAbs%2^11 = 0) :
    foldLow u = u := by
  rw [foldLow,if_neg]
  rintro ⟨hrange,hbits⟩
  rw [low_bits_iff] at hbits
  omega

/-- The integers that come out as another number than the nearest: the bits past the places of a
`double` move what is past the places of a `float` to the half, from below where the place is odd,
or, for a negative number, from above where it is even. -/
def DoubleRounds (u : ℤ) : Prop :=
  let v := u.natAbs
  let half := 2^(v.log2-24)
  let small := 2^(v.log2-53)
  2^53 ≤ v ∧ v%2^11 ≠ 0 ∧
    if 0 < u then v/(2*half)%2 = 1 ∧ v%(2*half) < half ∧ half ≤ (v%(2*half) ||| 2^11)+small
    else v/(2*half)%2 = 0 ∧ half < v%(2*half) ∧
      v%(2*half)-(v%(2*half) &&& 2^11) ≤ half+small

/-- Without bits to lose the integer is a `double`. -/
theorem floatdisf_exact (hexact : ExactUnsigned floatunsSi floatunsDi) {u : BitVec 64}
    (h : u.toInt.natAbs < 2^53 ∨ u.toInt.natAbs%2^11 = 0) :
    Rounded .float u.toInt (decode .float (floatdisf junk floatunsSi u)) := by
  have hround : Rounded .double u.toInt (decode .double (floatdidf junk floatunsSi u)) :=
    floatdidf_spec hexact u
  have hlow := BitVec.le_toInt u
  have hhigh := BitVec.toInt_lt (x := u)
  have habs : |(u.toInt : ℚ)| = (u.toInt.natAbs : ℕ) := by
    rw [Nat.cast_natAbs,Int.cast_abs]
  have hmag : ∃ m < Format.double.infinity, magnitude .double m = u.toInt.natAbs := by
    rcases h with hsmall | hbits
    · exact magnitude_natural hsmall.le
    by_cases hzero : u.toInt.natAbs = 0
    · exact magnitude_natural (hzero ▸ Nat.zero_le _)
    · have hn : u.toInt.natAbs/2^11 ≠ 0 := by omega
      have hn' : u.toInt.natAbs/2^11 < 2^53 := by omega
      have hlog : (u.toInt.natAbs/2^11).log2 < 53 := (Nat.log2_lt hn).mpr hn'
      obtain ⟨m,-,hm,hmag⟩ := representable (F := .double) (t := (11 : ℕ)) hn hn'
        (by change (-1022 : ℤ) ≤ _; omega) (by change _ ≤ (1023 : ℤ); omega)
      refine ⟨m,hm,?_⟩
      rw [hmag,zpow_natCast]
      exact_mod_cast Nat.div_mul_cancel (Nat.dvd_of_mod_eq_zero hbits)
  obtain ⟨m,hm,hvalue⟩ := hmag
  have hd := hround.exact (habs.trans hvalue.symm) hm
  rw [floatdisf,foldLow_inactive h]
  by_cases hzero : u.toInt = 0
  · have hm0 : m = 0 := by
      rw [hzero,Int.natAbs_zero,Nat.cast_zero] at hvalue
      exact value_eq_zero (F := .double) (s := false) hvalue
    rw [hm0] at hd
    rw [dfToSf_zero (junk 7) hd,hzero,Int.cast_zero]
    apply rounded_of_exact
    · rw [abs_zero,magnitude_zero]
    · decide
  · have hone : minNormal .float ≤ magnitude .double m := by
      rw [hvalue]
      apply minNormal_le_one.trans
      exact_mod_cast Int.natAbs_pos.mpr hzero
    obtain ⟨m',hm',hd'⟩ := dfToSf_normal (junk 7) hd hone
    rw [hvalue,← habs] at hm'
    exact ⟨m',hm',hd'⟩

theorem rest_bits {k : ℕ} (v : ℕ) :
    v ||| 2^11 = 2^(k+29)*(v/2^(k+29))+(v%2^(k+29) ||| 2^11) ∧
      v-(v &&& 2^11) = 2^(k+29)*(v/2^(k+29))+(v%2^(k+29)-(v%2^(k+29) &&& 2^11)) := by
  have hsplit := Nat.div_add_mod v (2^(k+29))
  have hpow : 2^(k+29)*(v/2^(k+29)) = 2^12*(2^(k+17)*(v/2^(k+29))) := by
    rw [← Nat.mul_assoc,← pow_add]
    congr 2
    omega
  rw [or_rep,or_rep,and_rep,and_rep]
  rw [hpow] at hsplit ⊢
  generalize 2^(k+17)*(v/2^(k+29)) = a at *
  generalize v%2^(k+29) = r at *
  omega

/-- Rounding twice is rounding once where both give the same number of places. -/
theorem rounded_twice_iff (hexact : ExactUnsigned floatunsSi floatunsDi) {u : BitVec 64} {w k : ℕ}
    (hw : (foldLow u).toInt.natAbs = w) (hsign : (foldLow u).toInt < 0 ↔ u.toInt < 0) (hk : 0 < k)
    (hk' : k ≤ 10) (hlow : 2^(52+k) ≤ w) (hhigh : w < 2^(53+k)) (hlow' : 2^(52+k) ≤ u.toInt.natAbs)
    (hhigh' : u.toInt.natAbs < 2^(53+k)) :
    Rounded .float u.toInt (decode .float (floatdisf junk floatunsSi u)) ↔
      twice k w = halfEven (2^(k+28)) u.toInt.natAbs := by
  have habs : |(u.toInt : ℚ)| = (u.toInt.natAbs : ℕ) := by
    rw [Nat.cast_natAbs,Int.cast_abs]
  have hdecide : decide ((foldLow u).toInt < 0) = decide ((u.toInt : ℚ) < 0) := by
    congr 1
    exact propext (hsign.trans Int.cast_lt_zero.symm)
  have hplace : 23+(k+29) = 52+k ∧ 23+(k+29)+1 = 53+k := by omega
  have hnear := nearestEven_places (F := .float) (v := u.toInt.natAbs) (j := k+29) (by omega)
    (hplace.1 ▸ hlow') (hplace.2 ▸ hhigh'.le)
  have hbound := (halfEven_places (F := .float) (v := u.toInt.natAbs) (j := k+29) (by omega)
    (hplace.1 ▸ hlow') (hplace.2 ▸ hhigh'.le)).2
  rw [floatdisf_twice hexact u hw hk hk' hlow hhigh,hdecide,Rounded,habs]
  constructor
  · rintro ⟨m,hm,hd⟩
    obtain rfl := hm.unique (strictMono_magnitude .float) hnear
    split at hd
    · exact Nat.add_left_cancel (Datum.finite.inj hd).2
    · cases hd
  · intro heq
    refine ⟨_,hnear,?_⟩
    rw [heq,if_pos]
    · rfl
    · change (127+(23+(k+29))-1)*2^23+_ < 255*2^23
      change _ ≤ 2^24 at hbound
      omega

theorem floatdisf_pos_iff (hexact : ExactUnsigned floatunsSi floatunsDi) {u : BitVec 64} {k : ℕ}
    (hk : 0 < k) (hk' : k ≤ 10) (hlow : 2^(52+k) ≤ u.toInt.natAbs) (hhigh : u.toInt.natAbs < 2^(53+k))
    (hbits : u.toInt.natAbs%2^11 ≠ 0) (hpos : 0 < u.toInt) :
    Rounded .float u.toInt (decode .float (floatdisf junk floatunsSi u)) ↔
      ¬(u.toInt.natAbs/2^(k+29)%2 = 1 ∧ u.toInt.natAbs%2^(k+29) < 2^(k+28) ∧
        2^(k+28) ≤ (u.toInt.natAbs%2^(k+29) ||| 2^11)+2^(k-1)) := by
  have h53 : 2^53 ≤ u.toInt.natAbs := (Nat.pow_le_pow_right two_pos (by omega)).trans hlow
  have hfold := foldLow_active h53 hbits
  rw [if_pos hpos] at hfold
  have hrem := Nat.mod_lt u.toInt.natAbs (Nat.two_pow_pos (k+29))
  have hbits' : u.toInt.natAbs%2^(k+29)%2^11 ≠ 0 := by
    rwa [Nat.mod_mod_of_dvd _ (Nat.pow_dvd_pow 2 (by omega))]
  have hiff := twice_or_iff (q := u.toInt.natAbs/2^(k+29)) hk hk' hrem hbits'
  rw [Nat.div_add_mod,← (rest_bits u.toInt.natAbs).1] at hiff
  have hw : (foldLow u).toInt.natAbs = u.toInt.natAbs ||| 2^11 := by
    rw [hfold]
    rfl
  have hsign : (foldLow u).toInt < 0 ↔ u.toInt < 0 := by
    rw [hfold]
    constructor <;> intro h <;> omega
  have hlow' := hlow.trans (Nat.left_le_or (n := u.toInt.natAbs) (m := 2^11))
  have hhigh' := Nat.or_lt_two_pow hhigh (Nat.pow_lt_pow_right one_lt_two (show 11 < 53+k by omega))
  exact (rounded_twice_iff hexact hw hsign hk hk' hlow' hhigh' hlow hhigh).trans hiff

theorem floatdisf_neg_iff (hexact : ExactUnsigned floatunsSi floatunsDi) {u : BitVec 64} {k : ℕ}
    (hk : 0 < k) (hk' : k ≤ 10) (hlow : 2^(52+k) ≤ u.toInt.natAbs) (hhigh : u.toInt.natAbs < 2^(53+k))
    (hbits : u.toInt.natAbs%2^11 ≠ 0) (hneg : ¬0 < u.toInt) :
    Rounded .float u.toInt (decode .float (floatdisf junk floatunsSi u)) ↔
      ¬(u.toInt.natAbs/2^(k+29)%2 = 0 ∧ 2^(k+28) < u.toInt.natAbs%2^(k+29) ∧
        u.toInt.natAbs%2^(k+29)-(u.toInt.natAbs%2^(k+29) &&& 2^11) ≤ 2^(k+28)+2^(k-1)) := by
  have h53 : 2^53 ≤ u.toInt.natAbs := (Nat.pow_le_pow_right two_pos (by omega)).trans hlow
  have hfold := foldLow_active h53 hbits
  rw [if_neg hneg] at hfold
  have hrem := Nat.mod_lt u.toInt.natAbs (Nat.two_pow_pos (k+29))
  have hbits' : u.toInt.natAbs%2^(k+29)%2^11 ≠ 0 := by
    rwa [Nat.mod_mod_of_dvd _ (Nat.pow_dvd_pow 2 (by omega))]
  have hiff := twice_clear_iff (q := u.toInt.natAbs/2^(k+29)) hk hk' hrem hbits'
  rw [Nat.div_add_mod,← (rest_bits u.toInt.natAbs).2] at hiff
  have hlow' : 2^(52+k) ≤ u.toInt.natAbs-(u.toInt.natAbs &&& 2^11) := by
    have hclear := and_rep u.toInt.natAbs
    have hpow : 2^(52+k) = 2^12*2^(40+k) := by
      rw [← pow_add]
      congr 1
      omega
    omega
  have hw : (foldLow u).toInt.natAbs = u.toInt.natAbs-(u.toInt.natAbs &&& 2^11) := by
    rw [hfold,Int.natAbs_neg]
    rfl
  have hsign : (foldLow u).toInt < 0 ↔ u.toInt < 0 := by
    have := Nat.two_pow_pos (52+k)
    omega
  exact (rounded_twice_iff hexact hw hsign hk hk' hlow' ((Nat.sub_le ..).trans_lt hhigh) hlow hhigh).trans
    hiff

/-- The conversion rounds to nearest exactly if it does not round twice. -/
theorem floatdisf_iff (hexact : ExactUnsigned floatunsSi floatunsDi) (u : BitVec 64) :
    Rounded .float u.toInt (decode .float (floatdisf junk floatunsSi u)) ↔ ¬DoubleRounds u.toInt := by
  by_cases hactive : 2^53 ≤ u.toInt.natAbs ∧ u.toInt.natAbs%2^11 ≠ 0
  · obtain ⟨h53,hbits⟩ := hactive
    have hle := BitVec.le_toInt u
    have hlt := BitVec.toInt_lt (x := u)
    have hv63 : u.toInt.natAbs < 2^63 := by omega
    have hlog : 53 ≤ u.toInt.natAbs.log2 := (Nat.le_log2 (by omega)).mpr h53
    have hlog' : u.toInt.natAbs.log2 < 63 := (Nat.log2_lt (by omega)).mpr hv63
    have hself := Nat.log2_self_le (n := u.toInt.natAbs) (by omega)
    have hnext := Nat.lt_log2_self (n := u.toInt.natAbs)
    obtain ⟨k,hk⟩ : ∃ k, u.toInt.natAbs.log2 = 52+k := ⟨_,(Nat.add_sub_cancel' (by omega)).symm⟩
    have hnum : 52+k+1 = 53+k ∧ 52+k-24 = k+28 ∧ 52+k-53 = k-1 := by omega
    have hwhole : 2*2^(k+28) = 2^(k+29) := (pow_succ' 2 _).symm
    rw [hk] at hself hnext
    rw [hnum.1] at hnext
    simp only [DoubleRounds,hk,hnum,hwhole]
    by_cases hpos : 0 < u.toInt
    · rw [floatdisf_pos_iff hexact (by omega) (by omega) hself hnext hbits hpos,if_pos hpos]
      exact not_congr ⟨fun h => ⟨h53,hbits,h⟩,fun h => h.2.2⟩
    · rw [floatdisf_neg_iff hexact (by omega) (by omega) hself hnext hbits hpos,if_neg hpos]
      exact not_congr ⟨fun h => ⟨h53,hbits,h⟩,fun h => h.2.2⟩
  · have hinactive : u.toInt.natAbs < 2^53 ∨ u.toInt.natAbs%2^11 = 0 := by omega
    exact ⟨fun _ h => hactive ⟨h.1,h.2.1⟩,fun _ => floatdisf_exact hexact hinactive⟩

end Floatdisf

section Results

/-- An unsigned integer as a number of the format, without the bits past its fraction. -/
def natFlo (F : Format) (n : ℕ) : Flo F :=
  if n = 0 then zeroFlo F
  else pattern F false ((F.expBias+n.log2-1)*2^F.fracBits+n*2^F.fracBits/2^n.log2)

theorem log2_mul_pow {n : ℕ} (hn : n ≠ 0) (k : ℕ) : (n*2^k).log2 = n.log2+k := by
  have hne : n*2^k ≠ 0 := Nat.mul_ne_zero hn (Nat.two_pow_pos k).ne'
  rw [Nat.log2_eq_iff hne,Nat.add_right_comm,pow_add,pow_add 2 (n.log2+1)]
  exact ⟨Nat.mul_le_mul_right _ (Nat.log2_self_le hn),
    Nat.mul_lt_mul_of_pos_right Nat.lt_log2_self (Nat.two_pow_pos k)⟩

theorem represents_natFlo {F : Format} {n k : ℕ} (hn : n < 2^(F.fracBits+1))
    (hexp : n.log2+k ≤ F.expBias) : Represents F (natFlo F (n*2^k)) (n*2^k : ℕ) := by
  rw [natFlo]
  by_cases hzero : n = 0
  · rw [hzero,Nat.zero_mul,if_pos rfl,Nat.cast_zero]
    exact represents_zeroFlo
  have hne : n*2^k ≠ 0 := Nat.mul_ne_zero hzero (Nat.two_pow_pos k).ne'
  have hlog : n.log2 < F.fracBits+1 := (Nat.log2_lt hzero).mpr hn
  have hbias := one_le_bias F
  -- the bits fit, so that nothing is lost
  have hquot : n*2^k*2^F.fracBits/2^(n.log2+k) = n*2^(F.fracBits-n.log2) := by
    have hpow : 2^k*2^F.fracBits = 2^(F.fracBits-n.log2)*2^(n.log2+k) := by
      rw [← pow_add,← pow_add]
      congr 1
      omega
    rw [Nat.mul_assoc,hpow,← Nat.mul_assoc,Nat.mul_div_cancel _ (Nat.two_pow_pos _)]
  have hge : 2^F.fracBits ≤ n*2^(F.fracBits-n.log2) := by
    have hpow : 2^F.fracBits = 2^n.log2*2^(F.fracBits-n.log2) := by
      rw [← pow_add,Nat.add_sub_cancel' (by omega)]
    rw [hpow]
    exact Nat.mul_le_mul_right _ (Nat.log2_self_le hzero)
  have hlt : n*2^(F.fracBits-n.log2) < 2^(F.fracBits+1) := by
    have hpow : 2^(F.fracBits+1) = 2^(n.log2+1)*2^(F.fracBits-n.log2) := by
      rw [← pow_add]
      congr 1
      omega
    rw [hpow]
    exact Nat.mul_lt_mul_of_pos_right Nat.lt_log2_self (Nat.two_pow_pos _)
  have hinf : (F.expBias+(n.log2+k)-1)*2^F.fracBits+n*2^(F.fracBits-n.log2) < F.infinity := by
    have hmul := Nat.mul_le_mul_right (2^F.fracBits)
      (show F.expBias+(n.log2+k)-1+2 ≤ F.expMax by rw [expMax_bias]; omega)
    rw [Nat.add_mul] at hmul
    rw [Format.infinity]
    have htop : 2^(F.fracBits+1) = 2*2^F.fracBits := pow_succ' 2 _
    omega
  have hfields : F.infinity < 2^(F.fracBits+F.expBits) := by cases F <;> decide
  have hgrid := magnitude_grid F (F.expBias+(n.log2+k)-1) _ hge hlt.le
  have hscale : ((F.expBias+(n.log2+k)-1 : ℕ)+F.normalExpMin-F.fracBits : ℤ) =
      k-((F.fracBits-n.log2 : ℕ) : ℤ) := by
    rw [Format.normalExpMin]
    omega
  have hcancel : (2 : ℚ)^(F.fracBits-n.log2)*2^(k-((F.fracBits-n.log2 : ℕ) : ℤ)) = 2^k := by
    rw [pow_mul_zpow,add_sub_cancel,zpow_natCast]
  rw [if_neg hne,log2_mul_pow hzero,hquot]
  refine ⟨false,_,by rw [decode_pattern F (hinf.trans hfields),datum,if_pos hinf],?_⟩
  change magnitude F _ = _
  rw [hgrid,hscale]
  push_cast
  rw [mul_assoc,hcancel]

/-- The compiler's conversions, as far as they are exact. -/
def natDouble : ℕ → Flo .double := natFlo .double

theorem exactUnsigned_natDouble : ExactUnsigned natDouble natDouble := by
  constructor
  · intro n hn
    have hrep := represents_natFlo (F := .double) (n := n) (k := 0) (hn.trans (by decide)) (by
      rcases Nat.eq_zero_or_pos n with rfl | hpos
      · decide
      · have := (Nat.log2_lt hpos.ne').mpr hn
        change n.log2+0 ≤ 1023
        omega)
    rwa [pow_zero,Nat.mul_one] at hrep
  · intro n k hn hlt
    by_cases hzero : n = 0
    · subst hzero
      have hrep := represents_natFlo (F := .double) (n := 0) (k := 0) (by decide) (by decide)
      simpa [natDouble] using hrep
    · apply represents_natFlo (F := .double) hn
      have hne : n*2^k ≠ 0 := Nat.mul_ne_zero hzero (Nat.two_pow_pos k).ne'
      have := (Nat.log2_lt hne).mpr hlt
      rw [log2_mul_pow hzero] at this
      change n.log2+k ≤ 1023
      omega

/-- The conversions between 64-bit integers and floating point numbers: all are exact or rounded once,
but an integer goes to the nearest `float` only if it is not one that is rounded twice. -/
theorem wide_conversion {floatunsSi floatunsDi : ℕ → Flo .double}
    (hexact : ExactUnsigned floatunsSi floatunsDi) (junk : ℕ → FpNumber) :
    (∀ u : BitVec 64, Rounded .double u.toInt (decode .double (floatdidf junk floatunsSi u)) ∧
      (Rounded .float u.toInt (decode .float (floatdisf junk floatunsSi u)) ↔ ¬DoubleRounds u.toInt)) ∧
      (∀ (x : Flo .double) (q : ℚ), Represents .double x q →
        (0 ≤ q → q < 2^64 → ((fixunsdfdi junk floatunsDi x).toNat : ℤ) = ⌊q⌋) ∧
        (|q| < 2^63 → (fixdfdi junk floatunsDi x).toInt = truncate q)) ∧
      (∀ (x : Flo .float) (q : ℚ), Represents .float x q →
        (0 ≤ q → q < 2^64 → ((fixunssfdi junk floatunsDi x).toNat : ℤ) = ⌊q⌋) ∧
        (|q| < 2^63 → (fixsfdi junk floatunsDi x).toInt = truncate q)) := by
  refine ⟨?_,?_,?_⟩
  · intro u
    exact ⟨floatdidf_spec hexact u,floatdisf_iff hexact u⟩
  · intro x q hx
    exact ⟨fixunsdfdi_spec hexact hx,fixdfdi_spec hexact hx⟩
  · intro x q hx
    exact ⟨fixunssfdi_spec hexact hx,fixsfdi_spec hexact hx⟩

/-- An integer just below the middle of two `float`s whose lower one is odd: as a `double` it is the
middle. -/
theorem floatdisf_doubleRounds : ¬Rounded .float
    (BitVec.ofInt 64 (2^62+2^39+2^38-1)).toInt (decode .float
      (floatdisf (fun _ => nan) natDouble (BitVec.ofInt 64 (2^62+2^39+2^38-1)))) := by
  rw [floatdisf_iff exactUnsigned_natDouble,not_not]
  have hint : (BitVec.ofInt 64 (2^62+2^39+2^38-1)).toInt = 2^62+2^39+2^38-1 := by decide
  rw [hint]
  refine ⟨by decide,by decide,?_⟩
  decide

/-- The same integer without its lowest bits, and the first number with a high word. -/
theorem wide_conversion_edge :
    Rounded .float (BitVec.ofInt 64 (2^62+2^39+2^37)).toInt (decode .float
        (floatdisf (fun _ => nan) natDouble (BitVec.ofInt 64 (2^62+2^39+2^37)))) ∧
      ((fixunsdfdi (fun _ => nan) natDouble (powTwo 32)).toNat : ℤ) = 2^32 ∧
      (fixsfdi (fun _ => nan) natDouble (twoPow31 .float true)).toInt = -2^31 := by
  have h := wide_conversion exactUnsigned_natDouble (fun _ => nan)
  refine ⟨?_,?_,?_⟩
  · apply (h.1 _).2.mpr
    have hint : (BitVec.ofInt 64 (2^62+2^39+2^37)).toInt = 2^62+2^39+2^37 := by decide
    rw [hint]
    rintro ⟨-,hbits,-⟩
    exact hbits (by decide)
  · apply ((h.2.1 _ _ (represents_powTwo (.inr rfl))).1 (by norm_num) (by norm_num)).trans
    have hcast : (2^32 : ℚ) = ((2^32 : ℤ) : ℚ) := by norm_num
    rw [hcast,Int.floor_intCast]
  · apply ((h.2.2 _ _ (represents_twoPow31 true)).2 _).trans
    · have hcast : applySign true (2^31) = ((-2^31 : ℤ) : ℚ) := by norm_num [applySign]
      rw [hcast,truncate_intCast]
    · norm_num [applySign]

end Results

end SoftFloat
end AgbTools
