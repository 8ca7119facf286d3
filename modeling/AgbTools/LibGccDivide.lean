import AgbTools.LibGccDigits

/-! `__udivmoddi4` and the 64-bit division entry points built on it. -/
namespace AgbTools
namespace LibGcc

open LongDivision

/-- A double word shifted up by `bm`, as `(hi << bm) | (lo >> (32-bm))` and `lo << bm`. -/
def shiftUp (hi lo bm : SI) : Option (SI × SI) := do
  let up ← shl hi bm.toNat
  let fill ← lshr lo (32-bm).toNat
  let lo ← shl lo bm.toNat
  return (up ||| fill,lo)

/-- The divisor made to have its top bit set, and the dividend shifted with it. -/
def normalize (n1 n0 d0 bm : SI) : Option (SI × SI × SI) :=
  if bm ≠ 0 then do
    let d0 ← shl d0 bm.toNat
    let (n1,n0) ← shiftUp n1 n0 bm
    return (d0,n1,n0)
  else some (d0,n1,n0)

/-- The high quotient word, the divisor and what is left to divide. When the divisor has its top bit
set already the digit is 1; the shift count would be 32 otherwise. -/
def firstDigit (n1 n0 d0 bm : SI) : Option (SI × SI × SI × SI) :=
  if bm = 0 then some (1,d0,n1-d0,n0)
  else do
    let b := 32-bm
    let d0 ← shl d0 bm.toNat
    let n2 ← lshr n1 b.toNat
    let (n1,n0) ← shiftUp n1 n0 bm
    let (q1,n1) ← udivQrnnd n2 n1 d0
    return (q1,d0,n1,n0)

/-- The quotient words, the shifted remainder and the shift, for a divisor of one word. -/
def divideOneWord (n1 n0 d0 : SI) : Option (SI × SI × SI × SI) :=
  if d0 > n1 then do
    -- 0q = nn / 0D
    let bm ← countLeadingZeros d0
    let (d0,n1,n0) ← normalize n1 n0 d0 bm
    let (q0,n0) ← udivQrnnd n1 n0 d0
    return (0,q0,n0,bm)
  else do
    -- qq = NN / 0d
    let d0 ← (if d0 = 0 then div 1 d0 else some d0)
    let bm ← countLeadingZeros d0
    let (q1,d0,n1,n0) ← firstDigit n1 n0 d0 bm
    let (q0,n0) ← udivQrnnd n1 n0 d0
    return (q1,q0,n0,bm)

/-- The correction of the estimated quotient word: the quotient word and what it takes off. -/
def correctWord (q n1 n0 d1 d0 : SI) : SI × SI × SI :=
  let m := umulPpmm q d0
  if m.1 > n1 ∨ (m.1 = n1 ∧ m.2 > n0) then (q-1,subDdmmss m.1 m.2 d1 d0) else (q,m)

/-- The quotient word and the remainder, for a divisor of two words that is not above the
dividend's high word; the remainder is only made when it is asked for. -/
def divideTwoWords (n1 n0 d1 d0 : SI) (rp : Bool) : Option (SI × Option DIunion) := do
  let bm ← countLeadingZeros d1
  if bm = 0 then
    let w := if n1 > d1 ∨ n0 ≥ d0 then ((1 : SI),subDdmmss n1 n0 d1 d0) else (0,n1,n0)
    return (w.1,if rp then some { low := w.2.2, high := w.2.1 } else none)
  else
    let b := 32-bm
    let (d1,d0) ← shiftUp d1 d0 bm
    let n2 ← lshr n1 b.toNat
    let (n1,n0) ← shiftUp n1 n0 bm
    let (q0,n1) ← udivQrnnd n2 n1 d1
    let w := correctWord q0 n1 n0 d1 d0
    if rp then
      let r := subDdmmss n1 n0 w.2.1 w.2.2
      let low := (← shl r.1 b.toNat) ||| (← lshr r.2 bm.toNat)
      return (w.1,some { low := low, high := ← lshr r.1 bm.toNat })
    else return (w.1,none)

/-- The quotient, and what is stored through `rp` when it is not null. -/
def udivmoddi4 (n d : DI) (rp : Bool) : Option (DI × Option DI) := do
  let nn := DIunion.ofLl n
  let dd := DIunion.ofLl d
  if dd.high = 0 then
    let (q1,q0,n0,bm) ← divideOneWord nn.high nn.low dd.low
    if rp then
      let low ← lshr n0 bm.toNat
      return (DIunion.ll { low := q0, high := q1 },some (DIunion.ll { low := low, high := 0 }))
    else return (DIunion.ll { low := q0, high := q1 },none)
  else if dd.high > nn.high then
    return (0,if rp then some (DIunion.ll { low := nn.low, high := nn.high }) else none)
  else
    let (q0,r) ← divideTwoWords nn.high nn.low dd.high dd.low rp
    return (DIunion.ll { low := q0, high := 0 },r.map DIunion.ll)

def divdi3 (u v : DI) : Option DI := do
  let uu := DIunion.ofLl u
  let vv := DIunion.ofLl v
  let (c,uu) := if uu.high.slt 0 then (!false,DIunion.ofLl (negdi2 uu.ll)) else (false,uu)
  let (c,vv) := if vv.high.slt 0 then (!c,DIunion.ofLl (negdi2 vv.ll)) else (c,vv)
  let (w,_) ← udivmoddi4 uu.ll vv.ll false
  return if c then negdi2 w else w

def moddi3 (u v : DI) : Option DI := do
  let uu := DIunion.ofLl u
  let vv := DIunion.ofLl v
  let (c,uu) := if uu.high.slt 0 then (!false,DIunion.ofLl (negdi2 uu.ll)) else (false,uu)
  let vv := if vv.high.slt 0 then DIunion.ofLl (negdi2 vv.ll) else vv
  let (_,w) ← udivmoddi4 uu.ll vv.ll true
  let w ← w
  return if c then negdi2 w else w

def umoddi3 (u v : DI) : Option DI := do
  let (_,w) ← udivmoddi4 u v true
  w

def udivdi3 (n d : DI) : Option DI := do
  let (w,_) ← udivmoddi4 n d false
  return w

section Shifts

variable {k : ℕ} {x y : SI}

theorem pow_split (hk : k < 32) : 2^(32-k)*2^k = 2^32 := by
  rw [← pow_add]
  congr 1
  omega

theorem shiftLeft_toNat : (x <<< k).toNat = x.toNat*2^k%2^32 := by
  rw [BitVec.toNat_shiftLeft,Nat.shiftLeft_eq]

theorem ushiftRight_toNat : (x >>> k).toNat = x.toNat/2^k := by
  rw [BitVec.toNat_ushiftRight,Nat.shiftRight_eq_div_pow]

/-- A word shifted up and filled with the bits that leave the next one. -/
theorem shift_or_toNat (hk : k < 32) :
    (x <<< k ||| y >>> (32-k)).toNat = x.toNat*2^k%2^32+y.toNat/2^(32-k) := by
  have hfill : y.toNat/2^(32-k) < 2^k := by
    rw [Nat.div_lt_iff_lt_mul (by positivity),Nat.mul_comm,pow_split hk]
    exact y.isLt
  have hup : x.toNat*2^k%2^32 = 2^k*(x.toNat%2^(32-k)) := by
    rw [← pow_split hk,Nat.mul_mod_mul_right,Nat.mul_comm]
  rw [BitVec.toNat_or,shiftLeft_toNat,ushiftRight_toNat,hup,Nat.two_pow_add_eq_or_of_lt hfill]

/-- The three words of a shifted double word. -/
theorem shift_words (hk : k < 32) :
    x.toNat/2^(32-k)*2^64+(x <<< k ||| y >>> (32-k)).toNat*2^32+(y <<< k).toNat =
      (x.toNat*2^32+y.toNat)*2^k := by
  have hcarry : ∀ z : ℕ, z*2^k = z/2^(32-k)*2^32+z*2^k%2^32 := by
    intro z
    have hdiv : z*2^k/2^32 = z/2^(32-k) := by
      rw [← pow_split hk,Nat.mul_div_mul_right _ _ (by positivity)]
    have := Nat.div_add_mod (z*2^k) (2^32)
    rw [hdiv] at this
    omega
  have hmul : (x.toNat*2^32+y.toNat)*2^k = x.toNat*2^k*2^32+y.toNat*2^k := by ring
  rw [shift_or_toNat hk,shiftLeft_toNat,hmul]
  have hx := hcarry x.toNat
  have hy := hcarry y.toNat
  omega

theorem sub_bm_toNat {bm : SI} (h : bm.toNat < 32) : (32-bm).toNat = 32-bm.toNat := by bv_omega

theorem shiftUp_eq {bm : SI} (h0 : bm ≠ 0) (h : bm.toNat < 32) :
    shiftUp x y bm = some (x <<< bm.toNat ||| y >>> (32-bm.toNat),y <<< bm.toNat) := by
  have hpos := pos_of_ne_zero h0
  simp only [shiftUp,shl_eq h,sub_bm_toNat h,lshr_eq (show 32-bm.toNat < 32 by omega)]
  rfl

end Shifts

section OneWord

variable {n1 n0 d0 : SI}

/-- Quotient and remainder words of a dividend and a divisor shifted alike. -/
theorem scaled_div_mod {x d k : ℕ} : x*2^k/(d*2^k) = x/d ∧ x*2^k%(d*2^k)/2^k = x%d := by
  constructor
  · exact Nat.mul_div_mul_right x d (by positivity)
  · rw [Nat.mul_mod_mul_right,Nat.mul_div_cancel _ (by positivity)]

/-- What `normalize` leaves is the division scaled by a power of two. -/
theorem normalize_eq {bm : SI} (hlt : n1.toNat < d0.toNat) (hbm : bm.toNat < 32)
    (hhigh : d0.toNat*2^bm.toNat < 2^32) :
    ∃ d' m1 m0 : SI, normalize n1 n0 d0 bm = some (d',m1,m0) ∧
      d'.toNat = d0.toNat*2^bm.toNat ∧
      m1.toNat*2^32+m0.toNat = (n1.toNat*2^32+n0.toNat)*2^bm.toNat := by
  by_cases h0 : bm = 0
  · refine ⟨d0,n1,n0,if_neg (not_not_intro h0),?_⟩
    simp [h0]
  refine ⟨d0 <<< bm.toNat,n1 <<< bm.toNat ||| n0 >>> (32-bm.toNat),n0 <<< bm.toNat,?_,?_,?_⟩
  · rw [normalize,if_pos h0,shl_eq hbm,shiftUp_eq h0 hbm]
    rfl
  · rw [shiftLeft_toNat,Nat.mod_eq_of_lt hhigh]
  · have htop : n1.toNat/2^(32-bm.toNat) = 0 := by
      rw [Nat.div_eq_zero_iff]
      right
      have hd0 : d0.toNat < 2^(32-bm.toNat) := by
        rwa [← pow_split hbm,Nat.mul_lt_mul_right (by positivity)] at hhigh
      omega
    have hwords := @shift_words bm.toNat n1 n0 hbm
    rwa [htop,Nat.zero_mul,Nat.zero_add] at hwords

theorem firstDigit_eq {bm : SI} (hle : d0.toNat ≤ n1.toNat) (hbm : bm.toNat < 32)
    (hlow : 2^31 ≤ d0.toNat*2^bm.toNat) (hhigh : d0.toNat*2^bm.toNat < 2^32) :
    ∃ q1 d' m1 m0 : SI, firstDigit n1 n0 d0 bm = some (q1,d',m1,m0) ∧
      d'.toNat = d0.toNat*2^bm.toNat ∧ m1.toNat < d'.toNat ∧
      (n1.toNat*2^32+n0.toNat)*2^bm.toNat = q1.toNat*2^32*d'.toNat+(m1.toNat*2^32+m0.toNat) := by
  by_cases h0 : bm = 0
  · subst h0
    have hn1 := n1.isLt
    have hzero : (0 : SI).toNat = 0 := rfl
    simp only [hzero,pow_zero,Nat.mul_one] at hlow ⊢
    have hsub : (n1-d0).toNat = n1.toNat-d0.toNat := by bv_omega
    refine ⟨1,d0,n1-d0,n0,rfl,rfl,by omega,?_⟩
    rw [hsub,show (1 : SI).toNat = 1 from rfl]
    omega
  have hd' : (d0 <<< bm.toNat).toNat = d0.toNat*2^bm.toNat := by
    rw [shiftLeft_toNat,Nat.mod_eq_of_lt hhigh]
  have hn2 : (n1 >>> (32-bm.toNat)).toNat < (d0 <<< bm.toNat).toNat := by
    have hlt : n1.toNat/2^(32-bm.toNat) < 2^bm.toNat := by
      rw [Nat.div_lt_iff_lt_mul (by positivity),Nat.mul_comm,pow_split hbm]
      exact n1.isLt
    have hpow : 2^bm.toNat ≤ 2^31 := Nat.pow_le_pow_right (by omega) (by omega)
    rw [ushiftRight_toNat,hd']
    omega
  obtain ⟨q1,r1,hrun,hq,hr⟩ := @udivQrnnd_eq (n1 >>> (32-bm.toNat))
    (n1 <<< bm.toNat ||| n0 >>> (32-bm.toNat)) (d0 <<< bm.toNat) (by omega) hn2
  refine ⟨q1,d0 <<< bm.toNat,r1,n0 <<< bm.toNat,?_,hd',?_,?_⟩
  · have hpos := pos_of_ne_zero h0
    have hb : lshr n1 ((32-bm.toNat : ℕ) : ℤ) = some (n1 >>> (32-bm.toNat)) := lshr_eq (by omega)
    simp only [firstDigit,if_neg h0,shl_eq hbm,shiftUp_eq h0 hbm,sub_bm_toNat hbm,hb,
      Option.bind_eq_bind,Option.bind_some,hrun]
    rfl
  · rw [hr]
    exact Nat.mod_lt _ (by omega)
  · have hwords := @shift_words bm.toNat n1 n0 hbm
    have hdigit := Nat.div_add_mod ((n1 >>> (32-bm.toNat)).toNat*2^32+
      (n1 <<< bm.toNat ||| n0 >>> (32-bm.toNat)).toNat) (d0 <<< bm.toNat).toNat
    rw [← hq,← hr,ushiftRight_toNat] at hdigit
    rw [← hwords]
    have hmul : q1.toNat*2^32*(d0 <<< bm.toNat).toNat = (d0 <<< bm.toNat).toNat*q1.toNat*2^32 := by
      ring
    omega

/-- Division by one word: the quotient words, and the remainder still shifted. -/
theorem divideOneWord_eq (hne : d0 ≠ 0) :
    ∃ q1 q0 r bm : SI, divideOneWord n1 n0 d0 = some (q1,q0,r,bm) ∧ bm.toNat < 32 ∧
      q1.toNat*2^32+q0.toNat = (n1.toNat*2^32+n0.toNat)/d0.toNat ∧
      r.toNat/2^bm.toNat = (n1.toNat*2^32+n0.toNat)%d0.toNat := by
  obtain ⟨bm,hclz,hbm,hlow,hhigh⟩ := countLeadingZeros_eq hne
  by_cases hd : n1 < d0
  · have hlt := BitVec.lt_def.mp hd
    obtain ⟨d',m1,m0,hrun,hd',hm⟩ := @normalize_eq n1 n0 d0 bm hlt hbm hhigh
    have hfit : m1.toNat < d'.toNat := by
      have hN : n1.toNat*2^32+n0.toNat < d0.toNat*2^32 := by
        have := n0.isLt
        omega
      have hscaled : (n1.toNat*2^32+n0.toNat)*2^bm.toNat < d0.toNat*2^32*2^bm.toNat :=
        Nat.mul_lt_mul_of_pos_right hN (by positivity)
      rw [← hm,Nat.mul_right_comm,← hd'] at hscaled
      omega
    obtain ⟨q,r,hdiv,hq,hr⟩ := @udivQrnnd_eq m1 m0 d' (by omega) hfit
    rw [hm,hd'] at hq hr
    refine ⟨0,q,r,bm,?_,hbm,?_,?_⟩
    · simp only [divideOneWord,gt_iff_lt,if_pos hd,hclz,hrun,hdiv,Option.bind_eq_bind,
        Option.bind_some,Option.pure_def]
    · rw [hq,scaled_div_mod.1]
      simp
    · rw [hr,scaled_div_mod.2]
  · have hle := Nat.le_of_not_lt (mt BitVec.lt_def.mpr hd)
    obtain ⟨q1,d',m1,m0,hrun,hd',hfit,hm⟩ := @firstDigit_eq n1 n0 d0 bm hle hbm hlow hhigh
    obtain ⟨q,r,hdiv,hq,hr⟩ := @udivQrnnd_eq m1 m0 d' (by omega) hfit
    have hpos : 0 < d'.toNat := by omega
    refine ⟨q1,q,r,bm,?_,hbm,?_,?_⟩
    · simp only [divideOneWord,gt_iff_lt,if_neg hd,if_neg hne,hclz,hrun,hdiv,Option.bind_eq_bind,
        Option.bind_some,Option.pure_def]
    · rw [← (@scaled_div_mod _ _ bm.toNat).1,hm,← hd',Nat.mul_comm _ d'.toNat,Nat.mul_add_div hpos,hq]
    · rw [← (@scaled_div_mod _ _ bm.toNat).2,hm,← hd',Nat.mul_add_mod',hr]

end OneWord
section TwoWords

variable {n1 n0 d1 d0 : SI}

theorem subDdmmss_toNat {ah al bh bl : SI} :
    (subDdmmss ah al bh bl).1.toNat*2^32+(subDdmmss ah al bh bl).2.toNat =
      (2^64+(ah.toNat*2^32+al.toNat)-(bh.toNat*2^32+bl.toNat))%2^64 := by
  have hah := ah.isLt
  have hal := al.isLt
  have hbh := bh.isLt
  have hbl := bl.isLt
  simp only [subDdmmss,flag,gt_iff_lt,BitVec.lt_def,BitVec.toNat_sub]
  by_cases h : al.toNat < bl.toNat
  · rw [if_pos (by omega),show (1 : SI).toNat = 1 from rfl]
    omega
  · rw [if_neg (by omega),show (0 : SI).toNat = 0 from rfl]
    omega

/-- A double word shifted down. -/
theorem shift_down {x y : SI} {k : ℕ} (h0 : 0 < k) (hk : k < 32) :
    x.toNat/2^k*2^32+(x <<< (32-k) ||| y >>> k).toNat = (x.toNat*2^32+y.toNat)/2^k := by
  have hor := @shift_or_toNat (32-k) x y (by omega)
  rw [show 32-(32-k) = k by omega] at hor
  have hsplit := pow_split hk
  have hx : x.toNat*2^(32-k)%2^32 = x.toNat%2^k*2^(32-k) := by
    rw [← hsplit,Nat.mul_comm (2^(32-k)),Nat.mul_mod_mul_right]
  have hsum : x.toNat*2^32+y.toNat = 2^k*(x.toNat/2^k*2^32+x.toNat%2^k*2^(32-k))+y.toNat := by
    have hdm := Nat.div_add_mod x.toNat (2^k)
    calc x.toNat*2^32+y.toNat = (2^k*(x.toNat/2^k)+x.toNat%2^k)*2^32+y.toNat := by rw [hdm]
      _ = 2^k*(x.toNat/2^k)*2^32+x.toNat%2^k*(2^(32-k)*2^k)+y.toNat := by rw [hsplit]; ring
      _ = 2^k*(x.toNat/2^k*2^32+x.toNat%2^k*2^(32-k))+y.toNat := by ring
  rw [hor,hx,hsum,Nat.mul_add_div (by positivity),Nat.add_assoc]

/-- The divisor has its top bit set: the quotient is 0 or 1. -/
theorem divideTwoWords_top {rp : Bool} (hclz : countLeadingZeros d1 = some 0)
    (hd : 2^31 ≤ d1.toNat) (hle : d1.toNat ≤ n1.toNat) :
    ∃ q0 : SI, ∃ r : DIunion, divideTwoWords n1 n0 d1 d0 rp = some (q0,if rp then some r else none) ∧
      q0.toNat = (n1.toNat*2^32+n0.toNat)/(d1.toNat*2^32+d0.toNat) ∧
      r.high.toNat*2^32+r.low.toNat = (n1.toNat*2^32+n0.toNat)%(d1.toNat*2^32+d0.toNat) := by
  have hn1 := n1.isLt
  have hn0 := n0.isLt
  have hd0 := d0.isLt
  simp only [divideTwoWords,hclz,Option.bind_eq_bind,Option.bind_some,if_pos,gt_iff_lt,ge_iff_le,
    BitVec.lt_def,BitVec.le_def]
  by_cases h : d1.toNat < n1.toNat ∨ d0.toNat ≤ n0.toNat
  · refine ⟨1,{ low := (subDdmmss n1 n0 d1 d0).2, high := (subDdmmss n1 n0 d1 d0).1 },?_,?_,?_⟩
    · rw [if_pos h]
      rfl
    · rw [show (1 : SI).toNat = 1 from rfl]
      symm
      rw [Nat.div_eq_iff (by omega)]
      omega
    · have hmod : (n1.toNat*2^32+n0.toNat)%(d1.toNat*2^32+d0.toNat) =
          n1.toNat*2^32+n0.toNat-(d1.toNat*2^32+d0.toNat) := by
        rw [Nat.mod_eq_sub_mod (by omega),Nat.mod_eq_of_lt (by omega)]
      rw [subDdmmss_toNat,hmod]
      omega
  · refine ⟨0,{ low := n0, high := n1 },?_,?_,?_⟩
    · rw [if_neg h]
      rfl
    · rw [show (0 : SI).toNat = 0 from rfl,Nat.div_eq_of_lt (by omega)]
    · have hmod : (n1.toNat*2^32+n0.toNat)%(d1.toNat*2^32+d0.toNat) = n1.toNat*2^32+n0.toNat :=
        Nat.mod_eq_of_lt (by omega)
      rw [hmod]

/-- After one correction at most the quotient word is right, and so is the remainder that is left
modulo two words. -/
theorem correctWord_toNat {m0 q r e1 e0 : SI} {n : ℕ} (he1 : 2^31 ≤ e1.toNat)
    (hq : q.toNat = n/e1.toNat) (hr : r.toNat = n%e1.toNat)
    (hprod : q.toNat*e0.toNat ≤ e1.toNat*2^32) :
    (correctWord q r m0 e1 e0).1.toNat = (n*2^32+m0.toNat)/(e1.toNat*2^32+e0.toNat) ∧
      (subDdmmss r m0 (correctWord q r m0 e1 e0).2.1 (correctWord q r m0 e1 e0).2.2).1.toNat*2^32+
        (subDdmmss r m0 (correctWord q r m0 e1 e0).2.1 (correctWord q r m0 e1 e0).2.2).2.toNat =
        (n*2^32+m0.toNat)%(e1.toNat*2^32+e0.toNat) := by
  have hm0 := m0.isLt
  have hrlt : r.toNat < e1.toNat := by
    rw [hr]
    exact Nat.mod_lt _ (by omega)
  have he1lt := e1.isLt
  have he0lt := e0.isLt
  have hsum := @estimate_sum (2^32) e0.toNat e1.toNat n m0.toNat
  rw [← hq,← hr] at hsum
  have hpp := umulPpmm_toNat q e0
  have hq0 : q.toNat = 0 → q.toNat*e0.toNat = 0 := by
    intro h
    rw [h,Nat.zero_mul]
  clear hq hr
  unfold correctWord
  generalize umulPpmm q e0 = m at *
  have hm2 := m.2.isLt
  simp only [gt_iff_lt,BitVec.lt_def,← BitVec.toNat_inj]
  obtain ⟨m1,m2⟩ := m
  dsimp only at *
  generalize q.toNat*e0.toNat = p at *
  obtain ⟨d,hd⟩ : ∃ d, d = e1.toNat*2^32+e0.toNat := ⟨_,rfl⟩
  rw [← hd] at hsum ⊢
  by_cases h : r.toNat < m1.toNat ∨ m1.toNat = r.toNat ∧ m0.toNat < m2.toNat
  · have h1 : 1 ≤ q.toNat := by omega
    have h2 : p ≤ r.toNat*2^32+m0.toNat+1*d := by linarith
    have h3 : r.toNat*2^32+m0.toNat+1*d < p+d := by clear hsum; omega
    obtain ⟨hdiv,hmod⟩ := @div_mod_of_estimate _ 1 _ _ _ _ hsum h1 h2 h3
    rw [if_pos h]
    constructor
    · rw [hdiv]
      bv_omega
    · rw [hmod,subDdmmss_toNat,subDdmmss_toNat]
      omega
  · have hle : p ≤ r.toNat*2^32+m0.toNat := by
      clear hprod
      omega
    have hlt : r.toNat*2^32+m0.toNat+0*d < p+d := by
      have : (r.toNat+1)*2^32 ≤ e1.toNat*2^32 := Nat.mul_le_mul_right _ hrlt
      linarith
    obtain ⟨hdiv,hmod⟩ := @div_mod_of_estimate _ 0 _ _ _ _ hsum (Nat.zero_le _) (by linarith) hlt
    rw [if_neg h]
    constructor
    · rw [hdiv]
      rfl
    · rw [hmod,subDdmmss_toNat]
      dsimp only
      omega

/-- The normalized case: the estimate of the quotient word by the divisor's high word is at most one
too large. -/
theorem divideTwoWords_shifted {rp : Bool} {bm : SI} (hclz : countLeadingZeros d1 = some bm)
    (hbm : bm.toNat < 32) (h0 : bm ≠ 0) (hlow : 2^31 ≤ d1.toNat*2^bm.toNat)
    (hhigh : d1.toNat*2^bm.toNat < 2^32) :
    ∃ q0 : SI, ∃ r : DIunion, divideTwoWords n1 n0 d1 d0 rp = some (q0,if rp then some r else none) ∧
      q0.toNat = (n1.toNat*2^32+n0.toNat)/(d1.toNat*2^32+d0.toNat) ∧
      r.high.toNat*2^32+r.low.toNat = (n1.toNat*2^32+n0.toNat)%(d1.toNat*2^32+d0.toNat) := by
  have hpos := pos_of_ne_zero h0
  have hdtop : d1.toNat/2^(32-bm.toNat) = 0 := by
    rw [Nat.div_eq_zero_iff]
    right
    rwa [← pow_split hbm,Nat.mul_lt_mul_right (by positivity)] at hhigh
  have hdwords := @shift_words bm.toNat d1 d0 hbm
  rw [hdtop,Nat.zero_mul,Nat.zero_add] at hdwords
  have hnwords := @shift_words bm.toNat n1 n0 hbm
  have he1 : 2^31 ≤ (d1 <<< bm.toNat ||| d0 >>> (32-bm.toNat)).toNat := by
    rw [shift_or_toNat hbm,Nat.mod_eq_of_lt hhigh]
    exact Nat.le_trans hlow (Nat.le_add_right ..)
  have hn2 : (n1 >>> (32-bm.toNat)).toNat < 2^bm.toNat := by
    rw [ushiftRight_toNat,Nat.div_lt_iff_lt_mul (by positivity),Nat.mul_comm,pow_split hbm]
    exact n1.isLt
  have hpow : 2^bm.toNat ≤ 2^31 := Nat.pow_le_pow_right (by omega) (by omega)
  have he0 : (d0 <<< bm.toNat).toNat+2^bm.toNat ≤ 2^32 := by
    have hmod : d0.toNat%2^(32-bm.toNat)+1 ≤ 2^(32-bm.toNat) := Nat.mod_lt _ (by positivity)
    rw [shiftLeft_toNat,← pow_split hbm,Nat.mul_mod_mul_right,← Nat.add_one_mul]
    exact Nat.mul_le_mul_right _ hmod
  rw [← ushiftRight_toNat] at hnwords
  have hlshr : lshr n1 ((32-bm.toNat : ℕ) : ℤ) = some (n1 >>> (32-bm.toNat)) := lshr_eq (by omega)
  simp only [divideTwoWords,hclz,Option.bind_eq_bind,Option.bind_some,if_neg h0,sub_bm_toNat hbm,
    shiftUp_eq h0 hbm,hlshr]
  generalize d1 <<< bm.toNat ||| d0 >>> (32-bm.toNat) = e1 at *
  generalize d0 <<< bm.toNat = e0 at *
  generalize n1 >>> (32-bm.toNat) = n2 at *
  generalize n1 <<< bm.toNat ||| n0 >>> (32-bm.toNat) = m1 at *
  generalize n0 <<< bm.toNat = m0 at *
  obtain ⟨q,r,hrun,hq,hr⟩ := @udivQrnnd_eq n2 m1 e1 he1 (by omega)
  have hq1 : q.toNat*e1.toNat ≤ 2^bm.toNat*2^32 := by
    have hle := Nat.div_mul_le_self (n2.toNat*2^32+m1.toNat) e1.toNat
    rw [← hq] at hle
    have hm1 := m1.isLt
    have hmul : (n2.toNat+1)*2^32 ≤ 2^bm.toNat*2^32 := Nat.mul_le_mul_right _ hn2
    linarith
  have hprod := product_le (show 2^32 ≤ 2*e1.toNat by omega) hq1 he0 (by omega)
  obtain ⟨hqw,hrw⟩ := correctWord_toNat he1 hq hr hprod
  have hN : (n2.toNat*2^32+m1.toNat)*2^32+m0.toNat =
      (n1.toNat*2^32+n0.toNat)*2^bm.toNat := by
    rw [← hnwords]
    ring
  rw [hN,hdwords] at hqw hrw
  simp only [hrun,Option.bind_some]
  generalize correctWord q r m0 e1 e0 = w at *
  have hb : 32-bm.toNat < 32 := by omega
  rw [scaled_div_mod.1] at hqw
  generalize subDdmmss r m0 w.2.1 w.2.2 = v at *
  refine ⟨w.1,{ low := v.1 <<< (32-bm.toNat) ||| v.2 >>> bm.toNat, high := v.1 >>> bm.toNat },
    ?_,hqw,?_⟩
  · cases rp with
    | false => rfl
    | true =>
      simp only [if_true,shl_eq hb,lshr_eq hbm,Option.bind_some]
      rfl
  · rw [ushiftRight_toNat,shift_down hpos hbm,hrw,scaled_div_mod.2]

theorem divideTwoWords_eq {rp : Bool} (hne : d1 ≠ 0) (hle : d1.toNat ≤ n1.toNat) :
    ∃ q0 : SI, ∃ r : DIunion, divideTwoWords n1 n0 d1 d0 rp = some (q0,if rp then some r else none) ∧
      q0.toNat = (n1.toNat*2^32+n0.toNat)/(d1.toNat*2^32+d0.toNat) ∧
      r.high.toNat*2^32+r.low.toNat = (n1.toNat*2^32+n0.toNat)%(d1.toNat*2^32+d0.toNat) := by
  obtain ⟨bm,hclz,hbm,hlow,hhigh⟩ := countLeadingZeros_eq hne
  by_cases h0 : bm = 0
  · subst h0
    refine divideTwoWords_top hclz ?_ hle
    simpa using hlow
  · exact divideTwoWords_shifted hclz hbm h0 hlow hhigh

end TwoWords

section Entry

theorem toNat_words (u : DI) :
    (DIunion.ofLl u).high.toNat*2^32+(DIunion.ofLl u).low.toNat = u.toNat := by
  rw [low_toNat,high_toNat]
  omega

/-- `__udivmoddi4` divides exactly, whichever of its paths it takes. -/
theorem udivmoddi4_eq (n : DI) {d : DI} (hd : d ≠ 0) (rp : Bool) :
    udivmoddi4 n d rp = some (n/d,if rp then some (n%d) else none) := by
  have hn := toNat_words n
  have hdw := toNat_words d
  unfold udivmoddi4
  by_cases h1 : (DIunion.ofLl d).high = 0
  · have hne : (DIunion.ofLl d).low ≠ 0 := by
      intro h
      apply hd
      apply BitVec.eq_of_toNat_eq
      rw [← hdw,h,h1]
      rfl
    obtain ⟨q1,q0,r,bm,hrun,hbm,hq,hr⟩ :=
      @divideOneWord_eq (DIunion.ofLl n).high (DIunion.ofLl n).low (DIunion.ofLl d).low hne
    rw [h1,show (0 : SI).toNat = 0 from rfl,Nat.zero_mul,Nat.zero_add] at hdw
    rw [hn,hdw] at hq hr
    have hquot : DIunion.ll { low := q0, high := q1 } = n/d := by
      apply BitVec.eq_of_toNat_eq
      rw [ll_toNat,BitVec.toNat_udiv,hq]
    have hrem : DIunion.ll { low := r >>> bm.toNat, high := 0 } = n%d := by
      apply BitVec.eq_of_toNat_eq
      rw [ll_toNat,BitVec.toNat_umod,ushiftRight_toNat,hr]
      simp
    simp only [if_pos h1,hrun,Option.bind_eq_bind,Option.bind_some,hquot,lshr_eq hbm,hrem]
    cases rp <;> rfl
  by_cases h2 : (DIunion.ofLl n).high < (DIunion.ofLl d).high
  · have hlt : n.toNat < d.toNat := by
      have := BitVec.lt_def.mp h2
      have := (DIunion.ofLl n).low.isLt
      omega
    have hquot : n/d = 0 := by
      apply BitVec.eq_of_toNat_eq
      rw [BitVec.toNat_udiv,Nat.div_eq_of_lt hlt]
      rfl
    have hrem : DIunion.ll { low := (DIunion.ofLl n).low, high := (DIunion.ofLl n).high } = n%d := by
      apply BitVec.eq_of_toNat_eq
      rw [ll_toNat,BitVec.toNat_umod,Nat.mod_eq_of_lt hlt,hn]
    simp only [if_neg h1,gt_iff_lt,if_pos h2,hrem,hquot]
    cases rp <;> rfl
  · have hle := Nat.le_of_not_lt (mt BitVec.lt_def.mpr h2)
    obtain ⟨q0,r,hrun,hq,hr⟩ := @divideTwoWords_eq (DIunion.ofLl n).high (DIunion.ofLl n).low
      (DIunion.ofLl d).high (DIunion.ofLl d).low rp h1 hle
    rw [hn,hdw] at hq hr
    have hquot : DIunion.ll { low := q0, high := 0 } = n/d := by
      apply BitVec.eq_of_toNat_eq
      rw [ll_toNat,BitVec.toNat_udiv,hq]
      simp
    have hrem : r.ll = n%d := by
      apply BitVec.eq_of_toNat_eq
      rw [ll_toNat,BitVec.toNat_umod,hr]
    simp only [if_neg h1,gt_iff_lt,if_neg h2,hrun,Option.bind_eq_bind,Option.bind_some,hquot]
    cases rp with
    | false => rfl
    | true => exact congrArg (fun r => some (n/d,some r)) hrem

theorem ll_ofLl (u : DI) : (DIunion.ofLl u).ll = u := by
  apply BitVec.eq_of_toNat_eq
  rw [ll_toNat,toNat_words]

theorem high_slt (u : DI) : (DIunion.ofLl u).high.slt 0 = u.msb := by
  calc (DIunion.ofLl u).high.slt 0 = (DIunion.ofLl u).high.msb := BitVec.slt_zero_eq_msb
    _ = u.msb := by
      rw [BitVec.msb_eq_getLsbD_last,BitVec.msb_eq_getLsbD_last,high_getLsbD]
      rfl

theorem neg_ne_zero {u : DI} (h : u ≠ 0) : -u ≠ 0 := by
  intro h0
  exact h (BitVec.neg_eq_zero_iff.mp h0)

theorem divdi3_eq (u : DI) {v : DI} (hv : v ≠ 0) : divdi3 u v = some (u.sdiv v) := by
  have hnv := neg_ne_zero hv
  simp only [divdi3,high_slt,negdi2_eq,ll_ofLl,BitVec.sdiv_eq]
  cases u.msb <;> cases v.msb <;>
    simp only [if_true,if_false,Bool.false_eq_true,ll_ofLl,udivmoddi4_eq _ hv,udivmoddi4_eq _ hnv,
      Option.bind_eq_bind,Option.bind_some,Bool.not_false,Bool.not_true] <;> rfl

theorem moddi3_eq (u : DI) {v : DI} (hv : v ≠ 0) : moddi3 u v = some (u.srem v) := by
  have hnv := neg_ne_zero hv
  simp only [moddi3,high_slt,negdi2_eq,ll_ofLl,BitVec.srem_eq]
  cases u.msb <;> cases v.msb <;>
    simp only [if_true,if_false,Bool.false_eq_true,ll_ofLl,udivmoddi4_eq _ hv,udivmoddi4_eq _ hnv,
      Option.bind_eq_bind,Option.bind_some,Bool.not_false] <;> rfl

/-- 64-bit division by a divisor that is not zero is exact and meets no undefined operation. -/
theorem division_exact (n d : DI) (hd : d ≠ 0) :
    udivmoddi4 n d true = some (n/d,some (n%d)) ∧ udivmoddi4 n d false = some (n/d,none) ∧
    udivdi3 n d = some (n/d) ∧ umoddi3 n d = some (n%d) ∧
    divdi3 n d = some (BitVec.ofInt 64 (n.toInt.tdiv d.toInt)) ∧
    moddi3 n d = some (BitVec.ofInt 64 (n.toInt.tmod d.toInt)) := by
  have hquot : n.sdiv d = BitVec.ofInt 64 (n.toInt.tdiv d.toInt) := by
    apply BitVec.eq_of_toInt_eq
    rw [BitVec.toInt_sdiv,BitVec.toInt_ofInt]
  have hrem : n.srem d = BitVec.ofInt 64 (n.toInt.tmod d.toInt) := by
    rw [← BitVec.toInt_srem,BitVec.ofInt_toInt]
  refine ⟨udivmoddi4_eq n hd true,udivmoddi4_eq n hd false,?_,?_,?_,?_⟩
  · simp only [udivdi3,udivmoddi4_eq n hd]
    rfl
  · simp only [umoddi3,udivmoddi4_eq n hd]
    rfl
  · rw [divdi3_eq n hd,hquot]
  · rw [moddi3_eq n hd,hrem]

/-- The quotient word is estimated one too large here and corrected. -/
theorem division_exact_corrected :
    (0x10000ffff : DI) ≠ 0 ∧
      udivmoddi4 0xffffffffffffffff 0x10000ffff true = some (0xffff0001,some 0xfffe0000) :=
  ⟨by decide,(division_exact 0xffffffffffffffff 0x10000ffff (by decide)).1⟩

end Entry
end LibGcc
end AgbTools
