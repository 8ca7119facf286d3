import AgbTools.LibGcc
import AgbTools.LongDivision

/-! The half-word digits of `udiv_qrnnd`: what every word on the way stands for, how often an estimate
is corrected, and the count of leading zeros that makes a divisor fit for them. -/
namespace AgbTools
namespace LibGcc

open LongDivision

section Words

variable {n n1 n0 digit d q r m : SI}

theorem or_toNat {x : SI} {y : SI} (hx : x.toNat < 2^16) (hy : y.toNat < 2^16) :
    (x*llB ||| y).toNat = x.toNat*2^16+y.toNat := by
  have hmul : (x*llB).toNat = x.toNat*2^16 := by
    rw [BitVec.toNat_mul]
    change x.toNat*2^16%2^32 = _
    omega
  rw [BitVec.toNat_or,hmul,Nat.mul_comm,Nat.two_pow_add_eq_or_of_lt hy]

theorem pos_of_ne_zero {x : SI} (h : x ≠ 0) : 0 < x.toNat := by
  rw [Nat.pos_iff_ne_zero]
  intro h0
  exact h (BitVec.eq_of_toNat_eq h0)

theorem div_eq {x y : SI} (h : y ≠ 0) : div x y = some (x/y) := if_neg h

theorem rem_eq {x y : SI} (h : y ≠ 0) : rem x y = some (x%y) := if_neg h

/-- The corrections reach the quotient when the estimate is at most two too large. -/
theorem udivQrnndCorrect_toNat {q r m d : SI} {x : ℕ} (hsum : x+m.toNat = q.toNat*d.toNat+r.toNat)
    (hd : 2^31 ≤ d.toNat) (hr : r.toNat < d.toNat) (hq0 : q.toNat = 0 → m.toNat = 0)
    (hq1 : q.toNat = 1 → m.toNat < d.toNat) :
    (udivQrnndCorrect q r m d).1.toNat = x/d.toNat ∧
      ((udivQrnndCorrect q r m d).2-m).toNat = x%d.toNat := by
  have hm := m.isLt
  simp only [udivQrnndCorrect,BitVec.lt_def,ge_iff_le,BitVec.le_def]
  by_cases h0 : r.toNat < m.toNat
  · rw [if_pos h0]
    by_cases hcarry : r.toNat+d.toNat < 2^32
    · have hr' : (r+d).toNat = r.toNat+d.toNat := by
        rw [BitVec.toNat_add]
        omega
      rw [hr',if_pos (by omega)]
      by_cases h1 : r.toNat+d.toNat < m.toNat
      · rw [if_pos h1]
        obtain ⟨hdiv,hmod⟩ := @div_mod_of_estimate _ 2 _ _ _ _ hsum (by omega) (by omega) (by omega)
        constructor
        · rw [hdiv]
          bv_omega
        · rw [hmod,BitVec.toNat_sub,BitVec.toNat_add,hr']
          omega
      · rw [if_neg h1]
        obtain ⟨hdiv,hmod⟩ := @div_mod_of_estimate _ 1 _ _ _ _ hsum (by omega) (by omega) (by omega)
        constructor
        · rw [hdiv]
          bv_omega
        · rw [hmod,BitVec.toNat_sub,hr']
          omega
    · have hr' : (r+d).toNat = r.toNat+d.toNat-2^32 := by
        rw [BitVec.toNat_add]
        omega
      rw [hr',if_neg (by omega)]
      obtain ⟨hdiv,hmod⟩ := @div_mod_of_estimate _ 1 _ _ _ _ hsum (by omega) (by omega) (by omega)
      constructor
      · rw [hdiv]
        bv_omega
      · rw [hmod,BitVec.toNat_sub,hr']
        omega
  · rw [if_neg h0]
    obtain ⟨hdiv,hmod⟩ := @div_mod_of_estimate _ 0 _ _ _ _ hsum (by omega) (by omega) (by omega)
    constructor
    · rw [hdiv,Nat.sub_zero]
    · simp only [hmod,BitVec.toNat_sub]
      omega

/-- `__q1` and `__q0` before the corrections. -/
def estimate (n d : SI) : SI := n/llHighpart d

/-- `__m` -/
def product (n d : SI) : SI := estimate n d*llLowpart d

/-- `__r1` and `__r0` with the next digit behind them. -/
def rest (n digit d : SI) : SI := n%llHighpart d*llB ||| digit

/-- The divisor in half-words, the upper one with its top bit set. -/
theorem normalized_split (hd : 2^31 ≤ d.toNat) :
    d.toNat = (llHighpart d).toNat*2^16+(llLowpart d).toNat ∧ 2^15 ≤ (llHighpart d).toNat ∧
      (llHighpart d).toNat < 2^16 ∧ (llLowpart d).toNat < 2^16 := by
  have hdlt := d.isLt
  have hd1 := highpart_toNat d
  have hd0 := lowpart_toNat d
  omega

theorem estimate_toNat (n d : SI) : (estimate n d).toNat = n.toNat/(llHighpart d).toNat :=
  BitVec.toNat_udiv

theorem product_toNat (hd : 2^31 ≤ d.toNat) (hn : n.toNat < d.toNat) :
    (product n d).toNat = (estimate n d).toNat*(llLowpart d).toNat := by
  obtain ⟨hsplit,hhigh,hhigh',hlow⟩ := normalized_split hd
  have hlt : n.toNat/(llHighpart d).toNat*(llLowpart d).toNat < 2^16*2^16 :=
    product_lt (by omega) hlow (by omega)
  rw [product,BitVec.toNat_mul,estimate_toNat]
  omega

theorem rest_toNat (hd : 2^31 ≤ d.toNat) (hdigit : digit.toNat < 2^16) :
    (rest n digit d).toNat = n.toNat%(llHighpart d).toNat*2^16+digit.toNat := by
  obtain ⟨-,hhigh,hhigh',-⟩ := normalized_split hd
  have hrem := Nat.mod_lt n.toNat (show 0 < (llHighpart d).toNat by omega)
  rw [rest,or_toNat _ hdigit,BitVec.toNat_umod]
  rw [BitVec.toNat_umod]
  omega

/-- What the estimate stands for. -/
theorem estimated (hd : 2^31 ≤ d.toNat) (hn : n.toNat < d.toNat) (hdigit : digit.toNat < 2^16) :
    n.toNat*2^16+digit.toNat+(product n d).toNat =
      (estimate n d).toNat*d.toNat+(rest n digit d).toNat := by
  obtain ⟨hsplit,-,-,-⟩ := normalized_split hd
  rw [product_toNat hd hn,rest_toNat hd hdigit,estimate_toNat,hsplit]
  exact estimate_sum

theorem udivQrnndDigit_run (hd : 2^31 ≤ d.toNat) : udivQrnndDigit n digit d =
    some ((udivQrnndCorrect (estimate n d) (rest n digit d) (product n d) d).1,
      (udivQrnndCorrect (estimate n d) (rest n digit d) (product n d) d).2-product n d) := by
  obtain ⟨-,hhigh,-,-⟩ := normalized_split hd
  have hne : llHighpart d ≠ 0 := by
    intro h
    rw [h] at hhigh
    simp at hhigh
  simp only [udivQrnndDigit,rem_eq hne,div_eq hne,Option.bind_eq_bind,Option.bind_some,Option.pure_def]
  rfl

/-- One digit of the division, when the divisor is normalized and the digit does not overflow. -/
theorem udivQrnndDigit_eq (hd : 2^31 ≤ d.toNat) (hn : n.toNat < d.toNat)
    (hdigit : digit.toNat < 2^16) :
    ∃ q r : SI, udivQrnndDigit n digit d = some (q,r) ∧
      q.toNat = (n.toNat*2^16+digit.toNat)/d.toNat ∧
      r.toNat = (n.toNat*2^16+digit.toNat)%d.toNat := by
  obtain ⟨hsplit,hhigh,hhigh',hlow⟩ := normalized_split hd
  have hm := product_toNat hd hn
  have hrest := @rest_lt (2^16) (llHighpart d).toNat n.toNat digit.toNat (by omega) hdigit
  rw [← rest_toNat hd hdigit] at hrest
  obtain ⟨hdiv,hmod⟩ := udivQrnndCorrect_toNat (estimated hd hn hdigit) hd (by omega)
    (fun h => by rw [hm,h,Nat.zero_mul]) (fun h => by rw [hm,h,Nat.one_mul]; omega)
  exact ⟨_,_,udivQrnndDigit_run hd,hdiv,hmod⟩

/-- `udiv_qrnnd` under its documented conditions. -/
theorem udivQrnnd_eq (hd : 2^31 ≤ d.toNat) (hn : n1.toNat < d.toNat) :
    ∃ q r : SI, udivQrnnd n1 n0 d = some (q,r) ∧
      q.toNat = (n1.toNat*2^32+n0.toNat)/d.toNat ∧
      r.toNat = (n1.toNat*2^32+n0.toNat)%d.toNat := by
  have hdlt := d.isLt
  have hh := highpart_toNat n0
  have hl := lowpart_toNat n0
  have hn0 := n0.isLt
  obtain ⟨q1,r1,he1,hq1,hr1⟩ := @udivQrnndDigit_eq n1 (llHighpart n0) d hd hn (by omega)
  have hr1lt : r1.toNat < d.toNat := by
    rw [hr1]
    exact Nat.mod_lt _ (by omega)
  obtain ⟨q0,r0,he0,hq0,hr0⟩ := @udivQrnndDigit_eq r1 (llLowpart n0) d hd hr1lt (by omega)
  refine ⟨q1*llB ||| q0,r0,?_,?_⟩
  · simp only [udivQrnnd,he1,he0,Option.bind_eq_bind,Option.bind_some]
    rfl
  have hlt1 : q1.toNat < 2^16 := by
    rw [hq1]
    exact digit_lt hn (by omega)
  have hlt0 : q0.toNat < 2^16 := by
    rw [hq0]
    exact digit_lt hr1lt (by omega)
  have hN : n1.toNat*2^32+n0.toNat =
      (n1.toNat*2^16+(llHighpart n0).toNat)*2^16+(llLowpart n0).toNat := by omega
  rw [hN]
  constructor
  · rw [div_append_digit (by omega),← hr1,← hq1,← hq0,or_toNat hlt1 hlt0]
  · rw [mod_append_digit,← hr1,hr0]

end Words

section Corrections

variable {n digit d q r m : SI}

/-- How often the corrections take 1 off the quotient. -/
def corrections (r m d : SI) : ℕ :=
  if r < m then
    if r+d ≥ d then
      if r+d < m then 2 else 1
    else 1
  else 0

theorem corrections_le (r m d : SI) : corrections r m d ≤ 2 := by
  unfold corrections
  split_ifs <;> simp

theorem udivQrnndCorrect_eq (q r m d : SI) : udivQrnndCorrect q r m d =
    (q-BitVec.ofNat 32 (corrections r m d),r+BitVec.ofNat 32 (corrections r m d)*d) := by
  simp only [udivQrnndCorrect,corrections]
  split_ifs
  · have htwice : r+d+d = r+2#32*d := by bv_omega
    have hone : q-1#32-1#32 = q-2#32 := by bv_omega
    simp [htwice,hone]
  · simp
  · simp
  · simp

/-- The sum is below one of its summands when it has lost its carry. -/
theorem no_carry_iff (r d : SI) : r+d ≥ d ↔ r.toNat+d.toNat < 2^32 := by
  bv_omega

/-- A digit of the division, with the words on the way to it. -/
structure DigitSteps (n digit d q r : SI) : Prop where
  product_exact : (product n d).toNat = (estimate n d).toNat*(llLowpart d).toNat
  rest_exact : (rest n digit d).toNat = n.toNat%(llHighpart d).toNat*2^16+digit.toNat
  /-- What the estimate stands for. -/
  estimated : n.toNat*2^16+digit.toNat+(product n d).toNat =
    (estimate n d).toNat*d.toNat+(rest n digit d).toNat
  twice : corrections (rest n digit d) (product n d) d ≤ 2
  /-- The comparison is for the carry that is lost. -/
  carry : rest n digit d+d ≥ d ↔ (rest n digit d).toNat+d.toNat < 2^32
  /-- No correction is one too many. -/
  needed : ∀ k < corrections (rest n digit d) (product n d) d,
    (rest n digit d).toNat+k*d.toNat < (product n d).toNat
  quotient : q.toNat+corrections (rest n digit d) (product n d) d = (estimate n d).toNat
  remainder : r.toNat+(product n d).toNat =
    (rest n digit d).toNat+corrections (rest n digit d) (product n d) d*d.toNat
  quotient_lt : q.toNat < 2^16
  remainder_lt : r.toNat < d.toNat

theorem digitSteps (hd : 2^31 ≤ d.toNat) (hn : n.toNat < d.toNat) (hdigit : digit.toNat < 2^16) :
    ∃ q r : SI, udivQrnndDigit n digit d = some (q,r) ∧ DigitSteps n digit d q r ∧
      q.toNat = (n.toNat*2^16+digit.toNat)/d.toNat ∧
      r.toNat = (n.toNat*2^16+digit.toNat)%d.toNat := by
  obtain ⟨q,r,hrun,hq,hr⟩ := udivQrnndDigit_eq hd hn hdigit
  refine ⟨q,r,hrun,?_,hq,hr⟩
  obtain ⟨hsplit,hhigh,-,-⟩ := normalized_split hd
  have hsum := estimated hd hn hdigit
  have hrest := @rest_lt (2^16) (llHighpart d).toNat n.toNat digit.toNat (by omega) hdigit
  rw [← rest_toNat hd hdigit] at hrest
  have htwice := corrections_le (rest n digit d) (product n d) d
  rw [udivQrnndDigit_run hd,udivQrnndCorrect_eq,Option.some.injEq,Prod.mk.injEq] at hrun
  have hword := congrArg BitVec.toNat hrun.1
  have hdivision := Nat.div_add_mod (n.toNat*2^16+digit.toNat) d.toNat
  rw [← hq,← hr] at hdivision
  have hrlt : r.toNat < d.toNat := by
    rw [hr]
    exact Nat.mod_lt _ (by omega)
  have hqle : q.toNat ≤ (estimate n d).toNat := by
    by_contra hlt
    have hstep : d.toNat*((estimate n d).toNat+1) ≤ d.toNat*q.toNat := Nat.mul_le_mul_left _ (by omega)
    rw [Nat.mul_add_one,Nat.mul_comm d.toNat] at hstep
    omega
  have hquotient : q.toNat+corrections (rest n digit d) (product n d) d = (estimate n d).toNat := by
    rw [BitVec.toNat_sub,BitVec.toNat_ofNat] at hword
    omega
  have hremainder : r.toNat+(product n d).toNat =
      (rest n digit d).toNat+corrections (rest n digit d) (product n d) d*d.toNat := by
    rw [← hquotient,Nat.add_mul,Nat.mul_comm q.toNat] at hsum
    omega
  refine ⟨product_toNat hd hn,rest_toNat hd hdigit,hsum,htwice,no_carry_iff _ _,?_,hquotient,
    hremainder,?_,hrlt⟩
  · intro j hj
    have hstep : (j+1)*d.toNat ≤ corrections (rest n digit d) (product n d) d*d.toNat :=
      Nat.mul_le_mul_right _ hj
    rw [Nat.add_one_mul] at hstep
    omega
  · rw [hq]
    exact digit_lt hn hdigit

end Corrections

section Normalize

/-- The table gives the number of significant bits of every byte. -/
theorem clzTab_getElem : ∀ i < 256, 0 < i → ∃ t ∈ clzTab[i]?,
    1 ≤ t ∧ t ≤ 8 ∧ 2^(t-1) ≤ i ∧ i < 2^t := by
  have hentries : ∀ p ∈ clzTab.zipIdx, 0 < p.2 →
      1 ≤ p.1 ∧ p.1 ≤ 8 ∧ 2^(p.1-1) ≤ p.2 ∧ p.2 < 2^p.1 := by decide +kernel
  intro i hi hpos
  have hlt : i < clzTab.length := hi.trans_eq (by decide +kernel)
  have hentry : clzTab[i]? = some clzTab[i] := List.getElem?_eq_getElem hlt
  exact ⟨clzTab[i],hentry,hentries (clzTab[i],i) (List.mk_mem_zipIdx_iff_getElem?.mpr hentry) hpos⟩

/-- The shift of a non-zero word that brings its highest bit to the top. -/
theorem countLeadingZeros_eq {x : SI} (hx : x ≠ 0) :
    ∃ bm : SI, countLeadingZeros x = some bm ∧ bm.toNat < 32 ∧
      2^31 ≤ x.toNat*2^bm.toNat ∧ x.toNat*2^bm.toNat < 2^32 := by
  have hpos := pos_of_ne_zero hx
  have hlt := x.isLt
  -- the byte that is looked up is the highest one that is not zero
  have hbyte : ∀ a : SI, a.toNat ≤ 24 → 0 < x.toNat/2^a.toNat → x.toNat/2^a.toNat < 256 →
      ∃ bm : SI, (do
        let i ← lshr x a.toNat
        let t ← clzTab[i.toNat]?
        return 32-(BitVec.ofNat 32 t+a) : Option SI) = some bm ∧ bm.toNat < 32 ∧
        2^31 ≤ x.toNat*2^bm.toNat ∧ x.toNat*2^bm.toNat < 2^32 := by
    intro a ha hi hi'
    obtain ⟨t,ht,ht1,ht8,hlow,hhigh⟩ := clzTab_getElem _ hi' hi
    refine ⟨32-(BitVec.ofNat 32 t+a),?_,?_⟩
    · rw [lshr_eq (by omega)]
      simp only [Option.bind_eq_bind,Option.bind_some,BitVec.toNat_ushiftRight,
        Nat.shiftRight_eq_div_pow,Option.mem_def.mp ht]
      rfl
    have hbm : (32-(BitVec.ofNat 32 t+a) : SI).toNat = 32-(t+a.toNat) := by bv_omega
    rw [hbm]
    refine ⟨by omega,?_,?_⟩
    · have hx : 2^(t-1)*2^a.toNat ≤ x.toNat :=
        (Nat.mul_le_mul_right _ hlow).trans (Nat.div_mul_le_self ..)
      calc 2^31 = 2^(t-1)*2^a.toNat*2^(32-(t+a.toNat)) := by
            rw [← pow_add,← pow_add]
            congr 1
            omega
        _ ≤ x.toNat*2^(32-(t+a.toNat)) := Nat.mul_le_mul_right _ hx
    · have hx : x.toNat < 2^t*2^a.toNat := by
        rwa [Nat.div_lt_iff_lt_mul (by positivity)] at hhigh
      calc x.toNat*2^(32-(t+a.toNat))
          < 2^t*2^a.toNat*2^(32-(t+a.toNat)) :=
            Nat.mul_lt_mul_of_pos_right hx (by positivity)
        _ = 2^32 := by
            rw [← pow_add,← pow_add]
            congr 1
            omega
  simp only [countLeadingZeros,BitVec.lt_def]
  have h8 : ((1 : SI) <<< 8).toNat = 2^8 := rfl
  have h16 : ((1 : SI) <<< 16).toNat = 2^16 := rfl
  have h24 : ((1 : SI) <<< 24).toNat = 2^24 := rfl
  rw [h8,h16,h24]
  split_ifs with ha hb hc
  · exact hbyte 0 (by decide) (by simpa using hpos) (by simpa using hb)
  · exact hbyte 8 (by decide) (by simp; omega) (by simp; omega)
  · exact hbyte 16 (by decide) (by simp; omega) (by simp; omega)
  · exact hbyte 24 (by decide) (by simp; omega) (by simp; omega)

/-- Where the highest bit of a word is. -/
theorem highest_bit {x : SI} {c : ℕ} (hc : c < 32) (hlow : 2^31 ≤ x.toNat*2^c)
    (hhigh : x.toNat*2^c < 2^32) :
    x.getMsbD c = true ∧ ∀ i < c, x.getMsbD i = false := by
  have hle : 2^(31-c) ≤ x.toNat := by
    refine Nat.le_of_mul_le_mul_right ?_ (Nat.two_pow_pos c)
    rwa [← pow_add,Nat.sub_add_cancel (by omega)]
  have hlt : x.toNat < 2^(31-c+1) := by
    refine Nat.lt_of_mul_lt_mul_right (a := 2^c) ?_
    rwa [← pow_add,show 31-c+1+c = 32 by omega]
  constructor
  · have hbit : x.getLsbD (31-c) = true := Nat.testBit_of_two_pow_le_and_two_pow_add_one_gt hle hlt
    simpa [BitVec.getMsbD,hc] using hbit
  · intro i hi
    have hbit : x.getLsbD (31-i) = false :=
      Nat.testBit_lt_two_pow (hlt.trans_le (Nat.pow_le_pow_right Nat.two_pos (by omega)))
    simpa [BitVec.getMsbD,show i < 32 by omega] using hbit

end Normalize

section Step

/-- The division step: quotient and remainder of the double word, with its two digits and all that is
computed for them; the product of two words, and the count of leading zeros. -/
theorem double_word_step :
    (∀ n1 n0 d : SI, 2^31 ≤ d.toNat → n1.toNat < d.toNat → ∃ q1 r1 q0 r0 : SI,
      udivQrnndDigit n1 (llHighpart n0) d = some (q1,r1) ∧ DigitSteps n1 (llHighpart n0) d q1 r1 ∧
      udivQrnndDigit r1 (llLowpart n0) d = some (q0,r0) ∧ DigitSteps r1 (llLowpart n0) d q0 r0 ∧
      ∃ q : SI, udivQrnnd n1 n0 d = some (q,r0) ∧
        n1.toNat*2^32+n0.toNat = q.toNat*d.toNat+r0.toNat ∧ r0.toNat < d.toNat) ∧
    (∀ u v : SI, (umulPpmm u v).1.toNat*2^32+(umulPpmm u v).2.toNat = u.toNat*v.toNat) ∧
    ∀ x : SI, x ≠ 0 → ∃ count : SI, countLeadingZeros x = some count ∧ count.toNat < 32 ∧
      x.getMsbD count.toNat = true ∧ ∀ i < count.toNat, x.getMsbD i = false := by
  refine ⟨fun n1 n0 d hd hn => ?_,umulPpmm_toNat,fun x hx => ?_⟩
  · have hh := highpart_toNat n0
    have hl := lowpart_toNat n0
    have hn0 := n0.isLt
    obtain ⟨q1,r1,he1,hs1,-,-⟩ := digitSteps hd hn (show (llHighpart n0).toNat < 2^16 by omega)
    obtain ⟨q0,r0,he0,hs0,-,-⟩ :=
      digitSteps hd hs1.remainder_lt (show (llLowpart n0).toNat < 2^16 by omega)
    obtain ⟨q,r,hrun,hq,hr⟩ : ∃ q r : SI, udivQrnnd n1 n0 d = some (q,r) ∧
      q.toNat = (n1.toNat*2^32+n0.toNat)/d.toNat ∧
      r.toNat = (n1.toNat*2^32+n0.toNat)%d.toNat := udivQrnnd_eq hd hn
    have hsame : r = r0 := by
      simp only [udivQrnnd,he1,he0,Option.bind_eq_bind,Option.bind_some,Option.pure_def,
        Option.some.injEq,Prod.mk.injEq] at hrun
      exact hrun.2.symm
    subst hsame
    refine ⟨q1,r1,q0,r,he1,hs1,he0,hs0,q,hrun,?_,hs0.remainder_lt⟩
    rw [hq,hr,Nat.mul_comm (_/_)]
    exact (Nat.div_add_mod ..).symm
  · obtain ⟨count,hcount,hlt,hlow,hhigh⟩ := countLeadingZeros_eq hx
    exact ⟨count,hcount,hlt,highest_bit hlt hlow hhigh⟩

/-- A dividend whose first digit takes both corrections. -/
theorem double_word_step_twice :
    (∃ q1 r1 : SI, udivQrnndDigit 0x8000FFFE 0 0x8000FFFF = some (q1,r1) ∧
      q1.toNat+2 = (estimate 0x8000FFFE 0x8000FFFF).toNat) ∧
    ∃ count : SI, countLeadingZeros 0x8000 = some count ∧ (0x8000 : SI).getMsbD count.toNat = true := by
  obtain ⟨hdivide,-,hcount⟩ := double_word_step
  obtain ⟨q1,r1,-,-,hrun,hsteps,-⟩ := hdivide 0x8000FFFE 0 0x8000FFFF (by decide) (by decide)
  obtain ⟨count,hrun',-,hbit,-⟩ := hcount 0x8000 (by decide)
  have htwice : corrections (rest 0x8000FFFE 0 0x8000FFFF) (product 0x8000FFFE 0x8000FFFF)
    0x8000FFFF = 2 := by decide
  have hquotient := hsteps.quotient
  rw [show llHighpart 0 = 0 from rfl] at hrun hquotient
  rw [htwice] at hquotient
  exact ⟨⟨q1,r1,hrun,hquotient⟩,count,hrun',hbit⟩

end Step

end LibGcc
end AgbTools
