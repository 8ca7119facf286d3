import AgbTools.SoftFloatPack

/-! Sums and differences are rounded correctly: the sticky bit that is left of an aligned fraction
tells enough of it, also after the sum is renormalized, and a fraction that is dropped altogether
would not have changed the result. -/
namespace AgbTools
namespace SoftFloat

open Nearest

section Sticky

variable {F : Format}

theorem jam_bounds {f : ℕ} (hlow : 2^(F.point+1) ≤ f) (hhigh : f < 2^(F.point+2)) :
    2^F.point ≤ jam f ∧ jam f < 2^(F.point+1) := by
  have hpos : F.point = F.point-1+1 := by cases F <;> rfl
  have h₀ := pow_succ' 2 (F.point-1)
  rw [← hpos] at h₀
  have h₁ : 2^(F.point+1) = 2*2^F.point := pow_succ' 2 _
  have h₂ : 2^(F.point+2) = 2*2^(F.point+1) := pow_succ' 2 _
  have hle := (jam_lt_iff (f := f) (2^(F.point-1) : ℕ)).not
  have hlt := jam_lt_iff (f := f) (2^F.point : ℕ)
  push_cast at hle hlt
  have hcast : ((2^(F.point-1) : ℕ) : ℤ) = 2^(F.point-1) := by push_cast; rfl
  have hcast' : ((2^F.point : ℕ) : ℤ) = 2^F.point := by push_cast; rfl
  omega

/-- A sum that may have outgrown its place. -/
theorem rounded_shiftDown {f : ℕ} {e : ℤ} {x y : ℚ} {sign : Bool} (hlow : 2^F.point ≤ f)
    (hhigh : f < 2^(F.point+2)) (h : Alike (2^(F.ngards-1)) f y) (hx : |x| = y*2^(e-F.point))
    (hsign : sign = decide (x < 0)) (hmin : minNormal F ≤ |x|) :
    Rounded F x (decode F (packD F (shiftDown F sign f e))) := by
  rw [shiftDown,implicit2_eq]
  by_cases hcarry : 2^(F.point+1) ≤ f
  · rw [if_pos hcarry]
    have hdown : Alike (2^(F.ngards-1)) (jam f : ℕ) (y/2) := by
      apply Alike.jam
      · have := ngards_ge F
        exact (Nat.even_pow.mpr ⟨even_two,by omega⟩)
      · exact h.coarse (Nat.dvd_mul_left ..)
    obtain ⟨hjl,hjh⟩ := jam_bounds hcarry hhigh
    apply rounded_inPlace hjl hjh hdown _ hsign hmin
    rw [hx,show e+1-(F.point : ℤ) = (e-F.point)+1 by ring,zpow_add_one₀ two_ne_zero]
    ring
  · rw [if_neg hcarry]
    exact rounded_inPlace hlow (by omega) h hx hsign hmin

theorem addLoop_eq (n : ℕ) : ∀ {f : ℕ} {e : ℤ}, f ≠ 0 → addLoop F n f e = unpackLoop F n f e := by
  induction n with
  | zero =>
    intro f e _
    rfl
  | succ n ih =>
    intro f e hf
    rw [addLoop,unpackLoop]
    by_cases hlt : f < F.implicit1
    · have hshift : F.trunc (f <<< 1) = f*2 := by
        rw [implicit1_eq] at hlt
        have h₁ : 2^(F.point+1) = 2*2^F.point := pow_succ' 2 _
        have h₂ : 2^(F.point+2) = 2*2^(F.point+1) := pow_succ' 2 _
        rw [Nat.shiftLeft_eq,pow_one,trunc_eq (by omega)]
      rw [if_pos ⟨hlt,hf⟩,if_pos hlt,ih]
      rw [hshift]
      omega
    · rw [if_neg (fun h => hlt h.1),if_neg hlt]

/-- A difference that is exact, or that has a sticky bit and lost at most its leading bit. -/
theorem rounded_renormalized {f : ℕ} {e : ℤ} {x y : ℚ} {sign : Bool} (hf : f ≠ 0)
    (hhigh : f < 2^(F.point+1)) (h : y = f ∨ Alike 2 f y ∧ 2^F.point ≤ f*2)
    (hx : |x| = y*2^(e-F.point)) (hsign : sign = decide (x < 0)) (hmin : minNormal F ≤ |x|) :
    Rounded F x (decode F (packD F
      (shiftDown F sign (addLoop F F.fracNBits f e).1 (addLoop F F.fracNBits f e).2))) := by
  have hfuel : 2^F.point ≤ f*2^F.fracNBits := by
    have hle : 2^F.point ≤ 2^F.fracNBits :=
      Nat.pow_le_pow_right two_pos ((Nat.le_add_right _ 2).trans (point_lt F))
    exact hle.trans (Nat.le_mul_of_pos_left _ (Nat.pos_of_ne_zero hf))
  obtain ⟨k,hk,hkl,hkh,-⟩ := unpackLoop_spec F.fracNBits (e := e) hhigh hfuel
  have hpow : 2^(F.point+2) = 2*2^(F.point+1) := pow_succ' 2 _
  rw [addLoop_eq _ hf,hk]
  have halike : Alike (2^(F.ngards-1)) (f*2^k : ℕ) (2^k*y) := by
    rcases h with rfl | ⟨h,hlow⟩
    · have := alike_self (K := ℚ) (2^(F.ngards-1)) (f*2^k : ℕ)
      convert this using 1
      push_cast
      ring
    · have hk1 : k ≤ 1 := by
        by_contra hk2
        have hfour : 2^2 ≤ 2^k := Nat.pow_le_pow_right two_pos (by omega)
        have := Nat.mul_le_mul_left f hfour
        have hp : 2^(F.point+1) = 2*2^F.point := pow_succ' 2 _
        omega
      have hdvd : 2^k*2 ∣ 2^(F.ngards-1) := by
        rw [← pow_succ]
        apply Nat.pow_dvd_pow
        have := ngards_ge F
        omega
      have := (h.double_iterate k).coarse hdvd
      convert this using 1
      push_cast
      ring
  apply rounded_shiftDown hkl (by omega) halike _ hsign hmin
  have hscale : (2 : ℚ)^(e-F.point) = 2^k*2^(e-k-F.point) := by
    rw [pow_mul_zpow]
    congr 1
    ring
  rw [hx,hscale]
  ring

theorem signed_sub {f g : ℕ} (hf : f < 2^(F.point+1)) (hg : g < 2^(F.point+1)) :
    F.signed (2^F.fracNBits-f+g) = (g : ℤ)-f := by
  have htop : 2^F.fracNBits = 2*2^(F.fracNBits-1) := by cases F <;> rfl
  have hroom : 2^(F.point+1) ≤ 2^(F.fracNBits-1) := by
    apply Nat.pow_le_pow_right two_pos
    have := point_lt F
    omega
  have hcast : ((2^F.fracNBits : ℕ) : ℤ) = 2^F.fracNBits := by push_cast; rfl
  rw [Format.signed,Format.trunc]
  rcases Nat.lt_or_ge g f with hlt | hge
  · rw [Nat.mod_eq_of_lt (by omega),if_neg (by omega)]
    omega
  · rw [show 2^F.fracNBits-f+g = g-f+2^F.fracNBits by omega,Nat.add_mod_right,
      Nat.mod_eq_of_lt (by omega),if_pos (by omega)]
    omega

/-- The difference of two fractions by sign and magnitude. -/
theorem subFractions_spec {f g : ℕ} (hf : f < 2^(F.point+1)) (hg : g < 2^(F.point+1)) (s : Bool)
    (e : ℤ) : subFractions F s e f g =
      if f = g then (false,addLoop F F.fracNBits 0 e)
      else if g < f then (s,addLoop F F.fracNBits (f-g) e)
      else (!s,addLoop F F.fracNBits (g-f) e) := by
  have hpow : 2^(F.point+2) = 2*2^(F.point+1) := pow_succ' 2 _
  rw [subFractions,signed_sub hf hg,Nat.add_comm f,signed_sub hg hf]
  rcases Nat.lt_trichotomy f g with hlt | rfl | hgt
  · rw [if_neg hlt.ne,if_neg (show ¬g < f by omega)]
    have hleft : F.trunc ((g : ℤ)-f).toNat = g-f := by
      rw [trunc_eq (by omega)]
      omega
    have hright : F.trunc (-((f : ℤ)-g)).toNat = g-f := by
      rw [trunc_eq (by omega)]
      omega
    cases s with
    | false => simp only [Bool.false_eq_true,if_false,Bool.not_false]; rw [if_neg (by omega),hright]
    | true => simp only [if_true,Bool.not_true]; rw [if_pos (by omega),hleft]
  · have hzero : F.trunc 0 = 0 := trunc_eq (Nat.two_pow_pos _)
    simp only [sub_self,ite_self,if_true,le_refl,Int.toNat_zero,hzero]
  · rw [if_neg hgt.ne',if_pos hgt]
    have hleft : F.trunc (-((g : ℤ)-f)).toNat = f-g := by
      rw [trunc_eq (by omega)]
      omega
    have hright : F.trunc ((f : ℤ)-g).toNat = f-g := by
      rw [trunc_eq (by omega)]
      omega
    cases s with
    | false => simp only [Bool.false_eq_true,if_false]; rw [if_pos (by omega),hright]
    | true => simp only [if_true]; rw [if_neg (by omega),hleft]

end Sticky

section Aligned

variable {F : Format} {f g n : ℕ} {e : ℤ} {x : ℚ} {sign : Bool}

/-- What is left of a fraction that is shifted by at least one bit is below the leading one. -/
theorem jam_iterate_lt (hg : g < 2^(F.point+1)) {k : ℕ} (hk : k+1 < F.point) (hn : k+1 ≤ n) :
    jam^[n] g < 2^(F.point-k) := by
  have halike := alike_jam_iterate (K := ℚ) g n
  have hdvd : 2 ∣ 2^(F.point-k) := dvd_pow_self 2 (by omega)
  have hlt : (g : ℚ)/2^n < ((2^(F.point-k) : ℕ) : ℚ) := by
    rw [div_lt_iff₀ (pow_pos two_pos n)]
    have hle : 2^(F.point+1) ≤ 2^(F.point-k)*2^n := by
      rw [← pow_add]
      exact Nat.pow_le_pow_right two_pos (by omega)
    exact_mod_cast hg.trans_le hle
  exact_mod_cast (halike.lt_iff hdvd).mpr hlt

theorem two_dvd_of_guards (hf : 2^F.ngards ∣ f) : ((2 : ℕ) : ℤ) ∣ f := by
  have htwo : 2 ∣ 2^F.ngards := dvd_pow_self 2 (by have := ngards_ge F; omega)
  exact_mod_cast htwo.trans hf

theorem two_dvd_half : 2 ∣ 2^(F.ngards-1) := dvd_pow_self 2 (by have := ngards_ge F; omega)

theorem two_lt_point : 2 < F.point := by cases F <;> decide

/-- The sum of a fraction and of what is left of a shifted one. -/
theorem rounded_sum (hf : 2^F.point ≤ f) (hf' : f < 2^(F.point+1)) (hfg : 2^F.ngards ∣ f)
    (hg' : g < 2^(F.point+1)) (hx : |x| = (f+g/2^n)*2^(e-F.point)) (hsign : sign = decide (x < 0))
    (hmin : minNormal F ≤ |x|) :
    Rounded F x (decode F (packD F (shiftDown F sign (f+jam^[n] g) e))) := by
  have hp : 2^(F.point+1) = 2*2^F.point := pow_succ' 2 _
  have hp' : 2^(F.point+2) = 2*2^(F.point+1) := pow_succ' 2 _
  have hsmall : jam^[n] g < 2^(F.point+1) := by
    cases n with
    | zero => exact hg'
    | succ n =>
      have := jam_iterate_lt hg' (Nat.lt_of_succ_lt two_lt_point) (Nat.le_add_left 1 n)
      rw [Nat.sub_zero] at this
      omega
  have halike := Alike.add (two_dvd_of_guards hfg) (alike_jam_iterate (K := ℚ) g n)
  apply rounded_shiftDown (Nat.le_add_right_of_le hf) (by omega) _ hx hsign hmin
  exact_mod_cast halike.coarse two_dvd_half

/-- The difference of a fraction and of what is left of a shifted one: after a short shift nothing is
lost, and after a long one at most the leading bit cancels. -/
theorem rounded_difference (hf : 2^F.point ≤ f) (hf' : f < 2^(F.point+1)) (hfg : 2^F.ngards ∣ f)
    (hg' : g < 2^(F.point+1)) (hgg : 2^F.ngards ∣ g) (hn : 1 ≤ n)
    (hx : |x| = (f-g/2^n)*2^(e-F.point)) (hsign : sign = decide (x < 0))
    (hmin : minNormal F ≤ |x|) :
    jam^[n] g < f ∧ Rounded F x (decode F (packD F (shiftDown F sign
      (addLoop F F.fracNBits (f-jam^[n] g) e).1 (addLoop F F.fracNBits (f-jam^[n] g) e).2))) := by
  have hlt := jam_iterate_lt hg' (Nat.lt_of_succ_lt two_lt_point) hn
  rw [Nat.sub_zero] at hlt
  refine ⟨by omega,?_⟩
  apply rounded_renormalized (by omega) (by omega) _ hx hsign hmin
  rcases Nat.lt_or_ge F.ngards n with hlong | hshort
  · right
    have halike := Alike.sub (two_dvd_of_guards hfg) (alike_jam_iterate (K := ℚ) g n)
    have hp : 2^F.point = 2*2^(F.point-1) := by
      rw [← pow_succ']
      congr 1
      have := two_lt_point (F := F)
      omega
    have hfar : 1+1 ≤ n := by
      have := ngards_ge F
      omega
    have hlt' := jam_iterate_lt hg' two_lt_point hfar
    refine ⟨?_,by omega⟩
    rw [Nat.cast_sub (by omega)]
    exact_mod_cast halike
  · left
    obtain ⟨r,rfl⟩ := (Nat.pow_dvd_pow 2 hshort).trans hgg
    rw [jam_iterate_mul] at hlt ⊢
    rw [Nat.cast_sub (by omega)]
    push_cast
    rw [mul_div_cancel_left₀ _ (pow_ne_zero n two_ne_zero)]

theorem jam_iterate_far (hg : 0 < g) (hg' : g < 2^(F.point+1)) (hn : F.point+1 ≤ n) :
    jam^[n] g = 1 := by
  have halike := alike_jam_iterate (K := ℚ) g n
  have hpos : (0 : ℚ) < 2^n := pow_pos two_pos n
  have hlow := (halike 0).2.mpr (by
    rw [Int.cast_zero,zero_mul]
    exact div_pos (by exact_mod_cast hg) hpos)
  have hhigh := (halike.lt_iff (dvd_refl 2)).mpr (by
    rw [div_lt_iff₀ hpos]
    have hle : 2^(F.point+1) ≤ 2^n := Nat.pow_le_pow_right two_pos hn
    have : g < 2*2^n := by omega
    exact_mod_cast this)
  push_cast at hlow hhigh
  omega

theorem decode_shiftDown (hlow : 2^F.point ≤ f) (hhigh : f < 2^(F.point+1)) {c m : ℕ}
    (hexp : e = c+F.normalExpMin) (hm : m = c*2^F.fracBits+halfEven (2^(F.ngards-1)) f) :
    decode F (packD F (shiftDown F sign f e)) =
      if m < F.infinity then .finite sign m else .inf sign := by
  rw [shiftDown,implicit2_eq,if_neg (by omega)]
  exact decode_packD_normal rfl hlow hhigh.le hexp hm

theorem eight_le_half : 8 ≤ 2^(F.ngards-1) := by cases F <;> decide

/-- A fraction that was dropped from a sum would only have been a sticky bit that rounding drops. -/
theorem dropped_sum (hlow : 2^F.point ≤ f) (hhigh : f < 2^(F.point+1)) (hfg : 2^F.ngards ∣ f)
    {c : ℕ} (hexp : e = c+F.normalExpMin) :
    decode F (packD F (shiftDown F sign f e)) = decode F (packD F (shiftDown F sign (f+1) e)) := by
  have hhalf := eight_le_half (F := F)
  have hroom : f+1 < 2^(F.point+1) := by
    have hp : 2^(F.point+1) = 2*2^F.point := pow_succ' 2 _
    have htwo := two_dvd_of_guards hfg
    omega
  obtain ⟨q,rfl⟩ := hfg
  have heq : halfEven (2^(F.ngards-1)) (2^F.ngards*q+1) = halfEven (2^(F.ngards-1)) (2^F.ngards*q) := by
    rw [← two_half,halfEven_below (by omega),halfEven_mul (by omega)]
  rw [decode_shiftDown hlow hhigh hexp rfl,decode_shiftDown (by omega) hroom hexp rfl,heq]

theorem addLoop_inPlace (n : ℕ) (hlow : 2^F.point ≤ f) : addLoop F n f e = (f,e) := by
  cases n with
  | zero => rfl
  | succ n =>
    rw [addLoop,implicit1_eq,if_neg]
    omega

theorem addLoop_once (n : ℕ) (hlow : f < 2^F.point) (hf : 2^F.point ≤ f*2) :
    addLoop F (n+1) f e = (f*2,e-1) := by
  have hp : 2^(F.point+1) = 2*2^F.point := pow_succ' 2 _
  have hp' : 2^(F.point+2) = 2*2^(F.point+1) := pow_succ' 2 _
  have hpos := Nat.two_pow_pos F.point
  rw [addLoop,implicit1_eq,if_pos ⟨hlow,by omega⟩,Nat.shiftLeft_eq,pow_one,trunc_eq (by omega),
    addLoop_inPlace n hf]

theorem dropped_difference (hlow : 2^F.point ≤ f) (hhigh : f < 2^(F.point+1))
    (hfg : 2^F.ngards ∣ f) {c : ℕ} (hexp : e = c+F.normalExpMin)
    (hc : f = 2^F.point → c ≠ 0) : decode F (packD F (shiftDown F sign f e)) =
      decode F (packD F (shiftDown F sign (addLoop F F.fracNBits (f-1) e).1
        (addLoop F F.fracNBits (f-1) e).2)) := by
  have hhalf := eight_le_half (F := F)
  have hpos := Nat.two_pow_pos F.point
  rcases Nat.lt_or_eq_of_le hlow with hlt | heq
  · rw [addLoop_inPlace _ (by omega),decode_shiftDown hlow hhigh hexp rfl,
      decode_shiftDown (by omega) (by omega) hexp rfl]
    obtain ⟨q,rfl⟩ := hfg
    obtain ⟨q,rfl⟩ := Nat.exists_eq_succ_of_ne_zero (show q ≠ 0 by rintro rfl; omega)
    have hpred : 2^F.ngards*q.succ-1 = 2*2^(F.ngards-1)*q+(2*2^(F.ngards-1)-1) := by
      rw [← two_half,Nat.mul_succ]
      omega
    have hsame : halfEven (2^(F.ngards-1)) (2^F.ngards*q.succ) = q.succ := by
      rw [← two_half,halfEven_mul (by omega)]
    rw [hpred,halfEven_above (by omega) (by omega),hsame]
  · -- one below a power of two: the fraction moves up and rounds back
    obtain ⟨d,rfl⟩ := Nat.exists_eq_succ_of_ne_zero (hc heq.symm)
    have hp : 2^(F.point+1) = 2*2^F.point := pow_succ' 2 _
    have hpt := pow_point F
    have hexp' : e-1 = d+F.normalExpMin := by
      rw [hexp]
      push_cast
      ring
    have hfuel : F.fracNBits = F.fracNBits-1+1 := by cases F <;> rfl
    have height : 8 ≤ 2^F.point := by cases F <;> decide
    rw [hfuel,addLoop_once _ (by omega) (by omega),decode_shiftDown hlow hhigh hexp rfl,
      decode_shiftDown (by omega) (by omega) hexp' rfl]
    have hsame : halfEven (2^(F.ngards-1)) f = 2^F.fracBits := by
      rw [← heq,hpt,Nat.mul_comm,← two_half,halfEven_mul (by omega)]
    have hpred : (f-1)*2 = 2*2^(F.ngards-1)*(2*2^F.fracBits-1)+(2*2^(F.ngards-1)-2) := by
      have hsucc : 2*2^(F.ngards-1)*(2*2^F.fracBits-1)+2*2^(F.ngards-1) =
          2*(2^F.fracBits*(2*2^(F.ngards-1))) := by
        rw [← Nat.mul_succ,Nat.succ_eq_add_one,Nat.sub_add_cancel (by have := Nat.two_pow_pos F.fracBits; omega)]
        ring
      rw [two_half] at hsucc ⊢
      rw [← heq,hpt]
      have := two_half F
      omega
    have hup : halfEven (2^(F.ngards-1)) ((f-1)*2) = 2*2^F.fracBits-1+1 := by
      rw [hpred]
      exact halfEven_above (by omega) (by omega)
    have hfrac := Nat.two_pow_pos F.fracBits
    rw [hsame,hup,Nat.succ_mul]
    congr 2 <;> omega

end Aligned

section Numbers

variable {F : Format} {a b : FpNumber} {m k : ℕ}

theorem alignParts_comm (a b : FpNumber) : alignParts F b a =
    ((alignParts F a b).1,(alignParts F a b).2.2,(alignParts F a b).2.1) := by
  have habs : (b.normalExp-a.normalExp).natAbs = (a.normalExp-b.normalExp).natAbs := by omega
  have hwidth : 0 < F.fracNBits := by cases F <;> decide
  unfold alignParts
  rw [habs]
  split
  · rw [max_comm]
  · rcases lt_trichotomy a.normalExp b.normalExp with hlt | heq | hgt
    · rw [if_pos hlt,if_neg hlt.not_gt]
    · omega
    · rw [if_pos hgt,if_neg hgt.not_gt]

theorem jam_le (f : ℕ) : jam f ≤ f := by
  rcases Nat.mod_two_eq_zero_or_one f with hf | hf
  · rw [jam_even hf]
    omega
  · rw [jam_odd hf]
    omega

theorem jam_iterate_le (f n : ℕ) : jam^[n] f ≤ f := by
  induction n with
  | zero => exact Nat.le_refl f
  | succ n ih =>
    rw [Function.iterate_succ_apply']
    exact (jam_le _).trans ih

theorem alignParts_le (a b : FpNumber) : (alignParts F a b).2.1 ≤ a.fraction ∧
    (alignParts F a b).2.2 ≤ b.fraction := by
  unfold alignParts
  split
  · exact ⟨jam_iterate_le _ _,jam_iterate_le _ _⟩
  · split
    · exact ⟨Nat.le_refl _,Nat.zero_le _⟩
    · exact ⟨Nat.zero_le _,Nat.le_refl _⟩

/-- The order of two numbers does not matter to their sum. -/
theorem addNumbers_comm (ha : a.fraction < 2^(F.point+1)) (hb : b.fraction < 2^(F.point+1)) :
    addNumbers F a b = addNumbers F b a := by
  obtain ⟨hle,hle'⟩ := alignParts_le (F := F) a b
  unfold addNumbers
  rw [alignParts_comm a b]
  generalize alignParts F a b = p at hle hle'
  obtain ⟨e,f,g⟩ := p
  simp only at hle hle' ⊢
  by_cases hsign : a.sign = b.sign
  · rw [if_neg (not_not.mpr hsign),if_neg (not_not.mpr hsign.symm),hsign,Nat.add_comm]
  · rw [if_pos hsign,if_pos (Ne.symm hsign),subFractions_spec (by omega) (by omega),
      subFractions_spec (by omega) (by omega)]
    have hnot : b.sign = !a.sign := by
      cases ha : a.sign <;> cases hb : b.sign <;> simp_all
    rcases Nat.lt_trichotomy f g with hlt | rfl | hgt
    · rw [if_neg hlt.ne,if_neg hlt.not_gt,if_neg hlt.ne',if_pos hlt,hnot]
    · rw [if_pos rfl,if_pos rfl]
    · rw [if_neg hgt.ne',if_pos hgt,if_neg hgt.ne,if_neg hgt.not_gt,hnot,Bool.not_not]

/-- The aligned fractions when the exponent of the first is not smaller. -/
theorem alignParts_of_le (hle : b.normalExp ≤ a.normalExp) {n : ℕ}
    (hn : a.normalExp-b.normalExp = n) : alignParts F a b =
      (a.normalExp,a.fraction,if n < F.fracNBits then jam^[n] b.fraction else 0) := by
  have hwidth : 0 < F.fracNBits := by cases F <;> decide
  unfold alignParts
  rw [hn,Int.natAbs_natCast,max_eq_left hle,show (b.normalExp-a.normalExp).toNat = 0 by omega,
    Int.toNat_natCast]
  split
  · rfl
  · rw [if_pos (by omega)]

theorem Holds.scaled (hb : Holds F b k) {e : ℤ} {n : ℕ} (hn : e-b.normalExp = n) :
    magnitude F k = b.fraction/2^n*2^(e-F.point : ℤ) := by
  have hscale : (2 : ℚ)^(e-F.point) = 2^n*2^(b.normalExp-F.point) := by
    rw [pow_mul_zpow]
    congr 1
    omega
  rw [hb.value,hscale,← mul_assoc,div_mul_cancel₀ _ (pow_ne_zero n two_ne_zero)]

theorem Holds.magnitude_pos (ha : Holds F a m) : 0 < magnitude F m := by
  apply SoftFloat.magnitude_pos
  rintro rfl
  have hzero := ha.value
  rw [magnitude_zero,eq_comm,mul_eq_zero] at hzero
  have hscale : (2 : ℚ)^(a.normalExp-F.point) ≠ 0 := zpow_ne_zero _ two_ne_zero
  have hf : a.fraction = 0 := by exact_mod_cast hzero.resolve_right hscale
  have := ha.low
  have := Nat.two_pow_pos F.point
  omega

/-- A fraction that is far off adds less than one unit. -/
theorem far_lt_one {g n : ℕ} (hg : g < 2^(F.point+1)) (hn : F.fracNBits ≤ n) : (g : ℚ)/2^n < 1 := by
  rw [div_lt_one (pow_pos two_pos n)]
  have hle : 2^(F.point+1) ≤ 2^n := by
    apply Nat.pow_le_pow_right two_pos
    have := point_lt F
    omega
  exact_mod_cast hg.trans_le hle

theorem addNumbers_same (ha : Holds F a m) (hb : Holds F b k) (hle : b.normalExp ≤ a.normalExp)
    (hsign : a.sign = b.sign) {x : ℚ} (hx : |x| = magnitude F m+magnitude F k)
    (hs : a.sign = decide (x < 0)) (hmin : minNormal F ≤ |x|) :
    Rounded F x (decode F (packD F (addNumbers F a b))) := by
  obtain ⟨n,hn⟩ := Int.eq_ofNat_of_zero_le (sub_nonneg.mpr hle)
  have hp : 2^(F.point+2) = 2*2^(F.point+1) := pow_succ' 2 _
  have hhigh := ha.high
  have hhigh' := hb.high
  have hshort := jam_iterate_le b.fraction n
  rw [ha.value,hb.scaled hn,← add_mul] at hx
  have hsum := rounded_sum ha.low ha.high ha.guards hb.high hx hs hmin
  simp only [addNumbers,alignParts_of_le hle hn]
  rw [if_neg (not_not.mpr hsign)]
  by_cases hfar : n < F.fracNBits
  · rw [if_pos hfar,trunc_eq (by omega)]
    exact hsum
  · rw [if_neg hfar,Nat.add_zero,trunc_eq (by omega)]
    have hn' : F.point+1 ≤ n := by
      have := point_lt F
      omega
    have hpos : 0 < b.fraction := by
      have := hb.low
      have := Nat.two_pow_pos F.point
      omega
    have hone : a.fraction+1 ≤ 2^(F.point+1) := by omega
    obtain ⟨c,hc⟩ := normalExpMin_le (F := F) (e := a.normalExp) (by
      have := far_lt_one hb.high (not_lt.mp hfar)
      have hq : ((a.fraction : ℕ) : ℚ)+1 ≤ 2^(F.point+1) := by exact_mod_cast hone
      linarith) (hx ▸ hmin)
    rw [jam_iterate_far hpos hb.high hn'] at hsum
    rw [dropped_sum ha.low ha.high ha.guards hc]
    exact hsum

theorem addNumbers_differ (ha : Holds F a m) (hb : Holds F b k) (hlt : b.normalExp < a.normalExp)
    (hsign : a.sign ≠ b.sign) {x : ℚ} (hx : |x| = magnitude F m-magnitude F k)
    (hs : a.sign = decide (x < 0)) (hmin : minNormal F ≤ |x|) :
    Rounded F x (decode F (packD F (addNumbers F a b))) := by
  obtain ⟨n,hn⟩ := Int.eq_ofNat_of_zero_le (sub_nonneg.mpr hlt.le)
  have hhigh := ha.high
  have hhigh' := hb.high
  have hpos := Nat.two_pow_pos F.point
  have hlow := ha.low
  have hlow' := hb.low
  rw [ha.value,hb.scaled hn,← sub_mul] at hx
  obtain ⟨hjam,hdiff⟩ := rounded_difference ha.low ha.high ha.guards hb.high hb.guards
    (show 1 ≤ n by omega) hx hs hmin
  simp only [addNumbers,alignParts_of_le hlt.le hn]
  rw [if_pos hsign]
  by_cases hfar : n < F.fracNBits
  · rw [if_pos hfar,subFractions_spec hhigh (by omega),if_neg hjam.ne',if_pos hjam]
    exact hdiff
  · rw [if_neg hfar,subFractions_spec hhigh (Nat.two_pow_pos _),if_neg (by omega),if_pos (by omega),
      Nat.sub_zero,addLoop_inPlace _ hlow]
    have hn' : F.point+1 ≤ n := by
      have := point_lt F
      omega
    have hsmall : (0 : ℚ) ≤ b.fraction/2^n := by positivity
    obtain ⟨c,hc⟩ := normalExpMin_le (F := F) (e := a.normalExp) (by
      have hq : ((a.fraction : ℕ) : ℚ) < 2^(F.point+1) := by exact_mod_cast hhigh
      linarith) (hx ▸ hmin)
    have hbelow : a.fraction = 2^F.point → c ≠ 0 := by
      rintro heq rfl
      have hhalf : (a.fraction-b.fraction/2^n : ℚ)*2^(a.normalExp-F.point) =
          2*(a.fraction-b.fraction/2^n)*2^(a.normalExp-1-F.point) := by
        rw [show a.normalExp-F.point = (a.normalExp-1-F.point)+1 by ring,
          zpow_add_one₀ two_ne_zero]
        ring
      obtain ⟨d,hd⟩ := normalExpMin_le (F := F) (e := a.normalExp-1) (by
        have hq : ((a.fraction : ℕ) : ℚ) = 2^F.point := by exact_mod_cast heq
        have hpos' : (0 : ℚ) < b.fraction/2^n := by
          have : (0 : ℚ) < b.fraction := by exact_mod_cast (by omega : 0 < b.fraction)
          positivity
        rw [pow_succ']
        linarith) (hhalf ▸ hx ▸ hmin)
      omega
    rw [jam_iterate_far (by omega) hhigh' hn'] at hdiff
    rw [dropped_difference hlow hhigh ha.guards hc hbelow]
    exact hdiff

/-- With equal exponents the difference is exact. -/
theorem addNumbers_level (ha : Holds F a m) (hb : Holds F b k) (heq : b.normalExp = a.normalExp)
    (hsign : a.sign ≠ b.sign) (hgt : b.fraction < a.fraction) {x : ℚ}
    (hx : |x| = magnitude F m-magnitude F k) (hs : a.sign = decide (x < 0))
    (hmin : minNormal F ≤ |x|) : Rounded F x (decode F (packD F (addNumbers F a b))) := by
  have hhigh := ha.high
  have hhigh' := hb.high
  have hn : a.normalExp-b.normalExp = (0 : ℕ) := by
    rw [heq,sub_self]
    rfl
  have hwidth : 0 < F.fracNBits := by cases F <;> decide
  rw [ha.value,hb.value,heq,← sub_mul] at hx
  simp only [addNumbers,alignParts_of_le heq.le hn]
  rw [if_pos hsign,if_pos hwidth,Function.iterate_zero,id,subFractions_spec hhigh hhigh',
    if_neg hgt.ne',if_pos hgt]
  apply rounded_renormalized (by omega) (by omega) (.inl _) hx hs hmin
  rw [Nat.cast_sub hgt.le]

/-- An exact cancellation gives a positive zero. -/
theorem addNumbers_cancel (ha : Holds F a m) (hb : Holds F b k) (heq : b.normalExp = a.normalExp)
    (hsign : a.sign ≠ b.sign) (hf : a.fraction = b.fraction) :
    decode F (packD F (addNumbers F a b)) = .finite false 0 := by
  have hn : a.normalExp-b.normalExp = (0 : ℕ) := by
    rw [heq,sub_self]
    rfl
  have hwidth : 0 < F.fracNBits := by cases F <;> decide
  have hloop : ∀ n, addLoop F n 0 a.normalExp = (0,a.normalExp) := by
    intro n
    cases n with
    | zero => rfl
    | succ n => rw [addLoop,if_neg (fun h => h.2 rfl)]
  have hnumber : addNumbers F a b =
      { cls := .number, sign := false, normalExp := a.normalExp, fraction := 0 } := by
    simp only [addNumbers,alignParts_of_le heq.le hn]
    rw [if_pos hsign,if_pos hwidth,Function.iterate_zero,id,subFractions_spec ha.high hb.high,
      if_pos hf,hloop]
    change shiftDown F false 0 a.normalExp = _
    rw [shiftDown,implicit2_eq,if_neg (by have := Nat.two_pow_pos (F.point+1); omega)]
  rw [hnumber]
  exact decode_packD_null rfl rfl

/-- What a sum of two numbers is to be, when it is packed. -/
def SumRight (F : Format) (x : ℚ) (r : Datum) : Prop :=
  (x = 0 → r = .finite false 0) ∧ (minNormal F ≤ |x| → Rounded F x r)

theorem sumRight_of_pos {s : Bool} {q : ℚ} {r : Datum} (hq : 0 < q)
    (h : ∀ x, |x| = q → s = decide (x < 0) → minNormal F ≤ |x| → Rounded F x r) :
    SumRight F (applySign s q) r := by
  obtain ⟨habs,hs⟩ := applySign_pos s hq
  constructor
  · intro hzero
    rw [hzero,abs_zero] at habs
    exact absurd habs hq.ne
  · intro hmin
    exact h _ habs hs.symm hmin

theorem addNumbers_spec_le (ha : Holds F a m) (hb : Holds F b k)
    (hle : b.normalExp ≤ a.normalExp) :
    SumRight F (value F a.sign m+value F b.sign k) (decode F (packD F (addNumbers F a b))) := by
  by_cases hsign : a.sign = b.sign
  · rw [value,value,← hsign,applySign_add]
    apply sumRight_of_pos (add_pos ha.magnitude_pos hb.magnitude_pos)
    intro x hx hs hmin
    exact addNumbers_same ha hb hle hsign hx hs hmin
  · have hnot : b.sign = !a.sign := by
      cases hs : a.sign <;> cases ht : b.sign <;> simp_all
    rw [value,value,hnot,applySign_not_add]
    rcases lt_or_eq_of_le hle with hlt | heq
    · apply sumRight_of_pos (sub_pos.mpr (magnitude_lt_of_exp ha hb hlt))
      intro x hx hs hmin
      exact addNumbers_differ ha hb hlt hsign hx hs hmin
    · rcases Nat.lt_trichotomy b.fraction a.fraction with hlt | hf | hgt
      · apply sumRight_of_pos (sub_pos.mpr (magnitude_lt_of_fraction ha hb heq hlt))
        intro x hx hs hmin
        exact addNumbers_level ha hb heq hsign hlt hx hs hmin
      · have hzero : magnitude F m-magnitude F k = 0 := by
          rw [ha.value,hb.value,heq,hf,sub_self]
        rw [hzero]
        constructor
        · intro _
          exact addNumbers_cancel ha hb heq hsign hf.symm
        · intro hmin
          have hpos : 0 < minNormal F := zpow_pos two_pos _
          cases hs : a.sign <;> rw [hs] at hmin <;> simp [applySign] at hmin <;> linarith
      · have hflip : applySign a.sign (magnitude F m-magnitude F k) =
            applySign b.sign (magnitude F k-magnitude F m) := by
          rw [hnot,applySign_not,neg_sub]
        rw [hflip,addNumbers_comm ha.high hb.high]
        apply sumRight_of_pos (sub_pos.mpr (magnitude_lt_of_fraction hb ha heq.symm hgt))
        intro x hx hs hmin
        exact addNumbers_level hb ha heq.symm (Ne.symm hsign) hgt hx hs hmin

theorem addNumbers_spec (ha : Holds F a m) (hb : Holds F b k) :
    SumRight F (value F a.sign m+value F b.sign k) (decode F (packD F (addNumbers F a b))) := by
  rcases le_total b.normalExp a.normalExp with hle | hle
  · exact addNumbers_spec_le ha hb hle
  · rw [add_comm,addNumbers_comm ha.high hb.high]
    exact addNumbers_spec_le hb ha hle

end Numbers

section Results

variable {F : Format}

/-- `_fpadd_parts` and packing, for whatever two patterns were unpacked. -/
theorem fpaddParts_spec {a b : FpNumber} {x y : Datum} (ha : Unpacked F a x) (hb : Unpacked F b y) :
    IeeeSum F x y (decode F (packD F (fpaddParts F a b))) := by
  have hpack := ha.decode_packD
  have hpack' := hb.decode_packD
  cases ha with
  | nan h =>
    rw [fpaddParts,if_pos h]
    exact hpack
  | inf h =>
    have hclass := tests_infinity h
    cases hb with
    | nan h' => simpa [fpaddParts,hclass,h',IeeeSum] using hpack'
    | inf h' =>
      have hclass' := tests_infinity h'
      by_cases hsign : a.sign = b.sign
      · simpa [fpaddParts,hclass,hclass',IeeeSum,hsign] using hpack
      · have hnan : decode F (packD F nan) = .nan := decode_packD_nan rfl
        simpa [fpaddParts,hclass,hclass',IeeeSum,hsign] using hnan
    | zero h' =>
      have hclass' := tests_zero h'
      simpa [fpaddParts,hclass,hclass',IeeeSum] using hpack
    | number hm hlt h' =>
      have hclass' := tests_number h'.cls
      simpa [fpaddParts,hclass,hclass',IeeeSum] using hpack
  | zero h =>
    have hclass := tests_zero h
    cases hb with
    | nan h' => simpa [fpaddParts,hclass,h',IeeeSum] using hpack'
    | inf h' =>
      have hclass' := tests_infinity h'
      simpa [fpaddParts,hclass,hclass',IeeeSum] using hpack'
    | zero h' =>
      have hclass' := tests_zero h'
      have hboth : decode F (packD F { a with sign := a.sign && b.sign }) =
          .finite (a.sign && b.sign) 0 := decode_packD_zero h
      simpa [fpaddParts,hclass,hclass',IeeeSum] using hboth
    | number hm hlt h' =>
      have hclass' := tests_number h'.cls
      simpa [fpaddParts,hclass,hclass',IeeeSum,hm] using hpack'
  | number hm hlt h =>
    have hclass := tests_number h.cls
    cases hb with
    | nan h' => simpa [fpaddParts,hclass,h',IeeeSum] using hpack'
    | inf h' =>
      have hclass' := tests_infinity h'
      simpa [fpaddParts,hclass,hclass',IeeeSum] using hpack'
    | zero h' =>
      have hclass' := tests_zero h'
      simpa [fpaddParts,hclass,hclass',IeeeSum,hm] using hpack
    | number hm' hlt' h' =>
      have hclass' := tests_number h'.cls
      have hsum := addNumbers_spec h h'
      simpa [fpaddParts,hclass,hclass',IeeeSum,hm,hm',SumRight] using hsum

/-- What a structure held before does not matter to a number that is unpacked into it. -/
theorem unpackD_fresh {x : Flo F} (hpos : rawMagnitude F x ≠ 0) (hlt : rawMagnitude F x < F.infinity)
    (dst dst' : FpNumber) : unpackD F x dst = unpackD F x dst' := by
  have hsplit := Nat.div_add_mod' (rawMagnitude F x) (2^F.fracBits)
  have hexpMax : rawMagnitude F x/2^F.fracBits < F.expMax :=
    Nat.div_lt_of_lt_mul (by rwa [Nat.mul_comm])
  simp only [unpackD,raw_fraction,raw_exp,if_neg hexpMax.ne]
  by_cases hexp : rawMagnitude F x/2^F.fracBits = 0
  · rw [hexp,Nat.zero_mul,Nat.zero_add] at hsplit
    rw [if_pos hexp,if_pos hexp,if_neg (by omega),if_neg (by omega)]
  · rw [if_neg hexp,if_neg hexp]

theorem unpackD_finite {x : Flo F} {s : Bool} {m : ℕ} (h : decode F x = .finite s m) (hm : m ≠ 0)
    (dst dst' : FpNumber) : unpackD F x dst = unpackD F x dst' ∧
      (unpackD F x dst).cls = .number ∧ (unpackD F x dst).fraction < 2^(F.point+1) := by
  obtain ⟨-,rfl,hlt⟩ := decode_finite h
  have hholds := (unpackD_number hm hlt dst).1
  exact ⟨unpackD_fresh hm hlt dst dst',hholds.cls,hholds.high⟩

theorem add_spec (a b : FpNumber) (x y : Flo F) :
    IeeeSum F (decode F x) (decode F y) (decode F (add F a b x y)) :=
  fpaddParts_spec (unpackD_spec x a) (unpackD_spec y b)

theorem sub_spec (a b : FpNumber) (x y : Flo F) :
    IeeeSum F (decode F x) (decode F y).neg (decode F (sub F a b x y)) :=
  fpaddParts_spec (unpackD_spec x a) (unpackD_spec y b).neg

/-- The sums in both orders agree where they are given by the rules for zeros and infinities. -/
theorem ieeeSum_comm {d d' r r' : Datum} (h : IeeeSum F d d' r) (h' : IeeeSum F d' d r')
    (hnum : ∀ {s t m n}, d = .finite s m → d' = .finite t n → m = 0 ∨ n = 0) : r = r' := by
  cases d with
  | nan => cases d' <;> exact h.trans h'.symm
  | inf s =>
    cases d' with
    | nan => exact h.trans h'.symm
    | inf t =>
      rw [show r = _ from h,show r' = _ from h']
      by_cases hst : s = t
      · rw [if_pos hst,if_pos hst.symm,hst]
      · rw [if_neg hst,if_neg (Ne.symm hst)]
    | finite t n => exact h.trans h'.symm
  | finite s m =>
    cases d' with
    | nan => exact h.trans h'.symm
    | inf t => exact h.trans h'.symm
    | finite t n =>
      simp only [IeeeSum] at h h'
      by_cases hm : m = 0
      · by_cases hn : n = 0
        · rw [if_pos ⟨hm,hn⟩] at h
          rw [if_pos ⟨hn,hm⟩] at h'
          rw [h,h',Bool.and_comm]
        · rw [if_neg (fun h => hn h.2),if_pos hm] at h
          rw [if_neg (fun h => hn h.1),if_neg hn,if_pos hm] at h'
          rw [h,h']
      · have hn := (hnum rfl rfl).resolve_left hm
        rw [if_neg (fun h => hm h.1),if_neg hm,if_pos hn] at h
        rw [if_neg (fun h => hm h.2),if_pos hn] at h'
        rw [h,h']

/-- Of the rules for zeros and infinities only one makes a NaN. -/
theorem ieeeSum_nan {d d' : Datum} (h : IeeeSum F d d' .nan) (hd : d ≠ .nan) (hd' : d' ≠ .nan)
    (hnum : ∀ {s t m n}, d = .finite s m → d' = .finite t n → m = 0 ∨ n = 0) :
    ∃ s t, d = .inf s ∧ d' = .inf t ∧ s ≠ t := by
  cases d with
  | nan => exact absurd rfl hd
  | inf s =>
    cases d' with
    | nan => exact absurd rfl hd'
    | inf t =>
      refine ⟨s,t,rfl,rfl,?_⟩
      rintro rfl
      rw [IeeeSum,if_pos rfl] at h
      cases h
    | finite t n => cases h
  | finite s m =>
    cases d' with
    | nan => exact absurd rfl hd'
    | inf t => cases h
    | finite t n =>
      simp only [IeeeSum,reduceCtorEq] at h
      rcases hnum rfl rfl with rfl | rfl
      · split at h <;> simp_all
      · split at h <;> simp_all

theorem add_infinities (a b : FpNumber) {x y : Flo F} {s t : Bool} (hx : decode F x = .inf s)
    (hy : decode F y = .inf t) (hst : s ≠ t) : add F a b x y = packD F nan := by
  obtain ⟨hxc,hxs⟩ := unpackD_inf hx a
  obtain ⟨hyc,hys⟩ := unpackD_inf hy b
  rw [add,fpaddParts]
  simp only [isnan,isinf,hxc,hyc,hxs,hys,reduceCtorEq,decide_false,Bool.or_false,Bool.false_eq_true,
    if_false,decide_true,if_true,true_and]
  rw [if_pos hst]

/-- Addition is commutative on patterns that are not NaNs. -/
theorem add_comm_pattern (a b a' b' : FpNumber) {x y : Flo F} (hx : decode F x ≠ .nan)
    (hy : decode F y ≠ .nan) : add F a b x y = add F a' b' y x := by
  by_cases hnum : ∃ s t m n, decode F x = .finite s m ∧ decode F y = .finite t n ∧ m ≠ 0 ∧ n ≠ 0
  · obtain ⟨s,t,m,n,hdx,hdy,hm,hn⟩ := hnum
    obtain ⟨hxa,hxc,hxf⟩ := unpackD_finite hdx hm a b'
    obtain ⟨hyb,hyc,hyf⟩ := unpackD_finite hdy hn b a'
    have hadd := addNumbers_comm hxf hyf
    rw [add,add,← hxa,← hyb]
    simp only [fpaddParts,isnan,isinf,iszero,hxc,hyc,reduceCtorEq,decide_false,Bool.or_false,
      Bool.false_eq_true,if_false,false_and]
    rw [hadd]
  · have hcases : ∀ {s t m n}, decode F x = .finite s m → decode F y = .finite t n → m = 0 ∨ n = 0 := by
      intro s t m n hdx hdy
      by_contra hne
      exact hnum ⟨s,t,m,n,hdx,hdy,fun h => hne (.inl h),fun h => hne (.inr h)⟩
    have heq := ieeeSum_comm (add_spec a b x y) (add_spec a' b' y x) hcases
    by_cases hnan : decode F (add F a b x y) = .nan
    · obtain ⟨s,t,hdx,hdy,hst⟩ := ieeeSum_nan (hnan ▸ add_spec a b x y) hx hy hcases
      rw [add_infinities a b hdx hdy hst,add_infinities a' b' hdy hdx (Ne.symm hst)]
    · exact decode_inj heq hnan

/-- Soft-float addition and subtraction: for both formats and all operands the sum and the difference
are what IEEE 754 asks for, whatever the local numbers held before, and addition is commutative. -/
theorem addition (F : Format) (a b : FpNumber) (x y : Flo F) :
    IeeeSum F (decode F x) (decode F y) (decode F (add F a b x y)) ∧
      IeeeSum F (decode F x) (decode F y).neg (decode F (sub F a b x y)) ∧
      (decode F x ≠ .nan → decode F y ≠ .nan →
        ∀ a' b', add F a b x y = add F a' b' y x) := by
  refine ⟨add_spec a b x y,sub_spec a b x y,?_⟩
  intro hx hy a' b'
  exact add_comm_pattern a b a' b' hx hy

/-- One and half a unit in its last place, in both orders. -/
theorem addition_tie :
    let one : Flo .float := BitVec.ofNat 32 0x3f800000
    let half : Flo .float := BitVec.ofNat 32 0x33800000
    decode .float one ≠ .nan ∧ decode .float half ≠ .nan ∧
      decode .float (add .float nan nan one half) = decode .float one ∧
      add .float nan nan one half = add .float nan nan half one := by
  refine ⟨by decide,by decide,by decide +kernel,?_⟩
  exact (addition .float nan nan _ _).2.2 (by decide) (by decide) nan nan

end Results

end SoftFloat
end AgbTools
