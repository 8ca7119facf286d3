import AgbTools.LibGccThumb

/-! The remainder routines of lib1thumb.asm. Their loop subtracts too much on the last pass and adds
it back from bits noted in a rotated word; an early exit from a pass at bit 30 or 31 leaves bits in
the same place. -/
namespace AgbTools
namespace Thumb
namespace Divide

open Program LongDivision

section Overdone

/-- The top three bits, which the fixup looks at. -/
def overdoneMask : Word := (0xe : Word) <<< 28

/-- The bits noted by one pass. -/
def noted (b : Word) (t₁ t₂ t₃ : Bool) : Word :=
  let o₁ := if t₁ then 0 ||| b.rotateRight 1 else 0
  let o₂ := if t₂ then o₁ ||| b.rotateRight 2 else o₁
  if t₃ then o₂ ||| b.rotateRight 3 else o₂

/-- A dividend with the subtraction at one place added back, if it is noted. -/
def repaired (y o b : Word) (i : ℕ) (x : Word) : Word :=
  if o &&& b.rotateRight i = 0 then x else x+y >>> i

/-- What the fixup makes of the dividend. -/
def fixup (x y o b : Word) : Word :=
  repaired y (o &&& overdoneMask) b 1 (repaired y (o &&& overdoneMask) b 2
    (repaired y (o &&& overdoneMask) b 3 x))

/-- The rotated bits that land in the top three: those rotated past the bottom, and those of a bit
that was at the top. -/
def kept (k i : ℕ) : Bool := decide (k < i ∨ 29+i ≤ k)

theorem noted_bits : ∀ k < 32, ∀ t₁ t₂ t₃ : Bool,
    let o := noted (BitVec.ofNat 32 (2^k)) t₁ t₂ t₃ &&& overdoneMask
    decide (o &&& (BitVec.ofNat 32 (2^k)).rotateRight 1 = 0) = !(t₁ && kept k 1) ∧
    decide (o &&& (BitVec.ofNat 32 (2^k)).rotateRight 2 = 0) = !(t₂ && kept k 2) ∧
    decide (o &&& (BitVec.ofNat 32 (2^k)).rotateRight 3 = 0) = !(t₃ && kept k 3) := by
  decide +kernel

variable {y o b : Word} {i : ℕ}

theorem repaired_eq {t : Bool} (h : decide (o &&& b.rotateRight i = 0) = !t) (x : Word) :
    repaired y o b i x = x+if t then y >>> i else 0 := by
  unfold repaired
  cases t with
  | true =>
    rw [if_neg (of_decide_eq_false h)]
    rfl
  | false =>
    have hzero : x+(0 : Word) = x := BitVec.add_zero x
    rw [if_pos (of_decide_eq_true h)]
    exact hzero.symm

theorem fixup_noted {k : ℕ} (hk : k < 32) (hb : b.toNat = 2^k) (x : Word) (t₁ t₂ t₃ : Bool) :
    fixup x y (noted b t₁ t₂ t₃) b =
      x+(if t₃ && kept k 3 then y >>> 3 else 0)+(if t₂ && kept k 2 then y >>> 2 else 0)+
        (if t₁ && kept k 1 then y >>> 1 else 0) := by
  have hbit : b = BitVec.ofNat 32 (2^k) := by
    apply BitVec.eq_of_toNat_eq
    rw [hb,BitVec.toNat_ofNat,Nat.mod_eq_of_lt (Nat.pow_lt_pow_right (by omega) hk)]
  obtain ⟨h₁,h₂,h₃⟩ := noted_bits k hk t₁ t₂ t₃
  rw [← hbit] at h₁ h₂ h₃
  unfold fixup
  rw [repaired_eq h₁,repaired_eq h₂,repaired_eq h₃]

/-- Without a note in the top three bits there is nothing to repair. -/
theorem fixup_of_clear {x : Word} (h : o &&& overdoneMask = 0) : fixup x y o b = x := by
  have hzero : (0 : Word) &&& b.rotateRight 1 = 0 ∧ (0 : Word) &&& b.rotateRight 2 = 0 ∧
      (0 : Word) &&& b.rotateRight 3 = 0 := ⟨BitVec.zero_and,BitVec.zero_and,BitVec.zero_and⟩
  unfold fixup repaired
  rw [h,if_pos hzero.1,if_pos hzero.2.1,if_pos hzero.2.2]

end Overdone

section Rest

/-- The dividend after the test at place `i` of a pass. -/
def passRest (x y : Word) : ℕ → Word
  | 0 => less x y
  | i+1 => less (passRest x y i) (y >>> (i+1))

/-- Whether a pass subtracts at place `i+1`. -/
def passBit (x y : Word) (i : ℕ) : Bool := decide (y >>> (i+1) ≤ passRest x y i)

/-- The subtractions a pass notes. -/
def passNoted (x y b : Word) : Word := noted b (passBit x y 0) (passBit x y 1) (passBit x y 2)

variable {n d k i j : ℕ} {x y b : Word}

theorem less_add_back (x y : Word) : less x y+(if decide (y ≤ x) then y else 0) = x := by
  unfold less
  by_cases h : y ≤ x
  · rw [if_pos h,if_pos (decide_eq_true h),BitVec.sub_add_cancel]
  · have hd : decide (y ≤ x) = false := decide_eq_false h
    have hzero : x+(0 : Word) = x := BitVec.add_zero x
    rw [if_neg h,hd]
    exact hzero

theorem passRest_add_back (x y : Word) (i : ℕ) :
    passRest x y (i+1)+(if passBit x y i then y >>> (i+1) else 0) = passRest x y i :=
  less_add_back (passRest x y i) (y >>> (i+1))

/-- What is left of `n` once the quotient bits from `j` upward are decided, whatever they are. -/
def Rest (n d j : ℕ) (x : Word) : Prop := ∃ q : Word, Decided n d j x.toNat q.toNat

theorem Rest.mod (h : Rest n d 0 x) : x.toNat = n%d := by
  obtain ⟨q,hq⟩ := h
  exact hq.div_mod.2.symm

theorem Rest.mod_of_zero (h : Rest n d j 0) : n%d = 0 := by
  obtain ⟨q,hq⟩ := h
  exact hq.div_mod_of_zero.2

theorem Rest.eq_zero_of_dvd (h : Rest n d j x) (hdvd : d*2^j ∣ n) : x = 0 := by
  obtain ⟨q,hq⟩ := h
  have hmul : d*2^j ∣ q.toNat*d := by
    rw [Nat.mul_comm d]
    exact Nat.mul_dvd_mul_right hq.dvd d
  have hx : d*2^j ∣ x.toNat := by
    rw [hq.sum] at hdvd
    exact (Nat.dvd_add_right hmul).mp hdvd
  exact BitVec.eq_of_toNat_eq (Nat.eq_zero_of_dvd_of_lt hx hq.lt)

theorem passRest_rest (hy : y.toNat = d*2^k) (hb : b.toNat = 2^k) (h : Rest n d (k+1) x) :
    i ≤ k → Rest n d (k-i) (passRest x y i) := by
  induction i with
  | zero =>
    intro _
    obtain ⟨q,hq⟩ := h
    have hbit := @bit_decided n d k 0 x y b q hy hb (Nat.zero_le k) hq
    rw [BitVec.ushiftRight_zero] at hbit
    exact ⟨_,hbit⟩
  | succ i ih =>
    intro hi
    obtain ⟨q,hq⟩ := ih (by omega)
    rw [show k-i = k-(i+1)+1 by omega] at hq
    exact ⟨_,bit_decided hy hb hi hq⟩

/-- On the last pass the fixup takes back what was subtracted below the divisor itself. -/
theorem fixup_last (hy : y.toNat = d*2^k) (hb : b.toNat = 2^k) (h : Rest n d (k+1) x) (hk : k < 4) :
    (fixup (passRest x y 3) y (passNoted x y b) b).toNat = n%d := by
  have hrest := @passRest_rest n d k k x y b hy hb h (Nat.le_refl k)
  rw [Nat.sub_self] at hrest
  have hnone : ∀ w : Word, w+(0 : Word) = w := fun w => BitVec.add_zero w
  have h₁ := passRest_add_back x y 0
  have h₂ := passRest_add_back x y 1
  have h₃ := passRest_add_back x y 2
  rw [← hrest.mod]
  unfold passNoted
  rw [fixup_noted (by omega) hb]
  obtain rfl | rfl | rfl | rfl : k = 0 ∨ k = 1 ∨ k = 2 ∨ k = 3 := by omega
  · have hkept : kept 0 1 = true ∧ kept 0 2 = true ∧ kept 0 3 = true := by decide
    rw [hkept.1,hkept.2.1,hkept.2.2,Bool.and_true,Bool.and_true,Bool.and_true,h₃,h₂,h₁]
  · have hkept : kept 1 1 = false ∧ kept 1 2 = true ∧ kept 1 3 = true := by decide
    rw [hkept.1,hkept.2.1,hkept.2.2,Bool.and_true,Bool.and_true,Bool.and_false,h₃,h₂]
    exact congrArg BitVec.toNat (hnone _)
  · have hkept : kept 2 1 = false ∧ kept 2 2 = false ∧ kept 2 3 = true := by decide
    rw [hkept.1,hkept.2.1,hkept.2.2,Bool.and_true,Bool.and_false,Bool.and_false,h₃]
    exact congrArg BitVec.toNat ((hnone _).trans (hnone _))
  · have hkept : kept 3 1 = false ∧ kept 3 2 = false ∧ kept 3 3 = false := by decide
    rw [hkept.1,hkept.2.1,hkept.2.2,Bool.and_false,Bool.and_false,Bool.and_false]
    exact congrArg BitVec.toNat ((hnone _).trans ((hnone _).trans (hnone _)))

theorem kept_false (hi : i ≤ k) (hk : k < 29+i) : kept k i = false := by
  unfold kept
  exact decide_eq_false (by omega)

/-- An early exit from a pass below bit 30 has nothing to repair. -/
theorem fixup_early (hb : b.toNat = 2^k) (hk : 4 ≤ k) (hk' : k < 30) (h0 : passRest x y 3 = 0) :
    fixup (passRest x y 3) y (passNoted x y b) b = 0 := by
  unfold passNoted
  rw [fixup_noted (by omega) hb,kept_false (by omega) (by omega),kept_false (by omega) (by omega),
    kept_false (by omega) (by omega),Bool.and_false,Bool.and_false,Bool.and_false,h0]
  rfl

/-- An early exit from a pass at bit 30 or 31 has the subtractions at the second bit, and at bit 31
those at the third, added back. -/
theorem fixup_early_top (hb : b.toNat = 2^k) (hk : 30 ≤ k) (hk' : k < 32) (h0 : passRest x y 3 = 0) :
    fixup (passRest x y 3) y (passNoted x y b) b =
      (if passBit x y 1 && decide (k = 31) then y >>> 2 else 0)+
        (if passBit x y 0 then y >>> 1 else 0) := by
  have hkept₁ : kept k 1 = true := decide_eq_true (by omega)
  have hkept₂ : kept k 2 = decide (k = 31) := by
    unfold kept
    congr 1
    exact propext ⟨fun _ => by omega,fun _ => by omega⟩
  have hzero : ∀ w : Word, (0 : Word)+w = w := fun w => BitVec.zero_add w
  unfold passNoted
  rw [fixup_noted hk' hb,hkept₁,hkept₂,kept_false (by omega) (by omega),Bool.and_false,Bool.and_true,
    h0]
  exact congrArg (·+_) ((congrArg (·+_) (hzero _)).trans (hzero _))

end Rest

section Lost

/-- The shifts the alignment of the divisor can end with. -/
structure Aligned (n d k : ℕ) : Prop where
  fits : d*2^k < 2^32
  below : n < d*2^(k+1)
  last : 28 < k → d*2^(k-1) < n
  stop : n ≤ d*2^k ∨ 2^31 ≤ d*2^k

instance (n d k : ℕ) : Decidable (Aligned n d k) :=
  decidable_of_iff (d*2^k < 2^32 ∧ n < d*2^(k+1) ∧ (28 < k → d*2^(k-1) < n) ∧
      (n ≤ d*2^k ∨ 2^31 ≤ d*2^k))
    ⟨fun h => ⟨h.1,h.2.1,h.2.2.1,h.2.2.2⟩,fun h => ⟨h.fits,h.below,h.last,h.stop⟩⟩

/-- Dividends and divisors for which the first pass starts at bit 30 or 31 and leaves nothing, with a
subtraction noted where the fixup takes it for an overdone one. -/
def lostPairs : List (ℕ × ℕ) :=
  [5,6,7].map (fun m => (m*2^27,1))++[5,6,7,10,11,12,13,14,15].map (fun m => (m*2^28,1))++
    [5,6,7,12,13,14,15].map (fun m => (m*2^28,2))++[5,6,7].map (fun m => (m*(3*2^27),3))

/-- The four quotient digits of a pass as a number. -/
def digits (t₀ t₁ t₂ t₃ : Bool) : ℕ := 8*t₀.toNat+4*t₁.toNat+2*t₂.toNat+t₃.toNat

theorem lost_top : ∀ p ∈ lostPairs, ∀ k < 32, Aligned p.1 p.2 k →
    30 ≤ k ∧ p.2*2^(k-3) ∣ p.1 := by
  decide +kernel

theorem lost_iff_digits : ∀ d < 4, ∀ k < 32, 30 ≤ k → ∀ t₀ t₁ t₂ t₃ : Bool,
    digits t₀ t₁ t₂ t₃*(d*2^(k-3)) < 2^32 → Aligned (digits t₀ t₁ t₂ t₃*(d*2^(k-3))) d k →
    decide ((digits t₀ t₁ t₂ t₃*(d*2^(k-3)),d) ∈ lostPairs) = (t₁ || (t₂ && decide (k = 31))) := by
  decide +kernel

variable {n d k : ℕ} {x y b : Word}

theorem Aligned.divisor_lt (h : Aligned n d k) (hk : 30 ≤ k) : d < 4 := by
  by_contra hd
  have hpow : 2^30 ≤ 2^k := Nat.pow_le_pow_right (by omega) hk
  have hle : 4*2^30 ≤ d*2^k := Nat.mul_le_mul (by omega) hpow
  exact absurd h.fits (Nat.not_lt.mpr hle)

theorem less_toNat_add (x y : Word) :
    x.toNat = (decide (y ≤ x)).toNat*y.toNat+(less x y).toNat := by
  rw [less_toNat]
  by_cases h : y ≤ x
  · have h' := BitVec.le_def.mp h
    rw [decide_eq_true h,if_pos h',Bool.toNat_true]
    omega
  · have h' := mt BitVec.le_def.mpr h
    rw [decide_eq_false h,if_neg h',Bool.toNat_false]
    omega

/-- A pass splits four digits off the dividend. -/
theorem pass_digits (hy : y.toNat = d*2^k) (hk : 3 ≤ k) :
    x.toNat = digits (decide (y ≤ x)) (passBit x y 0) (passBit x y 1) (passBit x y 2)*(d*2^(k-3))+
      (passRest x y 3).toNat := by
  have h₀ := less_toNat_add x y
  have h₁ := less_toNat_add (passRest x y 0) (y >>> 1)
  have h₂ := less_toNat_add (passRest x y 1) (y >>> 2)
  have h₃ := less_toNat_add (passRest x y 2) (y >>> 3)
  have hpow : ∀ i ≤ 3, d*2^(k-i) = 2^(3-i)*(d*2^(k-3)) := by
    intro i hi
    rw [show k-i = (3-i)+(k-3) by omega,pow_add]
    ring
  rw [hy,show k = k-0 from rfl,hpow 0 (by omega)] at h₀
  rw [shifted_right hy (by omega),hpow 1 (by omega)] at h₁
  rw [shifted_right hy (by omega),hpow 2 (by omega)] at h₂
  rw [shifted_right hy hk] at h₃
  change x.toNat = _+(passRest x y 0).toNat at h₀
  change (passRest x y 0).toNat = (passBit x y 0).toNat*_+(passRest x y 1).toNat at h₁
  change (passRest x y 1).toNat = (passBit x y 1).toNat*_+(passRest x y 2).toNat at h₂
  change (passRest x y 2).toNat = (passBit x y 2).toNat*_+(passRest x y 3).toNat at h₃
  unfold digits
  rw [h₀,h₁,h₂,h₃]
  ring

theorem addBacks_eq_zero_iff {u v : Word} {a : ℕ} (hu : u.toNat = 2*a) (hv : v.toNat = a)
    (ha : 0 < a) (hfits : 4*a < 2^32) (p q : Bool) :
    (if q then v else 0)+(if p then u else 0) = (0 : Word) ↔ (p || q) = false := by
  have hsum : ((if q then v else 0)+(if p then u else 0)).toNat = q.toNat*a+p.toNat*(2*a) := by
    have hq : (if q then v else 0).toNat = q.toNat*a := by
      cases q
      · exact (Nat.zero_mul a).symm
      · exact hv.trans (Nat.one_mul a).symm
    have hp : (if p then u else 0).toNat = p.toNat*(2*a) := by
      cases p
      · exact (Nat.zero_mul _).symm
      · exact hu.trans (Nat.one_mul _).symm
    have hq' := Nat.mul_le_mul_right a q.toNat_le
    have hp' := Nat.mul_le_mul_right (2*a) p.toNat_le
    rw [BitVec.toNat_add,hq,hp,Nat.mod_eq_of_lt (by omega)]
  constructor
  · intro h
    rw [h] at hsum
    have hz : (0 : Word).toNat = 0 := rfl
    rw [hz] at hsum
    cases p <;> cases q
    · rfl
    all_goals
      rw [Bool.toNat_true] at hsum
      omega
  · intro h
    obtain ⟨rfl,rfl⟩ := Bool.or_eq_false_iff.mp h
    rfl

/-- The early exit from a pass at bit 30 or 31 has the remainder right except for the lost pairs. -/
theorem fixup_top_iff (ha : Aligned x.toNat d k) (hy : y.toNat = d*2^k) (hb : b.toNat = 2^k)
    (hk : 30 ≤ k) (hk' : k < 32) (h0 : passRest x y 3 = 0) :
    fixup (passRest x y 3) y (passNoted x y b) b = 0 ↔ (x.toNat,d) ∉ lostPairs := by
  have hdigits := @pass_digits d k x y hy (by omega)
  have hd : 0 < d := Nat.pos_of_mul_pos_right (Nat.lt_of_le_of_lt (Nat.zero_le _) ha.below)
  have hzero : (passRest x y 3).toNat = 0 := by rw [h0]; rfl
  rw [hzero,Nat.add_zero] at hdigits
  have hlost := lost_iff_digits d (ha.divisor_lt hk) k hk' hk (decide (y ≤ x))
    (passBit x y 0) (passBit x y 1) (passBit x y 2) (by rw [← hdigits]; exact x.isLt)
    (by rwa [← hdigits])
  rw [← hdigits] at hlost
  have h₁ : (y >>> 1).toNat = 2*(d*2^(k-2)) := by
    rw [shifted_right hy (by omega),show k-1 = 1+(k-2) by omega,pow_add]
    ring
  have hfits : 4*(d*2^(k-2)) < 2^32 := by
    have hfull : 4*(d*2^(k-2)) = d*2^k := by
      nth_rewrite 2 [show k = 2+(k-2) by omega]
      rw [pow_add]
      ring
    rw [hfull]
    exact ha.fits
  have hpos : 0 < d*2^(k-2) := Nat.mul_pos hd (Nat.two_pow_pos _)
  rw [fixup_early_top hb hk hk' h0,addBacks_eq_zero_iff h₁ (shifted_right hy (by omega)) hpos hfits,
    ← hlost,decide_eq_false_iff_not]

end Lost

section RemainderLoop

/-- What follows a label of `remainderLoop`, as for the division. -/
def restFrom4 (exit : Label) (tail : Code) : Code := .mov .ip curbit :: (nextPass exit++tail)
def restFrom3 (d exit : Label) (tail : Code) : Code := overdoneBit 3 d++restFrom4 exit tail
def restFrom2 (c d exit : Label) (tail : Code) : Code := overdoneBit 2 c++restFrom3 d exit tail
def restFrom1 (b c d exit : Label) (tail : Code) : Code := overdoneBit 1 b++restFrom2 c d exit tail
def restPass (a b c d exit : Label) (tail : Code) : Code := firstSubtract a++restFrom1 b c d exit tail

structure RemainderLoop (prog : Code) (a b c d exit : Label) (tail out : Code) : Prop where
  loop3 : seek .loop3 prog = some (restPass a b c d exit tail)
  over1 : seek a prog = some (restFrom1 b c d exit tail)
  over2 : seek b prog = some (restFrom2 c d exit tail)
  over3 : seek c prog = some (restFrom3 d exit tail)
  over4 : seek d prog = some (restFrom4 exit tail)
  out : seek exit prog = some out

variable {prog tail out : Code} {link : Word} {la lb lc ld exit : Label} {n d k : ℕ}

/-- One pass: the four tests, and the current bit kept for the fixup. -/
theorem restPass_leads (hl : RemainderLoop prog la lb lc ld exit tail out) (s : Cpu) :
    ∃ r4 f, Leads prog link (.running (restPass la lb lc ld exit tail) s)
      (.running (nextPass exit++tail) { s with
        r0 := passRest s.r0 s.r1 3, r2 := passNoted s.r0 s.r1 s.r3, r4 := r4, ip := s.r3
        flags := f }) := by
  obtain ⟨f₀,h₀⟩ := @firstSubtract_leads prog _ link la hl.over1 s
  obtain ⟨v₁,w₁,f₁,h₁⟩ := @overdoneBit_leads prog _ link lb hl.over2 1 (by omega) (by omega)
    { s with r0 := passRest s.r0 s.r1 0, r2 := 0, flags := f₀ }
  obtain ⟨v₂,w₂,f₂,h₂⟩ := @overdoneBit_leads prog _ link lc hl.over3 2 (by omega) (by omega) _
  obtain ⟨v₃,w₃,f₃,h₃⟩ := @overdoneBit_leads prog _ link ld hl.over4 3 (by omega) (by omega) _
  have hnoted : ∀ o₁ o₂ o₃ : Word,
      o₁ = (if s.r1 >>> 1 ≤ passRest s.r0 s.r1 0 then 0 ||| s.r3.rotateRight 1 else 0) →
      o₂ = (if s.r1 >>> 2 ≤ passRest s.r0 s.r1 1 then o₁ ||| s.r3.rotateRight 2 else o₁) →
      o₃ = (if s.r1 >>> 3 ≤ passRest s.r0 s.r1 2 then o₂ ||| s.r3.rotateRight 3 else o₂) →
      o₃ = passNoted s.r0 s.r1 s.r3 := by
    rintro _ _ _ rfl rfl rfl
    simp only [passNoted,noted,passBit,decide_eq_true_eq]
  have hmov : ∀ t : Cpu, Leads prog link (.running (restFrom4 exit tail) t)
      (.running (nextPass exit++tail) { t with ip := t.r3 }) := fun t => ⟨1,rfl⟩
  have hrun := h₀.trans (h₁.trans (h₂.trans (h₃.trans (hmov _))))
  rw [← hnoted _ _ _ rfl rfl rfl]
  exact ⟨_,_,hrun⟩

/-- From a pass below bit 30 the loop ends where the fixup gives the remainder. -/
theorem remainderLoop_leads (hl : RemainderLoop prog la lb lc ld exit tail out) :
    ∀ (k : ℕ) (s : Cpu), k < 30 → Shifted d k s → Rest n d (k+1) s.r0 →
    ∃ r0 r1 r2 r3 r4 ip f, Leads prog link (.running (restPass la lb lc ld exit tail) s)
      (.running out { s with
        r0 := r0, r1 := r1, r2 := r2, r3 := r3, r4 := r4, ip := ip, flags := f }) ∧
      (fixup r0 r1 r2 ip).toNat = n%d := by
  intro k
  induction k using Nat.strong_induction_on with
  | h k ih =>
    intro s hk hs hrest
    obtain ⟨r4,f,hpass⟩ := @restPass_leads prog tail out link la lb lc ld exit hl s
    have hs' : Shifted d k { s with
        r0 := passRest s.r0 s.r1 3, r2 := passNoted s.r0 s.r1 s.r3, r4 := r4, ip := s.r3
        flags := f } := ⟨hs.divisor,hs.curbit⟩
    obtain ⟨h0,f',hrun⟩ | ⟨-,hk4,f',hrun⟩ | ⟨-,hk4,f',hrun,hs''⟩ :=
      @nextPass_leads prog _ out link d k exit hl.loop3 hl.out tail _ hs'
    · refine ⟨_,_,_,_,_,_,_,hpass.trans hrun,?_⟩
      by_cases hk4 : k < 4
      · exact fixup_last hs.divisor hs.curbit hrest hk4
      · have hzero := @passRest_rest n d k 3 s.r0 s.r1 s.r3 hs.divisor hs.curbit hrest (by omega)
        change passRest s.r0 s.r1 3 = 0 at h0
        rw [h0] at hzero
        rw [hzero.mod_of_zero]
        exact congrArg BitVec.toNat (fixup_early hs.curbit (by omega) hk h0)
    · exact ⟨_,_,_,_,_,_,_,hpass.trans hrun,fixup_last hs.divisor hs.curbit hrest hk4⟩
    · have hrest' := @passRest_rest n d k 3 s.r0 s.r1 s.r3 hs.divisor hs.curbit hrest (by omega)
      rw [show k-3 = k-4+1 by omega] at hrest'
      obtain ⟨_,_,_,_,_,_,_,hloop,hmod⟩ := ih (k-4) (by omega) _ (by omega) hs'' hrest'
      exact ⟨_,_,_,_,_,_,_,hpass.trans (hrun.trans hloop),hmod⟩

/-- From the first pass, wherever it starts. -/
theorem firstPass_leads (hl : RemainderLoop prog la lb lc ld exit tail out) {s : Cpu}
    (ha : Aligned s.r0.toNat d k) (hs : Shifted d k s) :
    ∃ r0 r1 r2 r3 r4 ip f, Leads prog link (.running (restPass la lb lc ld exit tail) s)
      (.running out { s with
        r0 := r0, r1 := r1, r2 := r2, r3 := r3, r4 := r4, ip := ip, flags := f }) ∧
      ((fixup r0 r1 r2 ip).toNat = s.r0.toNat%d ↔ (s.r0.toNat,d) ∉ lostPairs) := by
  have hk32 : k < 32 := (Nat.pow_lt_pow_iff_right (by omega)).mp hs.lt.2
  have hrest : Rest s.r0.toNat d (k+1) s.r0 := ⟨0,Decided.start ha.below⟩
  by_cases hk : k < 30
  · obtain ⟨_,_,_,_,_,_,_,hrun,hmod⟩ := @remainderLoop_leads prog tail out link la lb lc ld exit
      s.r0.toNat d hl k s hk hs hrest
    refine ⟨_,_,_,_,_,_,_,hrun,fun _ hmem => ?_,fun _ => hmod⟩
    have := (lost_top _ hmem k hk32 ha).1
    omega
  have hk30 : 30 ≤ k := by omega
  have hrest' := @passRest_rest _ d k 3 s.r0 s.r1 s.r3 hs.divisor hs.curbit hrest (by omega)
  obtain ⟨r4,f,hpass⟩ := @restPass_leads prog tail out link la lb lc ld exit hl s
  have hs' : Shifted d k { s with
      r0 := passRest s.r0 s.r1 3, r2 := passNoted s.r0 s.r1 s.r3, r4 := r4, ip := s.r3
      flags := f } := ⟨hs.divisor,hs.curbit⟩
  obtain ⟨h0,f',hrun⟩ | ⟨-,hk4,-⟩ | ⟨hne,-,f',hrun,hs''⟩ :=
    @nextPass_leads prog _ out link d k exit hl.loop3 hl.out tail _ hs'
  · refine ⟨_,_,_,_,_,_,_,hpass.trans hrun,?_⟩
    change passRest s.r0 s.r1 3 = 0 at h0
    rw [← fixup_top_iff ha hs.divisor hs.curbit hk30 hk32 h0]
    rw [h0] at hrest'
    rw [hrest'.mod_of_zero]
    exact ⟨fun h => BitVec.eq_of_toNat_eq h,fun h => congrArg BitVec.toNat h⟩
  · omega
  · have hnext := hrest'
    rw [show k-3 = k-4+1 by omega] at hnext
    obtain ⟨_,_,_,_,_,_,_,hloop,hmod⟩ := @remainderLoop_leads prog tail out link la lb lc ld exit
      s.r0.toNat d hl (k-4) _ (by omega) hs'' hnext
    refine ⟨_,_,_,_,_,_,_,hpass.trans (hrun.trans hloop),fun _ hmem => ?_,fun _ => hmod⟩
    exact hne (hrest'.eq_zero_of_dvd (lost_top _ hmem k hk32 ha).2)

end RemainderLoop

section Exit

variable {prog rest tail out : Code} {link : Word} {la lb lc ld exit : Label}

/-- From the alignment of the divisor to the exit of a remainder routine. -/
theorem remainder_leads (ha : Aligns prog rest (restPass la lb lc ld exit tail))
    (hl : RemainderLoop prog la lb lc ld exit tail out) {s : Cpu} (hd : s.r1 ≠ 0) (hb : s.r3 = 1) :
    ∃ r0 r1 r2 r3 r4 ip f, Leads prog link (.running (alignDivisor++rest) s)
      (.running out { s with
        r0 := r0, r1 := r1, r2 := r2, r3 := r3, r4 := r4, ip := ip, flags := f }) ∧
      (fixup r0 r1 r2 ip = s.r0%s.r1 ↔ (s.r0.toNat,s.r1.toNat) ∉ lostPairs) := by
  obtain ⟨k,r1,r3,r4,f,hrun,hs,hlt,hlast,hstop⟩ := @alignDivisor_leads prog rest _ link ha s hd hb
  obtain ⟨_,_,_,_,_,_,_,hloop,hmod⟩ := @firstPass_leads prog tail out link la lb lc ld exit
    s.r1.toNat k hl { s with r1 := r1, r3 := r3, r4 := r4, flags := f } ⟨hs.lt.1,hlt,hlast,hstop⟩ hs
  refine ⟨_,_,_,_,_,_,_,hrun.trans hloop,?_⟩
  rw [← hmod,← BitVec.toNat_umod]
  exact BitVec.toNat_inj.symm

/-- Keep the top three of the noted bits. -/
def maskOverdone : Code := [.movImm work 0xe,.lsl work work 28,.and overdone work]

theorem maskOverdone_leads (code : Code) (s : Cpu) :
    ∃ w, ∃ f : Flags, f.z = decide (s.r2 &&& overdoneMask = 0) ∧
      Leads prog link (.running (maskOverdone++code) s)
        (.running code { s with r2 := s.r2 &&& overdoneMask, r4 := w, flags := f }) := by
  obtain ⟨f₀,hone⟩ : ∃ f, Leads prog link (.running (maskOverdone++code) s)
      (.running (maskOverdone.drop 1++code) { s with r4 := 0xe, flags := f }) := ⟨_,1,rfl⟩
  obtain ⟨f₁,htop⟩ := @lsl_work_leads prog link (maskOverdone.drop 2++code) 28
    { s with r4 := 0xe, flags := f₀ }
  have hand : ∀ w : Word, ∃ f : Flags, f.z = decide (s.r2 &&& w = 0) ∧
      Leads prog link (.running (maskOverdone.drop 2++code) { s with r4 := w, flags := f₁ })
        (.running code { s with r2 := s.r2 &&& w, r4 := w, flags := f }) :=
    fun w => ⟨_,rfl,1,rfl⟩
  obtain ⟨f₂,hz,hmask⟩ := hand overdoneMask
  exact ⟨_,f₂,hz,hone.trans (htop.trans hmask)⟩

/-- The three tests that add back. -/
def addBacks (a b c : Label) (code : Code) : Code := addBack 3 a++(addBack 2 b++(addBack 1 c++code))

structure AddBacks (prog : Code) (a b c : Label) (code : Code) : Prop where
  first : seek a prog = some (addBack 2 b++(addBack 1 c++code))
  second : seek b prog = some (addBack 1 c++code)
  third : seek c prog = some code

theorem addBacks_leads {code : Code} (h : AddBacks prog la lb lc code) {o : Word} {s : Cpu}
    (ho : s.r2 = o &&& overdoneMask) :
    ∃ r3 r4 f, Leads prog link (.running (addBacks la lb lc code) s)
      (.running code { s with r0 := fixup s.r0 s.r1 o s.ip, r3 := r3, r4 := r4, flags := f }) := by
  obtain ⟨v₁,w₁,f₁,h₁⟩ := @addBack_leads prog _ link la h.first 3 (by omega) (by omega) s
  obtain ⟨v₂,w₂,f₂,h₂⟩ := @addBack_leads prog _ link lb h.second 2 (by omega) (by omega)
    { s with r0 := repaired s.r1 s.r2 s.ip 3 s.r0, r3 := v₁, r4 := w₁, flags := f₁ }
  obtain ⟨v₃,w₃,f₃,h₃⟩ := @addBack_leads prog _ link lc h.third 1 (by omega) (by omega)
    { s with
      r0 := repaired s.r1 s.r2 s.ip 2 (repaired s.r1 s.r2 s.ip 3 s.r0)
      r3 := v₂, r4 := w₂, flags := f₂ }
  have hfix : fixup s.r0 s.r1 o s.ip =
      repaired s.r1 s.r2 s.ip 1 (repaired s.r1 s.r2 s.ip 2 (repaired s.r1 s.r2 s.ip 3 s.r0)) := by
    rw [ho]
    rfl
  rw [hfix]
  exact ⟨_,_,_,h₁.trans (h₂.trans h₃)⟩

end Exit

section Unsigned

variable {link : Word}

def umodsi3Tail : Code := .pop work :: .ret :: divideByZero

def umodsi3Out : Code :=
  maskOverdone++(.bne .over7 :: .pop work :: .ret :: .label .over7 ::
    addBacks .over8 .over9 .over10 umodsi3Tail)

theorem umodsi3_aligns : Aligns umodsi3
    (remainderLoop .over2 .over3 .over4 .over5 .over6++(.label .over6 :: umodsi3Out))
    (restPass .over2 .over3 .over4 .over5 .over6 (.label .over6 :: umodsi3Out)) := ⟨rfl,rfl,rfl,rfl⟩

theorem umodsi3_loop : RemainderLoop umodsi3 .over2 .over3 .over4 .over5 .over6
    (.label .over6 :: umodsi3Out) umodsi3Out := ⟨rfl,rfl,rfl,rfl,rfl,rfl⟩

theorem umodsi3_addBacks : AddBacks umodsi3 .over8 .over9 .over10 umodsi3Tail := ⟨rfl,rfl,rfl⟩

/-- The exit of the unsigned remainder, with and without a fixup. -/
theorem umodsi3Out_leads {s t : Cpu} (ht : Inside s t) :
    ∃ s', Leads umodsi3 link (.running umodsi3Out t) (.returned s.lr s') ∧
      s'.r0 = fixup t.r0 t.r1 t.r2 t.ip ∧ s'.r4 = s.r4 ∧ s'.sp = s.sp ∧ s'.div0 = s.div0 := by
  obtain ⟨w,f,hz,hmask⟩ := @maskOverdone_leads umodsi3 link
    (.bne .over7 :: .pop work :: .ret :: .label .over7 :: addBacks .over8 .over9 .over10 umodsi3Tail) t
  by_cases h : t.r2 &&& overdoneMask = 0
  · have hnot : (!f.z) = false := by rw [hz,decide_eq_true h]; rfl
    obtain ⟨s',hrun,hr0,hs'⟩ := @popReturn_leads umodsi3 link s
      { t with r2 := t.r2 &&& overdoneMask, r4 := w, flags := f } ⟨ht.sp,ht.saved,ht.lr,ht.div0⟩
      (.label .over7 :: addBacks .over8 .over9 .over10 umodsi3Tail)
    rw [fixup_of_clear h]
    exact ⟨s',hmask.trans (.trans ⟨1,branch_not_taken hnot _⟩ hrun),hr0,hs'⟩
  · have htaken : (!f.z) = true := by rw [hz,decide_eq_false h]; rfl
    obtain ⟨r3,r4,f',hback⟩ := @addBacks_leads umodsi3 link _ _ _ _ umodsi3_addBacks t.r2
      { t with r2 := t.r2 &&& overdoneMask, r4 := w, flags := f } rfl
    obtain ⟨s',hrun,hr0,hs'⟩ := @popReturn_leads umodsi3 link s
      { t with
        r0 := fixup t.r0 t.r1 t.r2 t.ip, r2 := t.r2 &&& overdoneMask, r3 := r3, r4 := r4
        flags := f' } ⟨ht.sp,ht.saved,ht.lr,ht.div0⟩ divideByZero
    have hseek : seek .over7 umodsi3 = some (addBacks .over8 .over9 .over10 umodsi3Tail) := rfl
    exact ⟨s',hmask.trans (.trans ⟨1,branch_taken hseek htaken _⟩ (hback.trans hrun)),hr0,hs'⟩

theorem mod_of_lt {x y : Word} (h : ¬y ≤ x) : x%y = x := by
  apply BitVec.eq_of_toNat_eq
  rw [BitVec.toNat_umod,Nat.mod_eq_of_lt (Nat.lt_of_not_le (mt BitVec.le_def.mpr h))]

theorem lost_le : ∀ p ∈ lostPairs, p.2 ≤ p.1 := by decide

theorem not_lost_of_lt {x y : Word} (h : ¬y ≤ x) : (x.toNat,y.toNat) ∉ lostPairs :=
  fun hmem => h (BitVec.le_def.mpr (lost_le _ hmem))

/-- The unsigned routine returns, with the remainder except for the lost pairs. -/
theorem umodsi3_returns (link : Word) {s : Cpu} (hd : s.r1 ≠ 0) :
    ∃ v, ReturnsWith umodsi3 link s v ∧ (v = s.r0%s.r1 ↔ (s.r0.toNat,s.r1.toNat) ∉ lostPairs) := by
  have hdz : decide (s.r1 = 0) = false := decide_eq_false hd
  obtain ⟨f,hc,hentry⟩ : ∃ f : Flags, f.c = decide (s.r1 ≤ s.r0) ∧
      Leads umodsi3 link (call umodsi3 s) (.running (umodsi3.drop 4) { s with
        r3 := 1, flags := f }) :=
    ⟨_,rfl,.trans ⟨2,branch_not_taken hdz _⟩ ⟨2,rfl⟩⟩
  by_cases hle : s.r1 ≤ s.r0
  · have hcs : f.c = true := by rw [hc,decide_eq_true hle]
    have hseek : seek .over1 umodsi3 = some (umodsi3.drop 7) := rfl
    have hpush : Leads umodsi3 link (.running (umodsi3.drop 7) { s with r3 := 1, flags := f })
        (.running (umodsi3.drop 8) { s with
          r3 := 1, sp := s.sp-4, mem := Function.update s.mem (s.sp-4) s.r4, flags := f }) := ⟨1,rfl⟩
    obtain ⟨r0,r1,r2,r3,r4,ip,f',hcore,hiff⟩ := @remainder_leads umodsi3 _ _ _ link _ _ _ _ _
      umodsi3_aligns umodsi3_loop { s with
        r3 := 1, sp := s.sp-4, mem := Function.update s.mem (s.sp-4) s.r4, flags := f } hd rfl
    obtain ⟨s',hout,hs'⟩ := @umodsi3Out_leads link s { s with
      r0 := r0, r1 := r1, r2 := r2, r3 := r3, r4 := r4, ip := ip
      sp := s.sp-4, mem := Function.update s.mem (s.sp-4) s.r4, flags := f' }
      ⟨rfl,Function.update_self ..,rfl,rfl⟩
    exact ⟨_,⟨s',hentry.trans (.trans ⟨1,branch_taken hseek hcs _⟩ (hpush.trans (hcore.trans hout))),
      hs'⟩,hiff⟩
  · have hcc : f.c = false := by rw [hc,decide_eq_false hle]
    refine ⟨s.r0,⟨_,hentry.trans (.trans ⟨1,branch_not_taken hcc _⟩ ⟨1,rfl⟩),rfl,rfl,rfl,rfl⟩,?_⟩
    exact ⟨fun _ => not_lost_of_lt hle,fun _ => (mod_of_lt hle).symm⟩

end Unsigned

section Signed

variable {link : Word}

def modsi3Tail : Code := modsi3Exit++divideByZero

def modsi3Out : Code :=
  maskOverdone++(.beq .lgotResult :: addBacks .over8 .over9 .lgotResult modsi3Tail)

theorem modsi3_aligns : Aligns modsi3
    (remainderLoop .over3 .over4 .over5 .over6 .over7++(.label .over7 :: modsi3Out))
    (restPass .over3 .over4 .over5 .over6 .over7 (.label .over7 :: modsi3Out)) := ⟨rfl,rfl,rfl,rfl⟩

theorem modsi3_loop : RemainderLoop modsi3 .over3 .over4 .over5 .over6 .over7
    (.label .over7 :: modsi3Out) modsi3Out := ⟨rfl,rfl,rfl,rfl,rfl,rfl⟩

theorem modsi3_addBacks : AddBacks modsi3 .over8 .over9 .lgotResult modsi3Tail := ⟨rfl,rfl,rfl⟩

/-- The work register and, below it, the dividend with its sign are on the stack. -/
structure InsideSigned (s t : Cpu) : Prop where
  sp : t.sp = s.sp-4-4
  sign : t.mem (s.sp-4-4) = s.r0
  saved : t.mem (s.sp-4) = s.r4
  lr : t.lr = s.lr
  div0 : t.div0 = s.div0

/-- A magnitude with the sign of the dividend. -/
def signed (n v : Word) : Word := if n.msb then -v else v

theorem modsi3Tail_leads {s t : Cpu} (ht : InsideSigned s t) :
    ∃ s', Leads modsi3 link (.running modsi3Tail t) (.returned s.lr s') ∧
      s'.r0 = signed s.r0 t.r0 ∧ s'.r4 = s.r4 ∧ s'.sp = s.sp ∧ s'.div0 = s.div0 := by
  obtain ⟨f,hn,hsign⟩ : ∃ f : Flags, f.n = (t.mem t.sp).msb ∧ Leads modsi3 link
      (.running modsi3Tail t)
      (.running (modsi3Tail.drop 2) { t with r4 := t.mem t.sp, sp := t.sp+4, flags := f }) :=
    ⟨subFlags (t.mem t.sp) 0,subFlags_zero_n _,⟨2,rfl⟩⟩
  rw [ht.sp,ht.sign] at hn hsign
  rw [pop_pushed] at hsign
  unfold signed
  cases h : s.r0.msb with
  | true =>
    have hneg : (!f.n) = false := by rw [hn,h]; rfl
    obtain ⟨f',hnegate⟩ : ∃ f', Leads modsi3 link
        (.running (modsi3Tail.drop 3) { t with r4 := s.r0, sp := s.sp-4, flags := f })
        (.running (modsi3Tail.drop 5) { t with r0 := -t.r0, r4 := s.r0, sp := s.sp-4, flags := f' }) :=
      ⟨_,2,rfl⟩
    obtain ⟨s',hrun,hs'⟩ := @popReturn_leads modsi3 link s
      { t with r0 := -t.r0, r4 := s.r0, sp := s.sp-4, flags := f' } ⟨rfl,ht.saved,ht.lr,ht.div0⟩
      divideByZero
    exact ⟨s',hsign.trans (.trans ⟨1,branch_not_taken hneg _⟩ (hnegate.trans hrun)),hs'⟩
  | false =>
    have hpos : (!f.n) = true := by rw [hn,h]; rfl
    have hseek : seek .over10 modsi3 = some (modsi3Tail.drop 5) := rfl
    obtain ⟨s',hrun,hs'⟩ := @popReturn_leads modsi3 link s
      { t with r4 := s.r0, sp := s.sp-4, flags := f } ⟨rfl,ht.saved,ht.lr,ht.div0⟩ divideByZero
    exact ⟨s',hsign.trans (.trans ⟨1,branch_taken hseek hpos _⟩ hrun),hs'⟩

theorem modsi3Out_leads {s t : Cpu} (ht : InsideSigned s t) :
    ∃ s', Leads modsi3 link (.running modsi3Out t) (.returned s.lr s') ∧
      s'.r0 = signed s.r0 (fixup t.r0 t.r1 t.r2 t.ip) ∧ s'.r4 = s.r4 ∧ s'.sp = s.sp ∧
      s'.div0 = s.div0 := by
  obtain ⟨w,f,hz,hmask⟩ := @maskOverdone_leads modsi3 link
    (.beq .lgotResult :: addBacks .over8 .over9 .lgotResult modsi3Tail) t
  by_cases h : t.r2 &&& overdoneMask = 0
  · have htaken : f.z = true := by rw [hz,decide_eq_true h]
    obtain ⟨s',hrun,hs'⟩ := @modsi3Tail_leads link s
      { t with r2 := t.r2 &&& overdoneMask, r4 := w, flags := f }
      ⟨ht.sp,ht.sign,ht.saved,ht.lr,ht.div0⟩
    rw [fixup_of_clear h]
    exact ⟨s',hmask.trans (.trans ⟨1,branch_taken modsi3_addBacks.third htaken _⟩ hrun),hs'⟩
  · have hnot : f.z = false := by rw [hz,decide_eq_false h]
    obtain ⟨r3,r4,f',hback⟩ := @addBacks_leads modsi3 link _ _ _ _ modsi3_addBacks t.r2
      { t with r2 := t.r2 &&& overdoneMask, r4 := w, flags := f } rfl
    obtain ⟨s',hrun,hs'⟩ := @modsi3Tail_leads link s
      { t with
        r0 := fixup t.r0 t.r1 t.r2 t.ip, r2 := t.r2 &&& overdoneMask, r3 := r3, r4 := r4
        flags := f' } ⟨ht.sp,ht.sign,ht.saved,ht.lr,ht.div0⟩
    exact ⟨s',hmask.trans (.trans ⟨1,branch_not_taken hnot _⟩ (hback.trans hrun)),hs'⟩

/-- Memory with the work register and the dividend pushed. -/
def pushedTwo (s : Cpu) : Word → Word :=
  Function.update (Function.update s.mem (s.sp-4) s.r4) (s.sp-4-4) s.r0

theorem pushedTwo_saved (s : Cpu) : pushedTwo s (s.sp-4) = s.r4 := by
  have hne : s.sp-4 ≠ s.sp-4-4 := by
    generalize s.sp-4 = a
    intro h
    have h' := congrArg BitVec.toNat h
    have hfour : (4 : Word).toNat = 4 := rfl
    have hlt := a.isLt
    rw [BitVec.toNat_sub,hfour] at h'
    omega
  unfold pushedTwo
  rw [Function.update_of_ne hne,Function.update_self]

/-- The state in which the signed routine compares the magnitudes. -/
theorem modsi3Entry_leads {s : Cpu} (hd : s.r1 ≠ 0) :
    ∃ f, Leads modsi3 link (call modsi3 s) (.running (modsi3.drop 12) { s with
      r0 := magnitude s.r0, r1 := magnitude s.r1, r3 := 1, sp := s.sp-4-4, mem := pushedTwo s
      flags := f }) := by
  have hdz : decide (s.r1 = 0) = false := decide_eq_false hd
  obtain ⟨f₀,hn₀,htest₀⟩ : ∃ f : Flags, f.n = s.r1.msb ∧ Leads modsi3 link (call modsi3 s)
      (.running (modsi3.drop 3) { s with r3 := 1, flags := f }) :=
    ⟨subFlags s.r1 0,subFlags_zero_n _,⟨3,branch_not_taken hdz _⟩⟩
  obtain ⟨f₁,hdiv⟩ := @negDivisor_leads modsi3 (modsi3.drop 6) link .over1 rfl
    { s with r3 := 1, flags := f₀ } hn₀
  obtain ⟨f₂,hn₂,htest₂⟩ : ∃ f : Flags, f.n = s.r0.msb ∧ Leads modsi3 link
      (.running (modsi3.drop 6) { s with r1 := magnitude s.r1, r3 := 1, flags := f₁ })
      (.running (modsi3.drop 9) { s with
        r1 := magnitude s.r1, r3 := 1, sp := s.sp-4-4, mem := pushedTwo s, flags := f }) :=
    ⟨subFlags s.r0 0,subFlags_zero_n _,3,rfl⟩
  obtain ⟨f₃,hnum⟩ := @negDividend_leads modsi3 (modsi3.drop 12) link .over2 rfl { s with
    r1 := magnitude s.r1, r3 := 1, sp := s.sp-4-4, mem := pushedTwo s, flags := f₂ } hn₂
  exact ⟨f₃,htest₀.trans (hdiv.trans (htest₂.trans hnum))⟩

/-- The signed routine returns, with the remainder except for the lost pairs of magnitudes. -/
theorem modsi3_returns (link : Word) {s : Cpu} (hd : s.r1 ≠ 0) :
    ∃ v, ReturnsWith modsi3 link s (signed s.r0 v) ∧ (v = magnitude s.r0%magnitude s.r1 ↔
      ((magnitude s.r0).toNat,(magnitude s.r1).toNat) ∉ lostPairs) := by
  obtain ⟨f,hentry⟩ := @modsi3Entry_leads link s hd
  obtain ⟨f',hc,hcmp⟩ : ∃ f' : Flags, f'.c = decide (magnitude s.r1 ≤ magnitude s.r0) ∧
      Leads modsi3 link (.running (modsi3.drop 12) { s with
        r0 := magnitude s.r0, r1 := magnitude s.r1, r3 := 1, sp := s.sp-4-4, mem := pushedTwo s
        flags := f })
      (.running (modsi3.drop 13) { s with
        r0 := magnitude s.r0, r1 := magnitude s.r1, r3 := 1, sp := s.sp-4-4, mem := pushedTwo s
        flags := f' }) := ⟨_,rfl,1,rfl⟩
  by_cases hle : magnitude s.r1 ≤ magnitude s.r0
  · have hcs : (!f'.c) = false := by rw [hc,decide_eq_true hle]; rfl
    obtain ⟨r0,r1,r2,r3,r4,ip,f'',hcore,hiff⟩ := @remainder_leads modsi3 _ _ _ link _ _ _ _ _
      modsi3_aligns modsi3_loop { s with
        r0 := magnitude s.r0, r1 := magnitude s.r1, r3 := 1, sp := s.sp-4-4, mem := pushedTwo s
        flags := f' } (magnitude_ne_zero hd) rfl
    obtain ⟨s',hout,hs'⟩ := @modsi3Out_leads link s { s with
      r0 := r0, r1 := r1, r2 := r2, r3 := r3, r4 := r4, ip := ip
      sp := s.sp-4-4, mem := pushedTwo s, flags := f'' }
      ⟨rfl,Function.update_self ..,pushedTwo_saved s,rfl,rfl⟩
    exact ⟨_,⟨s',hentry.trans (hcmp.trans (.trans ⟨1,branch_not_taken hcs _⟩ (hcore.trans hout))),
      hs'⟩,hiff⟩
  · have hcc : (!f'.c) = true := by rw [hc,decide_eq_false hle]; rfl
    obtain ⟨s',hout,hs'⟩ := @modsi3Tail_leads link s { s with
      r0 := magnitude s.r0, r1 := magnitude s.r1, r3 := 1, sp := s.sp-4-4, mem := pushedTwo s
      flags := f' } ⟨rfl,Function.update_self ..,pushedTwo_saved s,rfl,rfl⟩
    refine ⟨magnitude s.r0,⟨s',hentry.trans (hcmp.trans
      (.trans ⟨1,branch_taken modsi3_addBacks.third hcc _⟩ hout)),hs'⟩,?_⟩
    exact ⟨fun _ => not_lost_of_lt hle,fun _ => (mod_of_lt hle).symm⟩

end Signed

section Remainder

variable {link : Word}

/-- A run ends in one state only. -/
theorem returned_unique {prog : Code} {st : Status Label} {pc pc' : Word} {s s' : Cpu}
    (h : Leads prog link st (.returned pc s)) (h' : Leads prog link st (.returned pc' s')) :
    s = s' := by
  obtain ⟨m,hm⟩ := h
  obtain ⟨n,hn⟩ := h'
  have hboth : run prog link (m+n) st = run prog link (n+m) st := by rw [Nat.add_comm]
  rw [run_add,run_add,hm,hn,run_returned,run_returned] at hboth
  injection hboth

theorem ReturnsWith.unique {prog : Code} {s : Cpu} {v v' : Word} (h : ReturnsWith prog link s v)
    (h' : ReturnsWith prog link s v') : v = v' := by
  obtain ⟨t,hrun,hv,-⟩ := h
  obtain ⟨t',hrun',hv',-⟩ := h'
  rw [← hv,← hv',returned_unique hrun hrun']

theorem srem_eq_signed (x y : Word) : x.srem y = signed x (magnitude x%magnitude y) := by
  rw [BitVec.srem_eq]
  unfold signed magnitude
  cases x.msb <;> cases y.msb <;> rfl

theorem signed_inj {x v w : Word} : signed x v = signed x w ↔ v = w := by
  unfold signed
  cases x.msb with
  | true => exact BitVec.neg_inj
  | false => exact Iff.rfl

/-- What the remainder routines are for: the remainder of the unsigned and of the truncating
division, and with the quotients of the division routines the dividend again. -/
def MeetsRemainder (link : Word) (s : Cpu) : Prop :=
  ∃ uq ur sq sr, ReturnsWith udivsi3 link s uq ∧ ReturnsWith umodsi3 link s ur ∧
    ReturnsWith divsi3 link s sq ∧ ReturnsWith modsi3 link s sr ∧
    ur.toNat = s.r0.toNat%s.r1.toNat ∧ sr.toInt = s.r0.toInt.tmod s.r1.toInt ∧
    s.r0 = uq*s.r1+ur ∧ s.r0 = sq*s.r1+sr

/-- The operands, and their magnitudes, are not among the lost pairs. -/
def Kept (s : Cpu) : Prop :=
  (s.r0.toNat,s.r1.toNat) ∉ lostPairs ∧
    ((magnitude s.r0).toNat,(magnitude s.r1).toNat) ∉ lostPairs

theorem udiv_umod_sum (x y : Word) : x = x/y*y+x%y := by
  apply BitVec.eq_of_toNat_eq
  have hsum := Nat.div_add_mod' x.toNat y.toNat
  rw [BitVec.toNat_add,BitVec.toNat_mul,BitVec.toNat_udiv,BitVec.toNat_umod,Nat.mod_add_mod,hsum,
    Nat.mod_eq_of_lt x.isLt]

theorem sdiv_srem_sum (x y : Word) : x = x.sdiv y*y+x.srem y := by
  have hrem : x.srem y = BitVec.ofInt 32 (x.toInt.tmod y.toInt) := by
    rw [← BitVec.toInt_srem,BitVec.ofInt_toInt]
  have hmul : x.sdiv y*y = BitVec.ofInt 32 (x.toInt.tdiv y.toInt*y.toInt) := by
    rw [BitVec.ofInt_mul,BitVec.ofInt_toInt,← sdiv_eq_tdiv]
  rw [hrem,hmul,← BitVec.ofInt_add,Int.tdiv_mul_add_tmod,BitVec.ofInt_toInt]

/-- 32-bit remainders: both routines return, and with the right value exactly when the operands are
not lost. -/
theorem remainder32 (link : Word) (s : Cpu) (hd : s.r1 ≠ 0) :
    (∃ ur, ReturnsWith umodsi3 link s ur) ∧ (∃ sr, ReturnsWith modsi3 link s sr) ∧
      (MeetsRemainder link s ↔ Kept s) := by
  obtain ⟨u,hu,huiff⟩ := umodsi3_returns link hd
  obtain ⟨v,hv,hviff⟩ := modsi3_returns link hd
  refine ⟨⟨u,hu⟩,⟨_,hv⟩,?_,?_⟩
  · rintro ⟨uq,ur,sq,sr,-,hur,-,hsr,hmod,htmod,-⟩
    constructor
    · rw [← huiff,hu.unique hur]
      apply BitVec.eq_of_toNat_eq
      rw [hmod,BitVec.toNat_umod]
    · rw [← hviff,← @signed_inj s.r0,hv.unique hsr,← srem_eq_signed]
      apply BitVec.eq_of_toInt_eq
      rw [htmod,BitVec.toInt_srem]
  · rintro ⟨hku,hks⟩
    have hrem : signed s.r0 v = s.r0.srem s.r1 := by
      rw [srem_eq_signed,signed_inj]
      exact hviff.mpr hks
    rw [hrem] at hv
    rw [huiff.mpr hku] at hu
    exact ⟨_,_,_,_,udivsi3_returns hd link,hu,divsi3_returns hd link,hv,BitVec.toNat_umod,
      BitVec.toInt_srem ..,udiv_umod_sum ..,sdiv_srem_sum ..⟩

theorem remainder32_small : MeetsRemainder 0 (callState 17 5) :=
  (remainder32 0 (callState 17 5) (by decide)).2.2.mpr ⟨by decide,by decide⟩

/-- The remainder of `0xc0000000` by one is not zero. -/
theorem umodsi3_lost :
    ¬∀ (link : Word) (s : Cpu), s.r1 ≠ 0 → MeetsRemainder link s := by
  intro h
  obtain ⟨uq,ur,sq,sr,-,hur,-,-,hmod,-⟩ := h 0 (callState 0xc0000000 1) (by decide)
  obtain ⟨u,hu,huiff⟩ := @umodsi3_returns 0 (callState 0xc0000000 1) (by decide)
  have hright : u = (callState 0xc0000000 1).r0%(callState 0xc0000000 1).r1 := by
    rw [hu.unique hur]
    apply BitVec.eq_of_toNat_eq
    rw [hmod,BitVec.toNat_umod]
  exact huiff.mp hright (by decide)

end Remainder

end Divide
end Thumb
end AgbTools
