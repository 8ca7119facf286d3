import Mathlib.Tactic.Ring
import Mathlib.Tactic.Linarith

/-! The 64-bit helpers of libgcc2.c and the double-word macros of longlong.h. A shift by a count
outside `0..31` and a division by zero are undefined in the source and give `none` here. -/
namespace AgbTools
namespace LibGcc

abbrev SI := BitVec 32
abbrev DI := BitVec 64

/-- `DIunion`: a double word seen as its two halves. -/
structure DIunion where
  low : SI
  high : SI
deriving DecidableEq, Repr

def DIunion.ofLl (u : DI) : DIunion := { low := u.setWidth 32, high := u.extractLsb' 32 32 }
def DIunion.ll (w : DIunion) : DI := w.high ++ w.low

def shl (x : SI) (n : ℤ) : Option SI := if 0 ≤ n ∧ n < 32 then some (x <<< n.toNat) else none
def lshr (x : SI) (n : ℤ) : Option SI := if 0 ≤ n ∧ n < 32 then some (x >>> n.toNat) else none
def ashr (x : SI) (n : ℤ) : Option SI :=
  if 0 ≤ n ∧ n < 32 then some (x.sshiftRight n.toNat) else none

def div (x y : SI) : Option SI := if y = 0 then none else some (x/y)
def rem (x y : SI) : Option SI := if y = 0 then none else some (x%y)

/-- A comparison as the integer it is in C. -/
def flag (p : Prop) [Decidable p] : SI := if p then 1 else 0

section LongLong

/-- `__ll_B` -/
def llB : SI := 0x10000
def llLowpart (t : SI) : SI := t % llB
def llHighpart (t : SI) : SI := t / llB

/-- High and low word of the difference. -/
def subDdmmss (ah al bh bl : SI) : SI × SI :=
  let x := al-bl
  (ah-bh-flag (x > al),x)

/-- High and low word of the product. -/
def umulPpmm (u v : SI) : SI × SI :=
  let ul := llLowpart u
  let uh := llHighpart u
  let vl := llLowpart v
  let vh := llHighpart v
  let x0 := ul*vl
  let x1 := ul*vh
  let x2 := uh*vl
  let x3 := uh*vh
  let x1 := x1+llHighpart x0
  let x1 := x1+x2
  let x3 := if x1 < x2 then x3+llB else x3
  (x3+llHighpart x1,llLowpart x1*llB+llLowpart x0)

def umulsidi3 (u v : SI) : DI :=
  let w := umulPpmm u v
  DIunion.ll { high := w.1, low := w.2 }

/-- The corrections of an estimated quotient digit: at most two, and none after a carry. -/
def udivQrnndCorrect (q r m d : SI) : SI × SI :=
  if r < m then
    let q := q-1
    let r := r+d
    if r ≥ d then
      if r < m then (q-1,r+d) else (q,r)
    else (q,r)
  else (q,r)

/-- One half-word digit of `udiv_qrnnd`: the estimate by the high half of the divisor, its
corrections, and the remainder the next digit starts from. -/
def udivQrnndDigit (n digit d : SI) : Option (SI × SI) := do
  let d1 := llHighpart d
  let d0 := llLowpart d
  let r ← rem n d1
  let q ← div n d1
  let m := q*d0
  let r := r*llB ||| digit
  let w := udivQrnndCorrect q r m d
  return (w.1,w.2-m)

/-- Quotient and remainder of the double word by a normalized divisor. -/
def udivQrnnd (n1 n0 d : SI) : Option (SI × SI) := do
  let (q1,r1) ← udivQrnndDigit n1 (llHighpart n0) d
  let (q0,r0) ← udivQrnndDigit r1 (llLowpart n0) d
  return (q1*llB ||| q0,r0)

def clzTab : List ℕ :=
  [0,1,2,2,3,3,3,3,4,4,4,4,4,4,4,4]++List.replicate 16 5++List.replicate 32 6++
    List.replicate 64 7++List.replicate 128 8

def countLeadingZeros (x : SI) : Option SI := do
  let a : SI :=
    if x < (1 : SI) <<< 16 then if x < (1 : SI) <<< 8 then 0 else 8
    else if x < (1 : SI) <<< 24 then 16 else 24
  let i ← lshr x a.toNat
  let t ← clzTab[i.toNat]?
  return 32-(BitVec.ofNat 32 t+a)

end LongLong

section Helpers

def negdi2 (u : DI) : DI :=
  let uu := DIunion.ofLl u
  let low := -uu.low
  DIunion.ll { low := low, high := -uu.high-flag (low > 0) }

def lshrdi3 (u : DI) (b : ℤ) : Option DI := do
  if b = 0 then return u
  let uu := DIunion.ofLl u
  let bm := 32-b
  if bm ≤ 0 then
    return DIunion.ll { high := 0, low := ← lshr uu.high (-bm) }
  else
    let carries ← shl uu.high bm
    return DIunion.ll { high := ← lshr uu.high b, low := (← lshr uu.low b) ||| carries }

def ashldi3 (u : DI) (b : ℤ) : Option DI := do
  if b = 0 then return u
  let uu := DIunion.ofLl u
  let bm := 32-b
  if bm ≤ 0 then
    return DIunion.ll { low := 0, high := ← shl uu.low (-bm) }
  else
    let carries ← lshr uu.low bm
    return DIunion.ll { low := ← shl uu.low b, high := (← shl uu.high b) ||| carries }

def ashrdi3 (u : DI) (b : ℤ) : Option DI := do
  if b = 0 then return u
  let uu := DIunion.ofLl u
  let bm := 32-b
  if bm ≤ 0 then
    return DIunion.ll { high := ← ashr uu.high 31, low := ← ashr uu.high (-bm) }
  else
    let carries ← shl uu.high bm
    return DIunion.ll { high := ← ashr uu.high b, low := (← lshr uu.low b) ||| carries }

def muldi3 (u v : DI) : DI :=
  let uu := DIunion.ofLl u
  let vv := DIunion.ofLl v
  let w := DIunion.ofLl (umulsidi3 uu.low vv.low)
  DIunion.ll { w with high := w.high+(uu.low*vv.high+uu.high*vv.low) }

def cmpdi2 (a b : DI) : ℤ :=
  let au := DIunion.ofLl a
  let bu := DIunion.ofLl b
  if au.high.slt bu.high then 0
  else if bu.high.slt au.high then 2
  else if au.low < bu.low then 0
  else if au.low > bu.low then 2
  else 1

def ucmpdi2 (a b : DI) : ℤ :=
  let au := DIunion.ofLl a
  let bu := DIunion.ofLl b
  if au.high < bu.high then 0
  else if au.high > bu.high then 2
  else if au.low < bu.low then 0
  else if au.low > bu.low then 2
  else 1

end Helpers

section Halves

variable (u v : DI)

theorem low_toNat : (DIunion.ofLl u).low.toNat = u.toNat%2^32 := by simp [DIunion.ofLl]

theorem high_toNat : (DIunion.ofLl u).high.toNat = u.toNat/2^32 := by
  have := u.isLt
  simp only [DIunion.ofLl,BitVec.extractLsb'_toNat,Nat.shiftRight_eq_div_pow]
  omega

theorem ll_toNat (w : DIunion) : w.ll.toNat = w.high.toNat*2^32+w.low.toNat := by
  rw [DIunion.ll,BitVec.toNat_append,Nat.shiftLeft_eq,Nat.mul_comm,
    Nat.two_pow_add_eq_or_of_lt w.low.isLt]

@[simp] theorem ofLl_ll (w : DIunion) : DIunion.ofLl w.ll = w := by
  have hlow := w.low.isLt
  have hhigh := w.high.isLt
  have h1 : (DIunion.ofLl w.ll).low = w.low := by
    apply BitVec.eq_of_toNat_eq
    rw [low_toNat,ll_toNat]
    omega
  have h2 : (DIunion.ofLl w.ll).high = w.high := by
    apply BitVec.eq_of_toNat_eq
    rw [high_toNat,ll_toNat]
    omega
  cases w
  exact congrArg₂ DIunion.mk h1 h2

theorem low_getLsbD (i : ℕ) : (DIunion.ofLl u).low.getLsbD i = (decide (i < 32) && u.getLsbD i) := by
  simp [DIunion.ofLl]

theorem high_getLsbD (i : ℕ) :
    (DIunion.ofLl u).high.getLsbD i = (decide (i < 32) && u.getLsbD (32+i)) := by
  simp [DIunion.ofLl]

theorem ll_getLsbD (w : DIunion) (i : ℕ) :
    w.ll.getLsbD i = if i < 32 then w.low.getLsbD i else w.high.getLsbD (i-32) := by
  simp only [DIunion.ll,BitVec.getLsbD_append]

end Halves

theorem shl_eq {x : SI} {n : ℕ} (h : n < 32) : shl x n = some (x <<< n) := by
  unfold shl
  rw [if_pos (by omega),Int.toNat_natCast]

theorem lshr_eq {x : SI} {n : ℕ} (h : n < 32) : lshr x n = some (x >>> n) := by
  unfold lshr
  rw [if_pos (by omega),Int.toNat_natCast]

theorem ashr_eq {x : SI} {n : ℕ} (h : n < 32) : ashr x n = some (x.sshiftRight n) := by
  unfold ashr
  rw [if_pos (by omega),Int.toNat_natCast]

theorem negdi2_eq (u : DI) : negdi2 u = -u := by
  apply BitVec.eq_of_toNat_eq
  have hu := u.isLt
  simp only [negdi2,ll_toNat,flag,BitVec.toNat_neg,BitVec.toNat_sub,low_toNat,high_toNat,gt_iff_lt,
    BitVec.lt_def]
  split
  · rename_i h
    simp at *
    omega
  · rename_i h
    simp at *
    omega

theorem lshrdi3_eq (u : DI) {b : ℕ} (hb : b < 64) : lshrdi3 u b = some (u >>> b) := by
  unfold lshrdi3
  by_cases h0 : b = 0
  · simp [h0]
  by_cases hlow : b < 32
  · have hbm : (32-(b : ℤ)) = ((32-b : ℕ) : ℤ) := by omega
    rw [if_neg (by omega)]
    simp only [hbm]
    rw [if_neg (by omega),shl_eq (by omega),lshr_eq hlow,lshr_eq hlow]
    apply congrArg some
    apply BitVec.eq_of_getLsbD_eq
    intro i hi
    simp only [ll_getLsbD,BitVec.getLsbD_or,BitVec.getLsbD_ushiftRight,BitVec.getLsbD_shiftLeft,
      low_getLsbD,high_getLsbD]
    by_cases hi32 : i < 32 <;> by_cases hc : b+i < 32 <;> grind
  · have hbm : -(32-(b : ℤ)) = ((b-32 : ℕ) : ℤ) := by omega
    rw [if_neg (by omega)]
    simp only [hbm]
    rw [if_pos (by omega),lshr_eq (by omega)]
    apply congrArg some
    apply BitVec.eq_of_getLsbD_eq
    intro i hi
    simp only [ll_getLsbD,BitVec.getLsbD_ushiftRight,high_getLsbD]
    by_cases hi32 : i < 32 <;> by_cases hc : b+i < 32 <;> grind

theorem ashldi3_eq (u : DI) {b : ℕ} (hb : b < 64) : ashldi3 u b = some (u <<< b) := by
  unfold ashldi3
  by_cases h0 : b = 0
  · simp [h0]
  by_cases hlow : b < 32
  · have hbm : (32-(b : ℤ)) = ((32-b : ℕ) : ℤ) := by omega
    rw [if_neg (by omega)]
    simp only [hbm]
    rw [if_neg (by omega),lshr_eq (by omega),shl_eq hlow,shl_eq hlow]
    apply congrArg some
    apply BitVec.eq_of_getLsbD_eq
    intro i hi
    simp only [ll_getLsbD,BitVec.getLsbD_or,BitVec.getLsbD_ushiftRight,BitVec.getLsbD_shiftLeft,
      low_getLsbD,high_getLsbD]
    by_cases hi32 : i < 32 <;> by_cases hc : b+i < 32 <;> grind
  · have hbm : -(32-(b : ℤ)) = ((b-32 : ℕ) : ℤ) := by omega
    rw [if_neg (by omega)]
    simp only [hbm]
    rw [if_pos (by omega),shl_eq (by omega)]
    apply congrArg some
    apply BitVec.eq_of_getLsbD_eq
    intro i hi
    simp only [ll_getLsbD,BitVec.getLsbD_shiftLeft,low_getLsbD]
    by_cases hi32 : i < 32 <;> by_cases hc : b+i < 32 <;> grind

theorem ashrdi3_eq (u : DI) {b : ℕ} (hb : b < 64) : ashrdi3 u b = some (u.sshiftRight b) := by
  have hmsb : (DIunion.ofLl u).high.msb = u.msb := by
    rw [BitVec.msb_eq_getLsbD_last,BitVec.msb_eq_getLsbD_last,high_getLsbD]
    rfl
  unfold ashrdi3
  by_cases h0 : b = 0
  · simp [h0]
  by_cases hlow : b < 32
  · have hbm : (32-(b : ℤ)) = ((32-b : ℕ) : ℤ) := by omega
    rw [if_neg (by omega)]
    simp only [hbm]
    rw [if_neg (by omega),shl_eq (by omega),lshr_eq hlow,ashr_eq hlow]
    apply congrArg some
    apply BitVec.eq_of_getLsbD_eq
    intro i hi
    simp only [ll_getLsbD,BitVec.getLsbD_or,BitVec.getLsbD_ushiftRight,BitVec.getLsbD_shiftLeft,
      BitVec.getLsbD_sshiftRight,low_getLsbD,high_getLsbD,hmsb]
    by_cases hi32 : i < 32 <;> by_cases hc : b+i < 32 <;> grind
  · have hbm : -(32-(b : ℤ)) = ((b-32 : ℕ) : ℤ) := by omega
    rw [if_neg (by omega)]
    simp only [hbm]
    have h31 : ashr (DIunion.ofLl u).high 31 = some ((DIunion.ofLl u).high.sshiftRight 31) :=
      ashr_eq (n := 31) (by omega)
    rw [if_pos (by omega),h31,ashr_eq (by omega)]
    apply congrArg some
    apply BitVec.eq_of_getLsbD_eq
    intro i hi
    simp only [ll_getLsbD,BitVec.getLsbD_sshiftRight,high_getLsbD,hmsb]
    by_cases hi32 : i < 32 <;> by_cases hc : b+i < 32 <;> grind [BitVec.msb_eq_getLsbD_last]

section Multiply

theorem lowpart_toNat (t : SI) : (llLowpart t).toNat = t.toNat%2^16 := by
  rw [llLowpart,BitVec.toNat_umod]
  rfl

theorem highpart_toNat (t : SI) : (llHighpart t).toNat = t.toNat/2^16 := by
  rw [llHighpart,BitVec.toNat_udiv]
  rfl

/-- The product of two halves fits in a word. -/
theorem half_mul {a b : SI} (ha : a.toNat ≤ 2^16-1) (hb : b.toNat ≤ 2^16-1) :
    (a*b).toNat = a.toNat*b.toNat ∧ (a*b).toNat ≤ (2^16-1)*(2^16-1) := by
  have hle := Nat.mul_le_mul ha hb
  have hmul : (a*b).toNat = a.toNat*b.toNat := by
    rw [BitVec.toNat_mul]
    exact Nat.mod_eq_of_lt (by omega)
  exact ⟨hmul,hmul ▸ hle⟩

/-- The two words make up the product; the carry of the middle sum is not lost. -/
theorem umulPpmm_toNat (u v : SI) :
    (umulPpmm u v).1.toNat*2^32+(umulPpmm u v).2.toNat = u.toNat*v.toNat := by
  have hlow (x : SI) : (llLowpart x).toNat ≤ 2^16-1 := by
    rw [lowpart_toNat]
    omega
  have hhigh (x : SI) : (llHighpart x).toNat ≤ 2^16-1 := by
    rw [highpart_toNat]
    omega
  have hsplit (x : SI) : x.toNat = 2^16*(llHighpart x).toNat+(llLowpart x).toNat := by
    rw [lowpart_toNat,highpart_toNat]
    omega
  obtain ⟨hx0,h0⟩ := half_mul (hlow u) (hlow v)
  obtain ⟨hx1,h1⟩ := half_mul (hlow u) (hhigh v)
  obtain ⟨hx2,h2⟩ := half_mul (hhigh u) (hlow v)
  obtain ⟨hx3,h3⟩ := half_mul (hhigh u) (hhigh v)
  have hprod : u.toNat*v.toNat = (llLowpart u*llLowpart v).toNat+
      2^16*((llLowpart u*llHighpart v).toNat+(llHighpart u*llLowpart v).toNat)+
      2^32*(llHighpart u*llHighpart v).toNat := by
    rw [hx0,hx1,hx2,hx3,hsplit u,hsplit v]
    ring
  have hB : llB.toNat = 2^16 := rfl
  rw [hprod]
  simp only [umulPpmm]
  generalize llLowpart u*llLowpart v = x0 at *
  generalize llLowpart u*llHighpart v = x1 at *
  generalize llHighpart u*llLowpart v = x2 at *
  generalize llHighpart u*llHighpart v = x3 at *
  clear hlow hhigh hsplit hprod hx0 hx1 hx2 hx3
  -- the first sum has no carry
  have hmid : (x1+llHighpart x0).toNat = x1.toNat+x0.toNat/2^16 := by
    rw [BitVec.toNat_add,highpart_toNat]
    omega
  have hsum : (x1+llHighpart x0+x2).toNat = (x1.toNat+x0.toNat/2^16+x2.toNat)%2^32 := by
    rw [BitVec.toNat_add,hmid]
  generalize x1+llHighpart x0+x2 = s at *
  have hlow : (llLowpart s*llB+llLowpart x0).toNat = s.toNat%2^16*2^16+x0.toNat%2^16 := by
    rw [BitVec.toNat_add,BitVec.toNat_mul,lowpart_toNat,lowpart_toNat,hB]
    omega
  rw [hlow,BitVec.toNat_add,highpart_toNat]
  clear hlow hmid
  have hs := s.isLt
  split
  · rename_i h
    rw [BitVec.lt_def] at h
    rw [BitVec.toNat_add,hB]
    omega
  · rename_i h
    rw [BitVec.lt_def] at h
    omega

theorem muldi3_eq (u v : DI) : muldi3 u v = u*v := by
  apply BitVec.eq_of_toNat_eq
  have hpp := umulPpmm_toNat (DIunion.ofLl u).low (DIunion.ofLl v).low
  simp only [muldi3,umulsidi3,ofLl_ll,ll_toNat,BitVec.toNat_add,BitVec.toNat_mul]
  have hprod : u.toNat*v.toNat = (DIunion.ofLl u).low.toNat*(DIunion.ofLl v).low.toNat+
      2^32*((DIunion.ofLl u).low.toNat*(DIunion.ofLl v).high.toNat+
        (DIunion.ofLl u).high.toNat*(DIunion.ofLl v).low.toNat)+
      2^64*((DIunion.ofLl u).high.toNat*(DIunion.ofLl v).high.toNat) := by
    rw [low_toNat,low_toNat,high_toNat,high_toNat]
    nth_rewrite 1 [← Nat.div_add_mod u.toNat (2^32),← Nat.div_add_mod v.toNat (2^32)]
    ring
  rw [hprod,← hpp]
  generalize umulPpmm (DIunion.ofLl u).low (DIunion.ofLl v).low = w
  generalize (DIunion.ofLl u).low.toNat*(DIunion.ofLl v).high.toNat = x
  generalize (DIunion.ofLl u).high.toNat*(DIunion.ofLl v).low.toNat = y
  generalize (DIunion.ofLl u).high.toNat*(DIunion.ofLl v).high.toNat = z
  have hhigh := w.1.isLt
  have hlow := w.2.isLt
  clear hpp hprod
  rw [← Nat.add_mod,Nat.add_mod_mod]
  omega

end Multiply

section Compare

theorem toInt_eq (u : DI) :
    u.toInt = (DIunion.ofLl u).high.toInt*2^32+(DIunion.ofLl u).low.toNat := by
  have hu := u.isLt
  rw [BitVec.toInt_eq_toNat_cond,BitVec.toInt_eq_toNat_cond,low_toNat,high_toNat]
  split <;> split <;> omega

theorem cmpdi2_eq (a b : DI) :
    cmpdi2 a b = if a.toInt < b.toInt then 0 else if a.toInt = b.toInt then 1 else 2 := by
  have ha := (DIunion.ofLl a).low.isLt
  have hb := (DIunion.ofLl b).low.isLt
  rw [toInt_eq,toInt_eq]
  simp only [cmpdi2,BitVec.slt,decide_eq_true_eq,gt_iff_lt,BitVec.lt_def]
  split_ifs <;> omega

theorem ucmpdi2_eq (a b : DI) :
    ucmpdi2 a b = if a < b then 0 else if a = b then 1 else 2 := by
  have ha := (DIunion.ofLl a).low.isLt
  have hb := (DIunion.ofLl b).low.isLt
  have hab : a = b ↔ a.toNat = b.toNat := BitVec.toNat_inj.symm
  simp only [hab,ucmpdi2,gt_iff_lt,BitVec.lt_def,low_toNat,high_toNat]
  split_ifs <;> omega

end Compare

/-- The 64-bit helpers compute what their names say, and no shift in them is undefined. -/
theorem helper_arithmetic (u v : DI) :
    muldi3 u v = u*v ∧ negdi2 u = -u ∧
    (∀ b : ℕ, b < 64 → ashldi3 u b = some (u <<< b) ∧ lshrdi3 u b = some (u >>> b) ∧
      ashrdi3 u b = some (u.sshiftRight b)) ∧
    cmpdi2 u v = (if u.toInt < v.toInt then 0 else if u.toInt = v.toInt then 1 else 2) ∧
    ucmpdi2 u v = (if u < v then 0 else if u = v then 1 else 2) := by
  refine ⟨muldi3_eq u v,negdi2_eq u,?_,cmpdi2_eq u v,ucmpdi2_eq u v⟩
  intro b hb
  exact ⟨ashldi3_eq u hb,lshrdi3_eq u hb,ashrdi3_eq u hb⟩

theorem helper_arithmetic_shift :
    33 < 64 ∧ ashrdi3 0x8000000000000000 33 = some 0xffffffffc0000000 :=
  ⟨by decide,((helper_arithmetic 0x8000000000000000 0).2.2.1 33 (by decide)).2.2⟩

end LibGcc
end AgbTools
