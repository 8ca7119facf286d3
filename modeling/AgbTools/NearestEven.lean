import Mathlib.Algebra.Order.Field.Basic
import Mathlib.Algebra.Order.Floor.Semiring
import Mathlib.Algebra.Ring.Parity
import Mathlib.Order.Monotone.Basic
import Mathlib.Tactic.Linarith
import Mathlib.Tactic.Ring

/-! Rounding to the nearest point of a grid, ties to even: what has to be known of a number to round
it, and how a sticky bit stands for what a shift has lost. -/
namespace AgbTools
namespace Nearest

section Grid

variable {K : Type*} [Field K] [LinearOrder K] [IsStrictOrderedRing K] {v : ℕ → K} {x : K} {m : ℕ}

/-- The grid point nearest to a number; of two that are equally near it is the even one. -/
structure NearestEven (v : ℕ → K) (x : K) (m : ℕ) : Prop where
  nearest : ∀ k, |x-v m| ≤ |x-v k|
  even : ∀ k, k ≠ m → |x-v k| = |x-v m| → Even m

theorem abs_below (hv : StrictMono v) {k : ℕ} (hk : k ≤ m) (hx : v m ≤ x) : |x-v k| = x-v k :=
  abs_of_nonneg (sub_nonneg.mpr ((hv.monotone hk).trans hx))

theorem abs_above (hv : StrictMono v) {k : ℕ} (hk : m ≤ k) (hx : x ≤ v m) : |x-v k| = v k-x := by
  rw [abs_sub_comm]
  exact abs_of_nonneg (sub_nonneg.mpr (hx.trans (hv.monotone hk)))

/-- Between two neighbours the lower one is taken in the lower half. -/
theorem nearestEven_low (hv : StrictMono v) (hlow : v m ≤ x) (hhalf : x-v m ≤ v (m+1)-x)
    (htie : x-v m = v (m+1)-x → Even m) : NearestEven v x m := by
  have hhigh : x ≤ v (m+1) := by linarith
  have hm := abs_below hv (Nat.le_refl m) hlow
  constructor
  · intro k
    rw [hm]
    rcases Nat.lt_or_ge m k with hk | hk
    · rw [abs_above hv hk hhigh]
      have := hv.monotone (show m+1 ≤ k from hk)
      linarith
    · rw [abs_below hv hk hlow]
      have := hv.monotone hk
      linarith
  · intro k hne heq
    rw [hm] at heq
    rcases Nat.lt_or_gt_of_ne hne with hk | hk
    · rw [abs_below hv hk.le hlow] at heq
      have := hv hk
      linarith
    · rw [abs_above hv hk hhigh] at heq
      have := hv.monotone (show m+1 ≤ k from hk)
      exact htie (le_antisymm hhalf (by linarith))

theorem nearestEven_high (hv : StrictMono v) (hhigh : x ≤ v (m+1)) (hhalf : v (m+1)-x ≤ x-v m)
    (htie : v (m+1)-x = x-v m → Even (m+1)) : NearestEven v x (m+1) := by
  have hlow : v m ≤ x := by linarith
  have hm := abs_above hv (Nat.le_refl (m+1)) hhigh
  constructor
  · intro k
    rw [hm]
    rcases Nat.lt_or_ge m k with hk | hk
    · rw [abs_above hv hk hhigh]
      have := hv.monotone (show m+1 ≤ k from hk)
      linarith
    · rw [abs_below hv hk hlow]
      have := hv.monotone hk
      linarith
  · intro k hne heq
    rw [hm] at heq
    rcases Nat.lt_or_ge m k with hk | hk
    · rw [abs_above hv hk hhigh] at heq
      have := hv (show m+1 < k by omega)
      linarith
    · rw [abs_below hv hk hlow] at heq
      have := hv.monotone hk
      exact htie (le_antisymm hhalf (by linarith))

theorem nearestEven_self (hv : StrictMono v) (m : ℕ) : NearestEven v (v m) m := by
  constructor
  · intro k
    rw [sub_self,abs_zero]
    exact abs_nonneg _
  · intro k hne heq
    rw [sub_self,abs_zero,abs_eq_zero,sub_eq_zero] at heq
    exact absurd (hv.injective heq).symm hne

/-- Of two equally near points that are both even the one between them would be nearer. -/
theorem NearestEven.unique (hv : StrictMono v) {k : ℕ} (h : NearestEven v x m)
    (h' : NearestEven v x k) : m = k := by
  have hle : ∀ {i j : ℕ}, NearestEven v x i → NearestEven v x j → j ≤ i := by
    intro i j hi hj
    by_contra hlt
    rw [not_le] at hlt
    have hdist := le_antisymm (hi.nearest j) (hj.nearest i)
    have heven := hi.even j hlt.ne' hdist.symm
    have heven' := hj.even i hlt.ne hdist
    have hmid : i+1 < j := by
      obtain ⟨a,rfl⟩ := heven
      obtain ⟨b,rfl⟩ := heven'
      omega
    have hlow := hv (Nat.lt_succ_self i)
    have hhigh := hv hmid
    have hnear := hi.nearest (i+1)
    rcases abs_cases (x-v i) with ⟨hi',_⟩ | ⟨hi',_⟩ <;> rcases abs_cases (x-v j) with ⟨hj',_⟩ | ⟨hj',_⟩ <;>
      rcases abs_cases (x-v (i+1)) with ⟨hk',_⟩ | ⟨hk',_⟩ <;> rw [Nat.succ_eq_add_one] at hlow <;> linarith
  exact le_antisymm (hle h' h) (hle h h')

theorem eq_of_nearestEven (hv : StrictMono v) {k : ℕ} (h : NearestEven v (v m) k) : k = m :=
  h.unique hv (nearestEven_self hv m)

/-- `n` is a number over the step `G` to the nearest, ties to even. -/
def RoundsTo (G : ℕ) (y : K) (n : ℕ) : Prop :=
  ∃ q : ℕ, (q*G ≤ y ∧ y < (q+1)*G) ∧
    ((n = q ∧ (2*(y-q*G) < G ∨ 2*(y-q*G) = G ∧ Even q)) ∨
      (n = q+1 ∧ (G < 2*(y-q*G) ∨ 2*(y-q*G) = G ∧ Odd q)))

/-- Where the grid has the step `G`, rounding to a multiple of the step is rounding on the grid. -/
theorem RoundsTo.nearestEven (hv : StrictMono v) {G n base lo hi : ℕ} {y s : K} (hs : 0 < s)
    (hbase : Even base) (hgrid : ∀ j, lo ≤ j → j ≤ hi → v (base+j) = j*G*s) (hlo : lo*G ≤ y)
    (hhi : y < hi*G) (h : RoundsTo G y n) : NearestEven v (y*s) (base+n) := by
  obtain ⟨q,⟨hq,hq'⟩,hn⟩ := h
  have hG : (0 : K) < G := by
    by_contra hneg
    have : (G : K) = 0 := le_antisymm (not_lt.mp hneg) (Nat.cast_nonneg G)
    rw [this] at hq hq'
    linarith
  have hlow : lo ≤ q := by
    have : (lo : K) < q+1 := lt_of_mul_lt_mul_right (hlo.trans_lt hq') hG.le
    exact_mod_cast Nat.lt_succ_iff.mp (by exact_mod_cast this)
  have hhigh : q+1 ≤ hi := by
    have : (q : K) < hi := lt_of_mul_lt_mul_right (hq.trans_lt hhi) hG.le
    exact_mod_cast this
  have hvq := hgrid q hlow (by omega)
  have hvq' := hgrid (q+1) (by omega) hhigh
  rw [Nat.cast_add,Nat.cast_one] at hvq'
  rw [← Nat.add_assoc] at hvq'
  have hfrac : y*s-v (base+q) = (y-q*G)*s := by
    rw [hvq]
    ring
  have hrest : v (base+q+1)-y*s = (G-(y-q*G))*s := by
    rw [hvq']
    ring
  rcases hn with ⟨rfl,hn⟩ | ⟨rfl,hn⟩
  · apply nearestEven_low hv
    · rw [hvq]
      exact mul_le_mul_of_nonneg_right hq hs.le
    · rw [hfrac,hrest]
      apply mul_le_mul_of_nonneg_right _ hs.le
      rcases hn with hn | hn
      · linarith
      · linarith [hn.1]
    · intro htie
      rw [hfrac,hrest] at htie
      have heq := mul_right_cancel₀ hs.ne' htie
      rcases hn with hn | hn
      · linarith
      · exact hbase.add hn.2
  · rw [← Nat.add_assoc]
    apply nearestEven_high hv
    · rw [hvq']
      exact mul_le_mul_of_nonneg_right hq'.le hs.le
    · rw [hfrac,hrest]
      apply mul_le_mul_of_nonneg_right _ hs.le
      rcases hn with hn | hn
      · linarith
      · linarith [hn.1]
    · intro htie
      rw [hfrac,hrest] at htie
      have heq := mul_right_cancel₀ hs.ne' htie
      rcases hn with hn | hn
      · linarith
      · exact (hbase.add_odd hn.2).add_one

end Grid

section Sticky

variable {K : Type*} [Field K] [LinearOrder K] {D : ℕ} {f : ℤ} {y : K}

/-- An integer and a number compare alike with every multiple of a step. -/
def Alike (D : ℕ) (f : ℤ) (y : K) : Prop :=
  ∀ k : ℤ, (f < k*D ↔ y < k*D) ∧ (k*D < f ↔ k*D < y)

theorem Alike.coarse {D' : ℕ} (h : Alike D f y) (hD : D ∣ D') : Alike D' f y := by
  obtain ⟨c,rfl⟩ := hD
  intro k
  have := h (k*c)
  rw [Int.cast_mul,Int.cast_natCast,mul_assoc,mul_assoc,mul_comm (c : ℤ),mul_comm (c : K)] at this
  rw [Nat.cast_mul,Nat.cast_mul]
  exact this

theorem Alike.le_iff {c : ℕ} (h : Alike D f y) (hc : D ∣ c) : (c : ℤ) ≤ f ↔ (c : K) ≤ y := by
  obtain ⟨k,rfl⟩ := hc
  have := (h k).1.not
  rw [not_lt,not_lt] at this
  rw [Nat.mul_comm,Nat.cast_mul,Nat.cast_mul]
  exact_mod_cast this

theorem Alike.lt_iff {c : ℕ} (h : Alike D f y) (hc : D ∣ c) : f < (c : ℤ) ↔ y < (c : K) := by
  rw [← not_le,h.le_iff hc,not_le]

variable [IsStrictOrderedRing K]

theorem alike_self (D : ℕ) (f : ℤ) : Alike D f (f : K) := by
  intro k
  constructor <;> exact_mod_cast Iff.rfl

theorem Alike.double (h : Alike D f y) : Alike (2*D) (2*f) (2*y) := by
  intro k
  have hint : k*((2*D : ℕ) : ℤ) = 2*(k*D) := by
    rw [Nat.cast_mul,Nat.cast_ofNat]
    ring
  have hnum : (k : K)*((2*D : ℕ) : K) = 2*(k*D) := by
    rw [Nat.cast_mul,Nat.cast_ofNat]
    ring
  have htwo : (0 : K) < 2 := two_pos
  rw [hint,hnum,mul_lt_mul_iff_right₀ htwo,mul_lt_mul_iff_right₀ htwo,
    mul_lt_mul_iff_right₀ (two_pos : (0 : ℤ) < 2),mul_lt_mul_iff_right₀ (two_pos : (0 : ℤ) < 2)]
  exact h k

theorem Alike.double_iterate (h : Alike D f y) (n : ℕ) : Alike (2^n*D) (2^n*f) (2^n*y) := by
  induction n with
  | zero => simpa using h
  | succ n ih =>
    have := ih.double
    rwa [← mul_assoc,← mul_assoc,← mul_assoc,← pow_succ',← pow_succ',← pow_succ'] at this

theorem Alike.add {a : ℤ} (ha : (D : ℤ) ∣ a) (h : Alike D f y) : Alike D (a+f) (a+y) := by
  obtain ⟨c,rfl⟩ := ha
  intro k
  have := h (k-c)
  push_cast at this ⊢
  rw [sub_mul,sub_mul,lt_sub_iff_add_lt,sub_lt_iff_lt_add,lt_sub_iff_add_lt,sub_lt_iff_lt_add] at this
  rw [mul_comm (D : ℤ),mul_comm (D : K),add_comm,add_comm (c*D : K)]
  exact this

theorem Alike.sub {a : ℤ} (ha : (D : ℤ) ∣ a) (h : Alike D f y) : Alike D (a-f) (a-y) := by
  obtain ⟨c,rfl⟩ := ha
  intro k
  have := h (c-k)
  push_cast at this ⊢
  rw [sub_mul,sub_mul] at this
  rw [mul_comm (D : ℤ),mul_comm (D : K)]
  constructor
  · constructor
    · intro hlt
      have := this.2.mp (by linarith)
      linarith
    · intro hlt
      have := this.2.mpr (by linarith)
      linarith
  · constructor
    · intro hlt
      have := this.1.mp (by linarith)
      linarith
    · intro hlt
      have := this.1.mpr (by linarith)
      linarith

/-- A shift to the right that keeps the bit it loses in the lowest bit. -/
def jam (f : ℕ) : ℕ := (f &&& 1) ||| (f >>> 1)

theorem jam_even {f : ℕ} (hf : f%2 = 0) : jam f = f/2 := by
  rw [jam,Nat.and_one_is_mod,hf,Nat.zero_or,Nat.shiftRight_eq_div_pow,pow_one]

theorem jam_odd {f : ℕ} (hf : f%2 = 1) : jam f = 2*(f/4)+1 := by
  have hhalf : (1 ||| f/2)/2 = f/4 := by
    rw [Nat.or_div_two,Nat.zero_or]
    omega
  have hlow : (1 ||| f/2)%2 = 1 := Nat.or_mod_two_eq_one.mpr (.inl rfl)
  rw [jam,Nat.and_one_is_mod,hf,Nat.shiftRight_eq_div_pow,pow_one]
  omega

/-- A shifted number compares with the even multiples as it did before. -/
theorem jam_lt_iff {f : ℕ} (k : ℤ) : (jam f : ℤ) < 2*k ↔ (f : ℤ) < 4*k := by
  rcases Nat.mod_two_eq_zero_or_one f with hf | hf
  · rw [jam_even hf]
    omega
  · rw [jam_odd hf]
    omega

theorem lt_jam_iff {f : ℕ} (k : ℤ) : 2*k < (jam f : ℤ) ↔ 4*k < (f : ℤ) := by
  rcases Nat.mod_two_eq_zero_or_one f with hf | hf
  · rw [jam_even hf]
    omega
  · rw [jam_odd hf]
    omega

theorem Alike.jam {f : ℕ} (hD : Even D) (h : Alike (2*D) f y) : Alike D (jam f) (y/2) := by
  obtain ⟨c,rfl⟩ := hD
  intro k
  have := h k
  have hint : k*((c+c : ℕ) : ℤ) = 2*(k*c) := by
    push_cast
    ring
  have hint' : k*((2*(c+c) : ℕ) : ℤ) = 4*(k*c) := by
    push_cast
    ring
  rw [hint'] at this
  rw [hint,jam_lt_iff,lt_jam_iff,this.1,this.2]
  push_cast
  rw [div_lt_iff₀ two_pos,lt_div_iff₀ two_pos,mul_assoc,mul_comm (c+c : K)]
  exact ⟨Iff.rfl,Iff.rfl⟩

/-- Zeros are shifted out without a trace. -/
theorem jam_iterate_mul (n g : ℕ) : jam^[n] (2^n*g) = g := by
  induction n generalizing g with
  | zero => simp
  | succ n ih =>
    rw [pow_succ,Nat.mul_assoc,Function.iterate_succ_apply',ih,jam_even (Nat.mul_mod_right ..),
      Nat.mul_div_cancel_left _ two_pos]

/-- Shifting one bit at a time loses nothing that a comparison with multiples of two can see. -/
theorem alike_jam_iterate (f n : ℕ) : Alike 2 (jam^[n] f : ℕ) ((f : K)/2^n) := by
  have hrun : ∀ (n : ℕ) {D : ℕ}, Even D → Alike D (jam^[n] f : ℕ) ((f : K)/2^n) := by
    intro n
    induction n with
    | zero =>
      intro D _
      simpa using alike_self (K := K) D f
    | succ n ih =>
      intro D hD
      have := (ih (hD.mul_left 2)).jam hD
      rwa [Function.iterate_succ_apply',pow_succ,← div_div]
  exact hrun n even_two

/-- A shift to the right that sets the lowest bit if any of the bits it loses is set. -/
def sticky (n f : ℕ) : ℕ := if f%2^n = 0 then f/2^n else f/2^n ||| 1

theorem or_one (q : ℕ) : q ||| 1 = 2*(q/2)+1 := by
  have hhalf : (q ||| 1)/2 = q/2 := by
    rw [Nat.or_div_two]
    exact Nat.or_zero _
  have hlow : (q ||| 1)%2 = 1 := Nat.or_mod_two_eq_one.mpr (.inr rfl)
  omega

theorem alike_sticky (f n : ℕ) : Alike 2 (sticky n f : ℕ) ((f : K)/2^n) := by
  have hpos : 0 < 2^n := Nat.two_pow_pos n
  have hfield : (0 : K) < 2^n := pow_pos two_pos n
  have hsplit := Nat.div_add_mod' f (2^n)
  have hrem := Nat.mod_lt f hpos
  intro k
  rw [div_lt_iff₀ hfield,lt_div_iff₀ hfield]
  have hlow : (f : ℤ) < k*2*2^n ↔ ((f/2^n : ℕ) : ℤ) < k*2 := by
    push_cast
    rw [Int.ediv_lt_iff_lt_mul (by positivity)]
  have hhigh : k*2*2^n < (f : ℤ) ↔ k*2 < ((f/2^n : ℕ) : ℤ) ∨ k*2 = ((f/2^n : ℕ) : ℤ) ∧ f%2^n ≠ 0 := by
    have hf : (f : ℤ) = (f/2^n : ℕ)*2^n+(f%2^n : ℕ) := by exact_mod_cast hsplit.symm
    have hr : ((f%2^n : ℕ) : ℤ) < 2^n := by exact_mod_cast hrem
    rw [hf]
    generalize ((f/2^n : ℕ) : ℤ) = q
    constructor
    · intro hlt
      have hle : k*2 ≤ q := by
        by_contra hgt
        have := mul_le_mul_of_nonneg_right (show q+1 ≤ k*2 by omega) (show (0 : ℤ) ≤ 2^n by positivity)
        linarith
      rcases hle.lt_or_eq with hlt' | heq
      · exact .inl hlt'
      · refine .inr ⟨heq,?_⟩
        rw [heq] at hlt
        omega
    · rintro (hlt | ⟨heq,hne⟩)
      · have := mul_le_mul_of_nonneg_right (show k*2+1 ≤ q by omega) (show (0 : ℤ) ≤ 2^n by positivity)
        have hone : (0 : ℤ) < 2^n := by positivity
        have hnonneg := Int.natCast_nonneg (f%2^n)
        linarith
      · rw [heq]
        omega
  have hcast : ((f : K) < k*(2 : ℕ)*2^n ↔ (f : ℤ) < k*2*2^n) ∧
      ((k : K)*(2 : ℕ)*2^n < f ↔ k*2*2^n < (f : ℤ)) := by
    constructor <;> exact_mod_cast Iff.rfl
  rw [hcast.1,hcast.2,hlow,hhigh,sticky]
  split
  · push_cast
    omega
  · rw [or_one]
    push_cast
    omega

/-- The lowest bit is of no account further up. -/
theorem sticky_div (f n k : ℕ) : sticky n f/2^(k+1) = f/2^(n+(k+1)) := by
  have hhalf : sticky n f/2 = f/2^n/2 := by
    rw [sticky]
    split
    · rfl
    · rw [or_one]
      omega
  rw [pow_succ',← Nat.div_div_eq_div_mul,hhalf,Nat.div_div_eq_div_mul,Nat.div_div_eq_div_mul,
    ← pow_succ',← pow_add]

/-- An integer over twice the step `D` to the nearest, ties to even. -/
def halfEven (D f : ℕ) : ℕ :=
  f/(2*D)+if D < f%(2*D) ∨ f%(2*D) = D ∧ f/(2*D)%2 = 1 then 1 else 0

theorem halfEven_up {f : ℕ} (h : D < f%(2*D) ∨ f%(2*D) = D ∧ f/(2*D)%2 = 1) :
    halfEven D f = f/(2*D)+1 := by
  rw [halfEven,if_pos h]

theorem halfEven_down {f : ℕ} (h : ¬(D < f%(2*D) ∨ f%(2*D) = D ∧ f/(2*D)%2 = 1)) :
    halfEven D f = f/(2*D) := by
  rw [halfEven,if_neg h]
  exact Nat.add_zero _

theorem halfEven_below {q r : ℕ} (hr : r < D) : halfEven D (2*D*q+r) = q := by
  have hdiv : (2*D*q+r)/(2*D) = q := by
    rw [Nat.mul_add_div (by omega),Nat.div_eq_of_lt (by omega),Nat.add_zero]
  have hmod : (2*D*q+r)%(2*D) = r := by
    rw [Nat.mul_add_mod,Nat.mod_eq_of_lt (by omega)]
  rw [halfEven_down (by rw [hmod]; omega),hdiv]

theorem halfEven_mul (hD : 0 < D) (q : ℕ) : halfEven D (2*D*q) = q := halfEven_below (r := 0) hD

theorem halfEven_above {q r : ℕ} (hr : D < r) (hr' : r < 2*D) : halfEven D (2*D*q+r) = q+1 := by
  have hdiv : (2*D*q+r)/(2*D) = q := by
    rw [Nat.mul_add_div (by omega),Nat.div_eq_of_lt (by omega),Nat.add_zero]
  have hmod : (2*D*q+r)%(2*D) = r := by
    rw [Nat.mul_add_mod,Nat.mod_eq_of_lt (by omega)]
  rw [halfEven_up (by rw [hmod]; omega),hdiv]

theorem halfEven_tie (hD : 0 < D) (q : ℕ) : halfEven D (2*D*q+D) = q+q%2 := by
  have hdiv : (2*D*q+D)/(2*D) = q := by
    rw [Nat.mul_add_div (by omega),Nat.div_eq_of_lt (by omega),Nat.add_zero]
  have hmod : (2*D*q+D)%(2*D) = D := by
    rw [Nat.mul_add_mod,Nat.mod_eq_of_lt (by omega)]
  rw [halfEven,hdiv,hmod]
  split <;> omega

/-- A multiple of the whole step with an even factor does not matter. -/
theorem halfEven_shift (hD : 0 < D) (c r : ℕ) : halfEven D (2*D*(2*c)+r) = 2*c+halfEven D r := by
  have hdiv : (2*D*(2*c)+r)/(2*D) = 2*c+r/(2*D) := Nat.mul_add_div (by omega) _ _
  have hmod : (2*D*(2*c)+r)%(2*D) = r%(2*D) := Nat.mul_add_mod ..
  have hparity : (2*c+r/(2*D))%2 = r/(2*D)%2 := Nat.mul_add_mod ..
  rw [halfEven,halfEven,hdiv,hmod,hparity,Nat.add_assoc]

/-- An even number is passed only from more than half a step above it. -/
theorem halfEven_lt_iff {f e : ℕ} (hD : 0 < D) (he : e%2 = 0) :
    halfEven D f < e ↔ f+D < 2*D*e := by
  have hsplit := Nat.div_add_mod f (2*D)
  have hrem := Nat.mod_lt f (show 0 < 2*D by omega)
  by_cases hup : D < f%(2*D) ∨ f%(2*D) = D ∧ f/(2*D)%2 = 1
  · rw [halfEven_up hup]
    generalize f/(2*D) = q at *
    constructor
    · intro hlt
      have := Nat.mul_le_mul_left (2*D) (show q+2 ≤ e by omega)
      rw [Nat.mul_add] at this
      omega
    · intro hlt
      by_contra hge
      have := Nat.mul_le_mul_left (2*D) (show e ≤ q+1 by omega)
      rw [Nat.mul_add] at this
      omega
  · rw [halfEven_down hup]
    generalize f/(2*D) = q at *
    constructor
    · intro hlt
      have hone := Nat.mul_le_mul_left (2*D) (show q+1 ≤ e by omega)
      rw [Nat.mul_add] at hone
      by_cases htie : f%(2*D) = D
      · have := Nat.mul_le_mul_left (2*D) (show q+2 ≤ e by omega)
        rw [Nat.mul_add] at this
        omega
      · omega
    · intro hlt
      by_contra hge
      have := Nat.mul_le_mul_left (2*D) (show e ≤ q by omega)
      omega

theorem lt_halfEven_iff {f e : ℕ} (hD : 0 < D) (he : e%2 = 0) :
    e < halfEven D f ↔ 2*D*e+D < f := by
  have hsplit := Nat.div_add_mod f (2*D)
  have hrem := Nat.mod_lt f (show 0 < 2*D by omega)
  by_cases hup : D < f%(2*D) ∨ f%(2*D) = D ∧ f/(2*D)%2 = 1
  · rw [halfEven_up hup]
    generalize f/(2*D) = q at *
    constructor
    · intro hlt
      have hle := Nat.mul_le_mul_left (2*D) (show e ≤ q by omega)
      by_cases htie : f%(2*D) = D
      · have := Nat.mul_le_mul_left (2*D) (show e+1 ≤ q by omega)
        rw [Nat.mul_add] at this
        omega
      · omega
    · intro hlt
      by_contra hge
      have := Nat.mul_le_mul_left (2*D) (show q+1 ≤ e by omega)
      rw [Nat.mul_add] at this
      omega
  · rw [halfEven_down hup]
    generalize f/(2*D) = q at *
    constructor
    · intro hlt
      have := Nat.mul_le_mul_left (2*D) (show e+1 ≤ q by omega)
      rw [Nat.mul_add] at this
      omega
    · intro hlt
      by_contra hge
      have := Nat.mul_le_mul_left (2*D) (show q ≤ e by omega)
      omega

/-- What is known of a number that compares like an integer with the multiples of half a step is
enough to round it. -/
theorem Alike.roundsTo {f : ℕ} (h : Alike D f y) (hD : 0 < D) : RoundsTo (2*D) y (halfEven D f) := by
  have hsplit := Nat.div_add_mod f (2*D)
  have hrem := Nat.mod_lt f (show 0 < 2*D by omega)
  generalize hq : f/(2*D) = q at hsplit
  generalize hr : f%(2*D) = r at hsplit hrem
  have hlow := h (2*q)
  have hmid := h (2*q+1)
  have hhigh := h (2*q+2)
  have hf : (f : ℤ) = 2*q*D+r := by
    rw [← hsplit]
    push_cast
    ring
  rw [hf] at hlow hmid hhigh
  push_cast at hlow hmid hhigh
  have hge : (q : K)*((2*D : ℕ) : K) ≤ y := by
    have := hlow.1.not.mp (by linarith)
    push_cast
    linarith
  have hlt : y < ((q : K)+1)*((2*D : ℕ) : K) := by
    have := hhigh.1.mp (by linarith [show (r : ℤ) < 2*D by exact_mod_cast hrem])
    push_cast
    linarith
  refine ⟨q,⟨hge,hlt⟩,?_⟩
  push_cast
  by_cases hup : D < f%(2*D) ∨ f%(2*D) = D ∧ f/(2*D)%2 = 1
  · rw [halfEven_up hup,hq]
    rw [hq,hr] at hup
    right
    refine ⟨rfl,?_⟩
    rcases hup with hup | ⟨heq,hodd⟩
    · left
      have := hmid.2.mp (by linarith [show (D : ℤ) < r by exact_mod_cast hup])
      linarith
    · right
      have hle := hmid.1.not.mp (by linarith [show (r : ℤ) = D by exact_mod_cast heq])
      have hge := hmid.2.not.mp (by linarith [show (r : ℤ) = D by exact_mod_cast heq])
      exact ⟨by linarith,Nat.odd_iff.mpr hodd⟩
  · rw [halfEven_down hup,hq]
    rw [hq,hr] at hup
    left
    refine ⟨rfl,?_⟩
    rcases Nat.lt_or_ge r D with hlt | hge
    · left
      have := hmid.1.mp (by linarith [show (r : ℤ) < D by exact_mod_cast hlt])
      linarith
    · right
      have heq : r = D := by omega
      have hle := hmid.1.not.mp (by linarith [show (r : ℤ) = D by exact_mod_cast heq])
      have hge := hmid.2.not.mp (by linarith [show (r : ℤ) = D by exact_mod_cast heq])
      exact ⟨by linarith,Nat.even_iff.mpr (by omega)⟩

/-- A number between two integers is rounded up from the half on, unless it is the half itself and
even. -/
theorem roundsTo_up {q r : ℕ} {t : K} (hr : r < 2*D) (ht : 0 ≤ t) (ht' : t < 1)
    (hup : D < r ∨ r = D ∧ (Odd q ∨ t ≠ 0)) : RoundsTo (2*D) ((2*D*q+r : ℕ)+t) (q+1) := by
  have hr' : (r : K)+1 ≤ 2*D := by exact_mod_cast hr
  refine ⟨q,?_,.inr ⟨rfl,?_⟩⟩
  · push_cast
    constructor
    · linarith [(Nat.cast_nonneg r : (0 : K) ≤ r)]
    · linarith
  · push_cast
    rcases hup with hup | ⟨rfl,hup⟩
    · left
      have : (D : K)+1 ≤ r := by exact_mod_cast hup
      linarith
    · by_cases hzero : t = 0
      · right
        refine ⟨?_,hup.resolve_right (not_not.mpr hzero)⟩
        rw [hzero]
        ring
      · left
        have : 0 < t := lt_of_le_of_ne ht (Ne.symm hzero)
        linarith

theorem roundsTo_down {q r : ℕ} {t : K} (hr : r < 2*D) (ht : 0 ≤ t) (ht' : t < 1)
    (hdown : r < D ∨ r = D ∧ Even q ∧ t = 0) : RoundsTo (2*D) ((2*D*q+r : ℕ)+t) q := by
  have hr' : (r : K)+1 ≤ 2*D := by exact_mod_cast hr
  refine ⟨q,?_,.inl ⟨rfl,?_⟩⟩
  · push_cast
    constructor
    · linarith [(Nat.cast_nonneg r : (0 : K) ≤ r)]
    · linarith
  · push_cast
    rcases hdown with hdown | ⟨rfl,heven,rfl⟩
    · left
      have : (r : K)+1 ≤ D := by exact_mod_cast hdown
      linarith
    · right
      refine ⟨by ring,heven⟩

end Sticky

end Nearest
end AgbTools
