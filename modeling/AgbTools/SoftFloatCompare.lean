import Mathlib.Order.WithBot
import AgbTools.SoftFloatPack

/-! Packing undoes unpacking, negation changes the sign bit, and the comparison routines compare the
numbers that the patterns stand for. -/
namespace AgbTools
namespace SoftFloat

section RoundTrip

variable {F : Format}

theorem packD_unpackD {x : Flo F} (hx : decode F x ≠ .nan) (dst : FpNumber) :
    packD F (unpackD F x dst) = x := by
  have hdecode := (unpackD_spec x dst).decode_packD
  exact decode_inj hdecode (hdecode ▸ hx)

theorem decode_nan {x : Flo F} (hx : decode F x = .nan) : F.infinity < rawMagnitude F x := by
  unfold decode datum at hx
  split at hx
  · cases hx
  · split at hx
    · cases hx
    · omega

/-- The fields of a NaN: the exponent is the largest, and the fraction is not zero. -/
theorem nan_fields {x : Flo F} (hx : F.infinity < rawMagnitude F x) :
    rawMagnitude F x/2^F.fracBits = F.expMax ∧ rawMagnitude F x%2^F.fracBits ≠ 0 := by
  have hlt : rawMagnitude F x < 2^(F.fracBits+F.expBits) := Nat.mod_lt _ (Nat.two_pow_pos _)
  have hsplit := Nat.div_add_mod' (rawMagnitude F x) (2^F.fracBits)
  rw [Format.infinity] at hx
  rw [pow_add] at hlt
  have hle := Nat.div_lt_of_lt_mul hlt
  have hge := (Nat.le_div_iff_mul_le (Nat.two_pow_pos F.fracBits)).mpr hx.le
  have hmax := expMax_eq F
  have hexp : rawMagnitude F x/2^F.fracBits = F.expMax := by omega
  rw [hexp] at hsplit
  exact ⟨hexp,by omega⟩

theorem unpackD_nan {x : Flo F} (hx : F.infinity < rawMagnitude F x) (dst : FpNumber) :
    isnan (unpackD F x dst) = true ∧ (unpackD F x dst).sign = rawSign F x ∧
      (unpackD F x dst).fraction = rawMagnitude F x%2^F.fracBits := by
  obtain ⟨hexp,hfrac⟩ := nan_fields hx
  have hmax : F.expMax ≠ 0 := by cases F <;> decide
  simp only [unpackD,raw_fraction,raw_exp,hexp,hfrac,if_true,if_false,if_neg hmax,isnan]
  refine ⟨?_,rfl,trivial⟩
  split <;> rfl

/-- Of a NaN the quiet bit is set and all other bits are kept. -/
theorem raw_packD_nan {x : Flo F} (hx : decode F x = .nan) (dst : FpNumber) :
    F.wordOrder (BitVec.toNat (packD F (unpackD F x dst))) =
      F.wordOrder (BitVec.toNat x) ||| F.quietNan := by
  have hinf := decode_nan hx
  obtain ⟨hexp,-⟩ := nan_fields hinf
  obtain ⟨hnan,hsign,hfrac⟩ := unpackD_nan hinf dst
  have hparts : packParts F (unpackD F x dst) =
      (rawMagnitude F x%2^F.fracBits ||| F.quietNan,(F.expMax : ℤ)) := by
    rw [packParts,if_pos hnan,hfrac]
  have hmax := expMax_eq F
  have hquiet := quietNan_lt F
  have hpos := Nat.two_pow_pos F.fracBits
  have hrem := Nat.mod_lt (rawMagnitude F x) hpos
  have hdiv : (F.wordOrder (BitVec.toNat x) ||| F.quietNan)/2^F.fracBits =
      F.wordOrder (BitVec.toNat x)/2^F.fracBits := by
    rw [Nat.or_div_two_pow,Nat.div_eq_of_lt hquiet,Nat.or_zero]
  have hmod : (F.wordOrder (BitVec.toNat x) ||| F.quietNan)%2^F.fracBits =
      rawMagnitude F x%2^F.fracBits ||| F.quietNan := by
    rw [Nat.or_mod_two_pow,raw_fraction,Nat.mod_eq_of_lt hquiet]
  have hhigh : F.wordOrder (BitVec.toNat x)/2^F.fracBits =
      (rawSign F x).toNat*2^F.expBits+F.expMax := by
    rw [raw_eq,pow_add,Nat.mul_comm (2^F.fracBits),← Nat.mul_assoc,Nat.add_comm,
      Nat.add_mul_div_right _ _ hpos,hexp,Nat.add_comm]
  rw [packD_eq,raw_pattern F (joined_lt ..),hparts,hsign,joined_eq (by omega),Nat.or_mod_two_pow,Nat.mod_mod,
    Nat.mod_eq_of_lt hquiet,← Nat.div_add_mod' (F.wordOrder (BitVec.toNat x) ||| F.quietNan) (2^F.fracBits),
    hdiv,hmod,hhigh,pow_add]
  ring

theorem neg_ne_nan {d : Datum} (h : d ≠ .nan) : d.neg ≠ .nan := by
  cases d with
  | nan => exact absurd rfl h
  | inf s => exact Datum.noConfusion
  | finite s m => exact Datum.noConfusion

theorem decode_negate (a : FpNumber) (x : Flo F) : decode F (negate F a x) = (decode F x).neg :=
  (unpackD_spec x a).neg.decode_packD

theorem neg_datum (s : Bool) (m : ℕ) : (datum F s m).neg = datum F (!s) m := by
  unfold datum
  split
  · rfl
  · split <;> rfl

theorem xor_top {k m : ℕ} (hm : m < 2^k) (s : Bool) :
    (s.toNat*2^k+m) ^^^ 2^k = (!s).toNat*2^k+m := by
  have hpos := Nat.two_pow_pos k
  have hdiv : (s.toNat*2^k+m)/2^k = s.toNat := by
    rw [Nat.add_comm,Nat.add_mul_div_right _ _ hpos,Nat.div_eq_of_lt hm,Nat.zero_add]
  have hmod : (s.toNat*2^k+m)%2^k = m := by
    rw [Nat.add_comm,Nat.add_mul_mod_self_right,Nat.mod_eq_of_lt hm]
  have hdiv' : ((s.toNat*2^k+m) ^^^ 2^k)/2^k = (!s).toNat := by
    rw [Nat.xor_div_two_pow,hdiv,Nat.div_self hpos]
    cases s <;> rfl
  have hmod' : ((s.toNat*2^k+m) ^^^ 2^k)%2^k = m := by
    rw [Nat.xor_mod_two_pow,hmod,Nat.mod_self,Nat.xor_zero]
  rw [← Nat.div_add_mod' ((s.toNat*2^k+m) ^^^ 2^k) (2^k),hdiv',hmod']

/-- Negation flips the sign bit and nothing else. -/
theorem raw_negate (a : FpNumber) {x : Flo F} (hx : decode F x ≠ .nan) :
    F.wordOrder (BitVec.toNat (negate F a x)) =
      F.wordOrder (BitVec.toNat x) ^^^ 2^(F.fracBits+F.expBits) := by
  have hdecode := decode_negate a x
  have hne := neg_ne_nan hx
  rw [← hdecode] at hne
  rw [decode,decode,neg_datum] at hdecode
  obtain ⟨hsign,hmag⟩ := datum_inj hdecode hne
  rw [raw_eq,raw_eq x,hsign,hmag]
  exact (xor_top (Nat.mod_lt _ (Nat.two_pow_pos _)) _).symm

theorem negate_negate (a b : FpNumber) {x : Flo F} (hx : decode F x ≠ .nan) :
    negate F b (negate F a x) = x := by
  apply raw_inj
  have hne : decode F (negate F a x) ≠ .nan := decode_negate a x ▸ neg_ne_nan hx
  rw [raw_negate b hne,raw_negate a hx,Nat.xor_assoc,Nat.xor_self,Nat.xor_zero]

/-- Packing undoes unpacking: a pattern comes back as it was, a NaN with its quiet bit set; a finite
number is unpacked exactly, with its leading one in place unless it is a zero; and negation is an
involution that changes the sign bit only. -/
theorem pack_unpack (F : Format) (a b : FpNumber) (x : Flo F) :
    (decode F x ≠ .nan → packD F (unpackD F x a) = x) ∧
      (decode F x = .nan → F.wordOrder (BitVec.toNat (packD F (unpackD F x a))) =
        F.wordOrder (BitVec.toNat x) ||| F.quietNan) ∧
      (∀ s m, decode F x = .finite s m → (unpackD F x a).sign = s ∧
        (m = 0 → (unpackD F x a).cls = .zero ∧ value F s m = 0) ∧
        (m ≠ 0 → (unpackD F x a).cls = .number ∧ F.implicit1 ≤ (unpackD F x a).fraction ∧
          (unpackD F x a).fraction < F.implicit2 ∧ value F s m =
            applySign (unpackD F x a).sign ((unpackD F x a).fraction*
              2^((unpackD F x a).normalExp-((F.fracBits+F.ngards : ℕ) : ℤ))))) ∧
      (decode F x ≠ .nan → F.wordOrder (BitVec.toNat (negate F a x)) =
          F.wordOrder (BitVec.toNat x) ^^^ 2^(F.fracBits+F.expBits) ∧
        negate F b (negate F a x) = x) := by
  refine ⟨fun hx => packD_unpackD hx a,fun hx => raw_packD_nan hx a,?_,
    fun hx => ⟨raw_negate a hx,negate_negate a b hx⟩⟩
  intro s m hx
  obtain ⟨hs,hm,hlt⟩ := decode_finite hx
  by_cases hzero : m = 0
  · have hunpack := unpackD_zero (hm.trans hzero) a
    rw [hunpack]
    refine ⟨hs,fun _ => ⟨rfl,?_⟩,fun h => absurd hzero h⟩
    rw [hzero,value,magnitude_zero]
    cases s <;> simp [applySign]
  · obtain ⟨hholds,hsign⟩ := unpackD_number (hm.trans_ne hzero) hlt a
    refine ⟨hsign.trans hs,fun h => absurd h hzero,fun _ => ?_⟩
    rw [implicit1_eq,implicit2_eq,hsign,hs,value,← hm,hholds.value]
    exact ⟨hholds.cls,hholds.low,hholds.high,rfl⟩

/-- A subnormal float, and back again. -/
theorem pack_unpack_subnormal :
    let x : Flo .float := BitVec.ofNat 32 0x80000001
    decode .float x ≠ .nan ∧ packD .float (unpackD .float x nan) = x ∧
      negate .float nan (negate .float nan x) = x := by
  have h := pack_unpack .float nan nan (BitVec.ofNat 32 0x80000001)
  have hne : decode .float (BitVec.ofNat 32 0x80000001) ≠ .nan := by decide
  exact ⟨hne,h.1 hne,(h.2.2.2 hne).2⟩

/-- A zero has no leading one: its fraction is left as it was. -/
theorem zero_without_fraction : ¬∀ (F : Format) (dst : FpNumber) (x : Flo F) (s : Bool) (m : ℕ),
    decode F x = .finite s m →
      F.implicit1 ≤ (unpackD F x dst).fraction ∧ (unpackD F x dst).fraction < F.implicit2 := by
  intro h
  have hzero := (h .float nan (BitVec.ofNat 32 0) false 0 (by decide)).1
  revert hzero
  decide

end RoundTrip

section Order

variable {F : Format}

/-- The place of a datum among the extended rationals; a NaN has none, and is put anywhere. -/
def extended (F : Format) : Datum → WithBot (WithTop ℚ)
  | .nan => ⊥
  | .inf true => ⊥
  | .inf false => ((⊤ : WithTop ℚ) : WithBot (WithTop ℚ))
  | .finite s m => ((value F s m : WithTop ℚ) : WithBot (WithTop ℚ))

/-- The result of a comparison, by its sign. -/
structure Ordered {α : Type*} [LT α] (p q : α) (r : ℤ) : Prop where
  lt : r < 0 ↔ p < q
  eq : r = 0 ↔ p = q
  gt : 0 < r ↔ q < p

section Linear

variable {α : Type*} [LinearOrder α] {p q : α}

theorem ordered_lt (h : p < q) : Ordered p q (-1) :=
  ⟨by simpa using h,by simpa using h.ne,by simpa using h.le⟩

theorem ordered_eq (h : p = q) : Ordered p q 0 := by
  subst h
  exact ⟨by simp,by simp,by simp⟩

theorem ordered_gt (h : q < p) : Ordered p q 1 :=
  ⟨by simpa using h.le,by simpa using h.ne',by simpa using h⟩

end Linear

theorem bot_lt_finite (s : Bool) (m : ℕ) : extended F (.inf true) < extended F (.finite s m) :=
  WithBot.bot_lt_coe _

theorem finite_lt_top (s : Bool) (m : ℕ) : extended F (.finite s m) < extended F (.inf false) :=
  WithBot.coe_lt_coe.mpr (WithTop.coe_lt_top _)

theorem bot_lt_top : extended F (.inf true) < extended F (.inf false) := WithBot.bot_lt_coe _

theorem finite_lt_iff {s t : Bool} {m n : ℕ} :
    extended F (.finite s m) < extended F (.finite t n) ↔ value F s m < value F t n := by
  rw [extended,extended,WithBot.coe_lt_coe,WithTop.coe_lt_coe]

theorem ordered_finite {s t : Bool} {m n : ℕ} {r : ℤ}
    (h : Ordered (value F s m) (value F t n) r) :
    Ordered (extended F (.finite s m)) (extended F (.finite t n)) r := by
  refine ⟨h.lt.trans finite_lt_iff.symm,?_,h.gt.trans finite_lt_iff.symm⟩
  rw [h.eq,extended,extended,WithBot.coe_inj,WithTop.coe_inj]

theorem value_zero (s : Bool) : value F s 0 = 0 := by
  rw [value,magnitude_zero]
  cases s <;> simp [applySign]

theorem value_neg_of_true {m : ℕ} (hm : m ≠ 0) : value F true m < 0 :=
  neg_lt_zero.mpr (magnitude_pos F hm)

theorem value_pos_of_false {m : ℕ} (hm : m ≠ 0) : 0 < value F false m := magnitude_pos F hm

/-- A sign decides between numbers on both sides of zero. -/
theorem ordered_by_sign {s : Bool} {p q : ℚ} (htrue : s = true → p < q) (hfalse : s = false → q < p) :
    Ordered p q (if s then -1 else 1) := by
  cases s with
  | true => exact ordered_lt (htrue rfl)
  | false => exact ordered_gt (hfalse rfl)

/-- Of two numbers of one sign the larger magnitude decides. -/
theorem ordered_same {s : Bool} {m n : ℕ} (h : magnitude F n < magnitude F m) :
    Ordered (value F s m) (value F s n) (if s then -1 else 1) ∧
      Ordered (value F s n) (value F s m) (if s then 1 else -1) := by
  cases s with
  | true => exact ⟨ordered_lt (neg_lt_neg h),ordered_gt (neg_lt_neg h)⟩
  | false => exact ⟨ordered_gt h,ordered_lt h⟩

theorem ordered_numbers {a b : FpNumber} {m n : ℕ} (ha : Holds F a m) (hb : Holds F b n) (hm : m ≠ 0)
    (hn : n ≠ 0) : Ordered (value F a.sign m) (value F b.sign n) (fpcmpParts a b) := by
  simp only [fpcmpParts,isnan,isinf,iszero,ha.cls,hb.cls,reduceCtorEq,decide_false,Bool.or_false,
    Bool.false_eq_true,if_false,Bool.and_false]
  by_cases hsign : a.sign = b.sign
  · rw [if_neg (not_not.mpr hsign),← hsign]
    rcases lt_trichotomy a.normalExp b.normalExp with hlt | heq | hgt
    · rw [if_neg hlt.not_gt,if_pos hlt]
      exact (ordered_same (magnitude_lt_of_exp hb ha hlt)).2
    · rw [if_neg (heq ▸ lt_irrefl _),if_neg (heq ▸ lt_irrefl _)]
      rcases Nat.lt_trichotomy a.fraction b.fraction with hlt | hf | hgt
      · rw [if_neg hlt.not_gt,if_pos hlt]
        exact (ordered_same (magnitude_lt_of_fraction hb ha heq hlt)).2
      · rw [if_neg (by omega),if_neg (by omega)]
        apply ordered_eq
        rw [value,value,ha.value,hb.value,heq,hf]
      · rw [if_pos hgt]
        exact (ordered_same (magnitude_lt_of_fraction ha hb heq.symm hgt)).1
    · rw [if_pos hgt]
      exact (ordered_same (magnitude_lt_of_exp ha hb hgt)).1
  · rw [if_pos hsign]
    apply ordered_by_sign
    · intro hs
      have ht : b.sign = false := by
        cases hb : b.sign
        · rfl
        · exact absurd (hs.trans hb.symm) hsign
      rw [hs,ht]
      exact (value_neg_of_true hm).trans (value_pos_of_false hn)
    · intro hs
      have ht : b.sign = true := by
        cases hb : b.sign
        · exact absurd (hs.trans hb.symm) hsign
        · rfl
      rw [hs,ht]
      exact (value_neg_of_true hn).trans (value_pos_of_false hm)

/-- An infinity of either sign is beyond every other number. -/
theorem ordered_inf_finite (s t : Bool) (m : ℕ) :
    Ordered (extended F (.inf s)) (extended F (.finite t m)) (if s then -1 else 1) ∧
      Ordered (extended F (.finite t m)) (extended F (.inf s)) (if s then 1 else -1) := by
  cases s with
  | true => exact ⟨ordered_lt (bot_lt_finite t m),ordered_gt (bot_lt_finite t m)⟩
  | false => exact ⟨ordered_gt (finite_lt_top t m),ordered_lt (finite_lt_top t m)⟩

theorem ordered_infinities (s t : Bool) : Ordered (extended F (.inf s)) (extended F (.inf t))
    ((t.toNat : ℤ)-s.toNat) := by
  cases s with
  | true =>
    cases t with
    | true => exact ordered_eq rfl
    | false => exact ordered_lt bot_lt_top
  | false =>
    cases t with
    | true => exact ordered_gt bot_lt_top
    | false => exact ordered_eq rfl

theorem ordered_zero_number {n : ℕ} (hn : n ≠ 0) (s t : Bool) :
    Ordered (value F s 0) (value F t n) (if t then 1 else -1) ∧
      Ordered (value F t n) (value F s 0) (if t then -1 else 1) := by
  rw [value_zero]
  cases t with
  | true => exact ⟨ordered_gt (value_neg_of_true hn),ordered_lt (value_neg_of_true hn)⟩
  | false => exact ⟨ordered_lt (value_pos_of_false hn),ordered_gt (value_pos_of_false hn)⟩

/-- The cascade over class, sign, exponent and fraction is the order of the numbers. -/
theorem fpcmpParts_spec {a b : FpNumber} {x y : Datum} (ha : Unpacked F a x) (hb : Unpacked F b y)
    (hx : x ≠ .nan) (hy : y ≠ .nan) : Ordered (extended F x) (extended F y) (fpcmpParts a b) := by
  cases ha with
  | nan _ => exact absurd rfl hx
  | inf h =>
    cases hb with
    | nan _ => exact absurd rfl hy
    | inf h' => simpa [fpcmpParts,isnan,isinf,h,h'] using ordered_infinities (F := F) a.sign b.sign
    | zero h' =>
      simpa [fpcmpParts,isnan,isinf,h,h'] using (ordered_inf_finite (F := F) a.sign b.sign 0).1
    | number hn hlt h' =>
      simpa [fpcmpParts,isnan,isinf,h,h'.cls] using (ordered_inf_finite (F := F) a.sign b.sign _).1
  | zero h =>
    cases hb with
    | nan _ => exact absurd rfl hy
    | inf h' =>
      simpa [fpcmpParts,isnan,isinf,h,h'] using (ordered_inf_finite (F := F) b.sign a.sign 0).2
    | zero h' =>
      have heq : Ordered (value F a.sign 0) (value F b.sign 0) 0 :=
        ordered_eq ((value_zero _).trans (value_zero _).symm)
      simpa [fpcmpParts,isnan,isinf,iszero,h,h'] using ordered_finite heq
    | number hn hlt h' =>
      simpa [fpcmpParts,isnan,isinf,iszero,h,h'.cls] using
        ordered_finite (ordered_zero_number hn a.sign b.sign).1
  | number hm hlt h =>
    cases hb with
    | nan _ => exact absurd rfl hy
    | inf h' =>
      simpa [fpcmpParts,isnan,isinf,h.cls,h'] using (ordered_inf_finite (F := F) b.sign a.sign _).2
    | zero h' =>
      simpa [fpcmpParts,isnan,isinf,iszero,h.cls,h'] using
        ordered_finite (ordered_zero_number hm b.sign a.sign).2
    | number hn hlt' h' => exact ordered_finite (ordered_numbers h h' hm hn)

theorem isnan_unpackD (x : Flo F) (a : FpNumber) : isnan (unpackD F x a) = true ↔ decode F x = .nan := by
  have h := unpackD_spec x a
  generalize unpackD F x a = n at h
  generalize decode F x = d at h
  cases h with
  | nan h => exact ⟨fun _ => rfl,fun _ => h⟩
  | inf h => simp [isnan,h]
  | zero h => simp [isnan,h]
  | number _ _ h => simp [isnan,h.cls]

theorem compare_spec (a b : FpNumber) {x y : Flo F} (hx : decode F x ≠ .nan) (hy : decode F y ≠ .nan) :
    Ordered (extended F (decode F x)) (extended F (decode F y)) (compare F a b x y) :=
  fpcmpParts_spec (unpackD_spec x a) (unpackD_spec y b) hx hy

theorem predicate_ordered (unordered : ℤ) (a b : FpNumber) {x y : Flo F} (hx : decode F x ≠ .nan)
    (hy : decode F y ≠ .nan) : predicate F unordered a b x y = compare F a b x y := by
  have hx' : isnan (unpackD F x a) = false := by
    rw [← Bool.not_eq_true,isnan_unpackD]
    exact hx
  have hy' : isnan (unpackD F y b) = false := by
    rw [← Bool.not_eq_true,isnan_unpackD]
    exact hy
  rw [predicate,hx',hy']
  rfl

theorem predicate_unordered (unordered : ℤ) (a b : FpNumber) {x y : Flo F}
    (h : decode F x = .nan ∨ decode F y = .nan) : predicate F unordered a b x y = unordered := by
  have hnan : (isnan (unpackD F x a) || isnan (unpackD F y b)) = true := by
    rw [Bool.or_eq_true,isnan_unpackD,isnan_unpackD]
    exact h
  rw [predicate,if_pos hnan]

theorem compare_le_iff (a b : FpNumber) {x y : Flo F} (hx : decode F x ≠ .nan)
    (hy : decode F y ≠ .nan) :
    compare F a b x y ≤ 0 ↔ extended F (decode F x) ≤ extended F (decode F y) := by
  rw [← not_lt,(compare_spec a b hx hy).gt,not_lt]

/-- All seven routines of one pair of operands. -/
def comparisons (F : Format) (a b : FpNumber) (x y : Flo F) : List ℤ :=
  [compare F a b x y,eqF2 F a b x y,neF2 F a b x y,gtF2 F a b x y,geF2 F a b x y,ltF2 F a b x y,
    leF2 F a b x y]

/-- The comparison routines: without a NaN all of them have the sign of the comparison of the numbers,
so that the order is antisymmetric and transitive; with a NaN every predicate is read as false, and
`ne` as true. -/
theorem comparison (F : Format) (a b : FpNumber) (x y z : Flo F) :
    (decode F x ≠ .nan → decode F y ≠ .nan →
      (∀ r ∈ comparisons F a b x y, Ordered (extended F (decode F x)) (extended F (decode F y)) r) ∧
      (compare F a b x y ≤ 0 → compare F a b y x ≤ 0 → compare F a b x y = 0) ∧
      (decode F z ≠ .nan → compare F a b x y ≤ 0 → compare F a b y z ≤ 0 →
        compare F a b x z ≤ 0)) ∧
      (decode F x = .nan ∨ decode F y = .nan → ¬0 < gtF2 F a b x y ∧ ¬0 ≤ geF2 F a b x y ∧
        ¬ltF2 F a b x y < 0 ∧ ¬leF2 F a b x y ≤ 0 ∧ ¬eqF2 F a b x y = 0 ∧ neF2 F a b x y ≠ 0) := by
  constructor
  · intro hx hy
    have hspec := compare_spec a b hx hy
    refine ⟨?_,?_,?_⟩
    · intro r hr
      simp only [comparisons,eqF2,neF2,gtF2,geF2,ltF2,leF2,predicate_ordered _ a b hx hy,
        List.mem_cons,List.not_mem_nil,or_false,or_self] at hr
      rw [hr]
      exact hspec
    · intro hxy hyx
      rw [compare_le_iff a b hx hy] at hxy
      rw [compare_le_iff a b hy hx] at hyx
      exact hspec.eq.mpr (le_antisymm hxy hyx)
    · intro hz hxy hyz
      rw [compare_le_iff a b hx hy] at hxy
      rw [compare_le_iff a b hy hz] at hyz
      exact (compare_le_iff a b hx hz).mpr (hxy.trans hyz)
  · intro hnan
    simp only [eqF2,neF2,gtF2,geF2,ltF2,leF2,predicate_unordered _ a b hnan]
    decide

/-- The smallest negative subnormal, zero and one, and a NaN. -/
theorem comparison_subnormal :
    let small : Flo .float := BitVec.ofNat 32 0x80000001
    let zero : Flo .float := BitVec.ofNat 32 0
    let one : Flo .float := BitVec.ofNat 32 0x3f800000
    let quiet : Flo .float := BitVec.ofNat 32 0x7f900000
    compare .float nan nan small zero ≤ 0 ∧ compare .float nan nan zero one ≤ 0 ∧
      compare .float nan nan small one ≤ 0 ∧ ¬leF2 .float nan nan small quiet ≤ 0 := by
  have h := comparison .float nan nan (BitVec.ofNat 32 0x80000001) (BitVec.ofNat 32 0)
    (BitVec.ofNat 32 0x3f800000)
  have hquiet := comparison .float nan nan (BitVec.ofNat 32 0x80000001) (BitVec.ofNat 32 0x7f900000)
    (BitVec.ofNat 32 0)
  refine ⟨by decide +kernel,by decide +kernel,?_,(hquiet.2 (.inr (by decide))).2.2.2.1⟩
  exact (h.1 (by decide) (by decide)).2.2 (by decide) (by decide +kernel) (by decide +kernel)

end Order

end SoftFloat
end AgbTools
