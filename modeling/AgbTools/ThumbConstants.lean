import AgbTools.ThumbMachine

/-! How the machine description expands moves, masks and comparisons with a constant. The expansions
use only constants that fit an immediate field. -/
namespace AgbTools
namespace Thumb
namespace Constants

section Model

structure Flags where
  n : Bool
  z : Bool
  c : Bool
  v : Bool
deriving DecidableEq, Repr

/-- Registers, of which there are as many as an expansion asks for, and the condition code. -/
structure State where
  reg : ℕ → Word
  flags : Flags

inductive Insn
  | mov (d : ℕ) (w : Word)
  | neg (d r : ℕ)
  | ashl (d r k : ℕ)
  | lshr (d r k : ℕ)
  | ashr (d r k : ℕ)
  | and (d a b : ℕ)
  | bic (d a b : ℕ)
  | cmp (a b : ℕ)
  | cmpImm (a : ℕ) (w : Word)
  | cmn (a b : ℕ)
deriving DecidableEq, Repr

/-- The flags of a subtraction: the carry is set when nothing is borrowed. -/
def subFlags (x y : Word) : Flags :=
  { n := (x-y).msb
    z := decide (x-y = 0)
    c := decide (y.toNat ≤ x.toNat)
    v := decide (x.toInt-y.toInt < -2^31 ∨ 2^31 ≤ x.toInt-y.toInt) }

def addFlags (x y : Word) : Flags :=
  { n := (x+y).msb
    z := decide (x+y = 0)
    c := decide (2^32 ≤ x.toNat+y.toNat)
    v := decide (x.toInt+y.toInt < -2^31 ∨ 2^31 ≤ x.toInt+y.toInt) }

def State.set (s : State) (d : ℕ) (w : Word) : State := { s with reg := Function.update s.reg d w }

def Insn.step (s : State) : Insn → State
  | .mov d w => s.set d w
  | .neg d r => s.set d (-s.reg r)
  | .ashl d r k => s.set d (s.reg r <<< k)
  | .lshr d r k => s.set d (s.reg r >>> k)
  | .ashr d r k => s.set d ((s.reg r).sshiftRight k)
  | .and d a b => s.set d (s.reg a &&& s.reg b)
  | .bic d a b => s.set d (~~~s.reg a &&& s.reg b)
  | .cmp a b => { s with flags := subFlags (s.reg a) (s.reg b) }
  | .cmpImm a w => { s with flags := subFlags (s.reg a) w }
  | .cmn a b => { s with flags := addFlags (s.reg a) (s.reg b) }

def run (code : List Insn) (s : State) : State := code.foldl Insn.step s

def fits (c : Word) (i : ℕ) : Bool := decide (c &&& (0xff#32 <<< i) = c)

/-- `thumb_shiftable_const`. -/
def thumbShiftableConst (c : Word) : Bool := (List.range 25).any (fits c)

/-- The split of a shiftable constant; it fails for one that needs no shift. -/
def splitShiftable (d : ℕ) (c : Word) : Option (List Insn) :=
  if thumbShiftableConst c then
    match (List.range 25).find? (fits c) with
    | some 0 => none
    | some i => some [.mov d (c >>> i),.ashl d d i]
    | none => none
  else none

/-- The split of a small negative constant. -/
def splitNegative (d : ℕ) (c : Word) : Option (List Insn) :=
  if c.toInt < 0 ∧ -256 < c.toInt then some [.mov d (-c),.neg d d] else none

/-- The alternative of `*movdi_insn` for a small constant, in the registers `%Q0` and `%R0`. -/
def movdiSmall (d : ℕ) (c : Word) : Option (List Insn) :=
  if c.toNat < 256 then some [.mov d c,.mov (d+1) 0] else none

/-- The alternative for a small negative constant or zero. -/
def movdiNegative (d : ℕ) (c : Word) : Option (List Insn) :=
  if -256 < c.toInt ∧ c.toInt ≤ 0 then some [.mov d (-c),.neg d d,.ashr (d+1) d 31] else none

/-- `extzv`; `t` is the register it makes. -/
def extzv (d x t width pos : ℕ) : List Insn :=
  if 32-width-pos = 0 then [.lshr d x (32-width)]
  else [.ashl t x (32-width-pos),.lshr d t (32-width)]

/-- The search for a mask of low or of high ones; at 31 the subtraction wraps around. -/
def maskLoop (d x t : ℕ) (c : Word) : List ℕ → Option (List Insn)
  | [] => none
  | i::is =>
    if (1#32 <<< i)-1#32 = c then some (extzv d x t i 0)
    else if (1#32 <<< i)-1#32 = ~~~c then some [.lshr t x i,.ashl d t i]
    else maskLoop d x t c is

/-- `andsi3` with a constant. -/
def andsi3 (d x t : ℕ) (c : Word) : List Insn :=
  if (~~~c).toNat < 256 then [.mov t (~~~c),.bic d t x]
  else
    match maskLoop d x t c (List.range' 9 23) with
    | some code => code
    | none => [.mov t c,.and d x t]

/-- `cmpsi` with a constant. -/
def cmpsi (x t : ℕ) (c : Word) : List Insn :=
  if 256 ≤ c.toNat then
    if c.toInt < -255 ∨ 0 < c.toInt then [.mov t c,.cmp x t] else [.mov t (-c),.cmn x t]
  else [.cmpImm x c]

inductive Cond
  | eq | ne | geu | ltu | gtu | leu | ge | lt | gt | le
deriving DecidableEq, Repr

/-- When a branch on the condition is taken, by the suffix `thumb_condition_code` gives it. -/
def Cond.holds (f : Flags) : Cond → Bool
  | .eq => f.z
  | .ne => !f.z
  | .geu => f.c
  | .ltu => !f.c
  | .gtu => f.c && !f.z
  | .leu => !f.c || f.z
  | .ge => f.n == f.v
  | .lt => f.n != f.v
  | .gt => !f.z && f.n == f.v
  | .le => f.z || f.n != f.v

/-- What the condition compares. -/
def Cond.compares (x y : Word) : Cond → Prop
  | .eq => x = y
  | .ne => x ≠ y
  | .geu => y.toNat ≤ x.toNat
  | .ltu => x.toNat < y.toNat
  | .gtu => y.toNat < x.toNat
  | .leu => x.toNat ≤ y.toNat
  | .ge => y.toInt ≤ x.toInt
  | .lt => x.toInt < y.toInt
  | .gt => y.toInt < x.toInt
  | .le => x.toInt ≤ y.toInt

end Model

section Moves

variable {c : Word} {i : ℕ}

/-- A constant within eight bits is shifted down and up again. -/
theorem shift_back (h : c &&& (0xff#32 <<< i) = c) : (c >>> i) <<< i = c := by
  conv_rhs => rw [← h]
  nth_rewrite 1 [← h]
  ext j hj
  simp
  grind

theorem shifted_small (h : c &&& (0xff#32 <<< i) = c) : (c >>> i).toNat < 256 := by
  have hle : c.toNat ≤ 255*2^i := by
    have hnat := congrArg BitVec.toNat h
    rw [BitVec.toNat_and] at hnat
    rw [← hnat]
    apply Nat.le_trans Nat.and_le_right
    rw [BitVec.toNat_shiftLeft,Nat.shiftLeft_eq]
    exact Nat.mod_le _ _
  rw [BitVec.toNat_ushiftRight,Nat.shiftRight_eq_div_pow]
  apply Nat.div_lt_of_lt_mul
  have := Nat.two_pow_pos i
  omega

/-- The constants of an expansion's moves are those of an immediate field. -/
def SmallMoves (code : List Insn) : Prop := ∀ d w, Insn.mov d w ∈ code → w.toNat < 256

@[simp] theorem set_set (s : State) (d : ℕ) (v w : Word) : (s.set d v).set d w = s.set d w := by
  simp [State.set]

@[simp] theorem set_reg (s : State) (d : ℕ) (w : Word) : (s.set d w).reg d = w :=
  Function.update_self ..

theorem set_reg_of_ne (s : State) {d r : ℕ} (h : r ≠ d) (w : Word) : (s.set d w).reg r = s.reg r :=
  Function.update_of_ne h ..

theorem splitShiftable_spec {d : ℕ} {code : List Insn} (h : splitShiftable d c = some code) (s : State) :
    run code s = s.set d c ∧ SmallMoves code := by
  unfold splitShiftable at h
  split at h
  · split at h
    · cases h
    · rename_i i _ hfind
      obtain rfl := Option.some.inj h
      have htrue : fits c i = true := List.find?_some hfind
      have hfits : c &&& (0xff#32 <<< i) = c := of_decide_eq_true htrue
      constructor
      · simp [run,Insn.step,shift_back hfits]
      · intro d' w hmem
        obtain ⟨-,rfl⟩ : d' = d ∧ w = c >>> i := by simpa using hmem
        exact shifted_small hfits
    · cases h
  · cases h

theorem toNat_neg_small (hlow : -256 < c.toInt) (hhigh : c.toInt ≤ 0) : (-c).toNat < 256 := by
  have hlt := c.isLt
  rw [BitVec.toInt_eq_toNat_cond] at hlow hhigh
  rw [BitVec.toNat_neg]
  split at hlow <;> split at hhigh <;> omega

theorem splitNegative_spec {d : ℕ} {code : List Insn} (h : splitNegative d c = some code) (s : State) :
    run code s = s.set d c ∧ SmallMoves code := by
  unfold splitNegative at h
  split at h
  · rename_i hrange
    obtain rfl := Option.some.inj h
    constructor
    · simp [run,Insn.step]
    · intro d' w hmem
      obtain ⟨-,rfl⟩ : d' = d ∧ w = -c := by simpa using hmem
      exact toNat_neg_small hrange.2 (Int.le_of_lt hrange.1)
  · cases h

/-- The 64-bit number in a pair of registers. -/
def State.pair (s : State) (d : ℕ) : BitVec 64 := s.reg (d+1)++s.reg d

theorem append_sshiftRight (c : Word) : c.sshiftRight 31++c = c.signExtend 64 := by
  ext j hj
  rw [BitVec.getElem_append,BitVec.getElem_signExtend]
  by_cases h : j < 32
  · simp [h]
  · have : 31+(j-32) < 32 ↔ j = 32 := by omega
    simp [h,BitVec.msb_eq_getLsbD_last]
    grind

theorem append_zero (h : c.toNat < 256) : (0#32)++c = c.signExtend 64 := by
  have hmsb : c.msb = false := by
    rw [BitVec.msb_eq_decide]
    simp
    omega
  ext j hj
  rw [BitVec.getElem_append,BitVec.getElem_signExtend]
  by_cases h : j < 32
  · simp [h]
  · simp [h,hmsb]

theorem movdiNegative_spec {d : ℕ} {code : List Insn} (h : movdiNegative d c = some code) (s : State) :
    (run code s).pair d = c.signExtend 64 ∧ (∀ r, r ≠ d → r ≠ d+1 → (run code s).reg r = s.reg r) ∧
      SmallMoves code := by
  unfold movdiNegative at h
  split at h
  · rename_i hrange
    obtain rfl := Option.some.inj h
    refine ⟨?_,?_,?_⟩
    · rw [← append_sshiftRight]
      simp [run,Insn.step,State.pair,State.set,Function.update]
    · intro r hr hr'
      simp [run,Insn.step,State.set,Function.update,hr,hr']
    · intro d' w hmem
      obtain ⟨-,rfl⟩ : d' = d ∧ w = -c := by simpa using hmem
      exact toNat_neg_small hrange.1 hrange.2
  · cases h

theorem movdiSmall_spec {d : ℕ} {code : List Insn} (h : movdiSmall d c = some code) (s : State) :
    (run code s).pair d = c.signExtend 64 := by
  unfold movdiSmall at h
  split at h
  · rename_i hsmall
    obtain rfl := Option.some.inj h
    rw [← append_zero hsmall]
    simp [run,Insn.step,State.pair,State.set,Function.update]
  · cases h

end Moves

section Masks

variable {i : ℕ}

theorem toNat_mask (hi : i ≤ 31) : ((1#32 <<< i)-1#32).toNat = 2^i-1 := by
  have hpow : 2^i ≤ 2^31 := Nat.pow_le_pow_right Nat.two_pos hi
  have hpos := Nat.two_pow_pos i
  have hone : (1#32).toNat = 1 := rfl
  rw [BitVec.toNat_sub,BitVec.toNat_shiftLeft,Nat.shiftLeft_eq,hone,Nat.one_mul]
  omega

/-- Up and down again leaves the low bits. -/
theorem shift_low (x : Word) (hi : i ≤ 31) :
    (x <<< (32-i)) >>> (32-i) = x &&& ((1#32 <<< i)-1#32) := by
  apply BitVec.eq_of_toNat_eq
  have hsplit : 2^32 = 2^i*2^(32-i) := by
    rw [← Nat.pow_add]
    congr 1
    omega
  rw [BitVec.toNat_and,toNat_mask hi,Nat.and_two_pow_sub_one_eq_mod,BitVec.toNat_ushiftRight,
    BitVec.toNat_shiftLeft,Nat.shiftLeft_eq,Nat.shiftRight_eq_div_pow,hsplit,Nat.mul_mod_mul_right,
    Nat.mul_div_cancel _ (Nat.two_pow_pos _)]

/-- Down and up again leaves the high bits. -/
theorem shift_high (x : Word) (hi : i ≤ 31) :
    (x >>> i) <<< i = x &&& ~~~((1#32 <<< i)-1#32) := by
  have hmask : ∀ j, ((1#32 <<< i)-1#32).getLsbD j = decide (j < i) := by
    intro j
    rw [BitVec.getLsbD,toNat_mask hi,Nat.testBit_two_pow_sub_one]
  apply BitVec.eq_of_getLsbD_eq
  intro j hj
  rw [BitVec.getLsbD_and,BitVec.getLsbD_not,BitVec.getLsbD_shiftLeft,BitVec.getLsbD_ushiftRight,hmask]
  by_cases h : j < i
  · simp [h]
  · have hadd : i+(j-i) = j := by omega
    simp [h,hj,hadd]

/-- Code that puts a word into its destination and changes no other register except its scratch. -/
def Computes (code : List Insn) (s : State) (d t : ℕ) (w : Word) : Prop :=
  (run code s).reg d = w ∧ ∀ r, r ≠ d → r ≠ t → (run code s).reg r = s.reg r

variable {s : State} {d x t : ℕ} {c : Word}

theorem extzv_computes (hi : i ≤ 31) : Computes (extzv d x t i 0) s d t (s.reg x &&& ((1#32 <<< i)-1#32)) := by
  have hshift : ¬32-i-0 = 0 := by omega
  rw [extzv,if_neg hshift,← shift_low _ hi]
  constructor
  · simp [run,Insn.step]
  · intro r hr ht
    simp [run,Insn.step,set_reg_of_ne,hr,ht]

/-- Whatever mask the loop finds, the code computes the conjunction with it. -/
theorem maskLoop_computes {is : List ℕ} (his : ∀ i ∈ is, i ≤ 31) {code : List Insn}
    (h : maskLoop d x t c is = some code) : Computes code s d t (s.reg x &&& c) := by
  induction is with
  | nil => cases h
  | cons i is ih =>
    have hi := his i List.mem_cons_self
    rw [maskLoop] at h
    split at h
    · rename_i hmask
      obtain rfl := Option.some.inj h
      rw [← hmask]
      exact extzv_computes hi
    split at h
    · rename_i hmask
      obtain rfl := Option.some.inj h
      have hc : c = ~~~((1#32 <<< i)-1#32) := by rw [hmask,BitVec.not_not]
      rw [hc,← shift_high _ hi]
      constructor
      · simp [run,Insn.step]
      · intro r hr ht
        simp [run,Insn.step,set_reg_of_ne,hr,ht]
    · exact ih (fun j hj => his j (List.mem_cons_of_mem _ hj)) h

theorem andsi3_computes (ht : x ≠ t) : Computes (andsi3 d x t c) s d t (s.reg x &&& c) := by
  rw [andsi3]
  split
  · constructor
    · simp [run,Insn.step,set_reg_of_ne _ ht,BitVec.and_comm]
    · intro r hr hrt
      simp [run,Insn.step,set_reg_of_ne,hr,hrt]
  split
  · rename_i hloop
    apply maskLoop_computes _ hloop
    intro i hi
    have := List.mem_range'_1.mp hi
    omega
  · constructor
    · simp [run,Insn.step,set_reg_of_ne _ ht]
    · intro r hr hrt
      simp [run,Insn.step,set_reg_of_ne,hr,hrt]

end Masks

section Comparisons

variable {s : State} {x t : ℕ} {c : Word}

/-- Adding the negated constant sets the flags of the subtraction; zero, where the carry would differ,
is not negated. -/
theorem addFlags_neg (y : Word) (hlow : -255 ≤ c.toInt) (hhigh : c.toInt ≤ 0) (hc : 256 ≤ c.toNat) :
    addFlags y (-c) = subFlags y c := by
  have hlt := c.isLt
  have hint := BitVec.toInt_eq_toNat_cond c
  have hnat : (-c).toNat = 2^32-c.toNat := by
    rw [BitVec.toNat_neg]
    omega
  have hneg : (-c).toInt = -c.toInt := by
    rw [BitVec.toInt_eq_toNat_cond,hnat]
    split at hint <;> split <;> omega
  have hsum : y+-c = y-c := (BitVec.sub_eq_add_neg ..).symm
  have hcarry : 2^32 ≤ y.toNat+(-c).toNat ↔ c.toNat ≤ y.toNat := by omega
  rw [addFlags,subFlags,hsum,hneg,← Int.sub_eq_add_neg]
  simp only [hcarry]

theorem cmpsi_flags (ht : x ≠ t) : (run (cmpsi x t c) s).flags = subFlags (s.reg x) c := by
  rw [cmpsi]
  split
  · rename_i hlarge
    split
    · simp [run,Insn.step,set_reg_of_ne _ ht]
    · rename_i hrange
      have hflags := addFlags_neg (s.reg x) (c := c) (by omega) (by omega) hlarge
      simpa [run,Insn.step,set_reg_of_ne _ ht] using hflags
  · rfl

theorem zero_iff (y w : Word) : (subFlags y w).z = true ↔ y = w := by
  rw [subFlags,decide_eq_true_eq]
  constructor
  · intro h
    have hadd := congrArg (fun v : Word => v+w) h
    have hzero : 0+w = w := BitVec.zero_add w
    rwa [BitVec.sub_add_cancel,hzero] at hadd
  · rintro rfl
    exact BitVec.sub_self y

/-- The sign of the difference, corrected by the overflow, is that of the numbers' difference. -/
theorem signed_iff (y w : Word) : (subFlags y w).n = (subFlags y w).v ↔ w.toInt ≤ y.toInt := by
  have hy := y.isLt
  have hw := w.isLt
  have hsub : (y-w).toNat = if w.toNat ≤ y.toNat then y.toNat-w.toNat else 2^32+y.toNat-w.toNat := by
    rw [BitVec.toNat_sub]
    split <;> omega
  have hmsb : (y-w).msb = decide (2^31 ≤ (y-w).toNat) := BitVec.msb_eq_decide _
  rw [subFlags]
  simp only [hmsb,decide_eq_decide,hsub]
  rw [BitVec.toInt_eq_toNat_cond,BitVec.toInt_eq_toNat_cond]
  split <;> split <;> split <;> omega

/-- Every branch decides as the numbers compare. -/
theorem holds_iff (cond : Cond) (y w : Word) : cond.holds (subFlags y w) = true ↔ cond.compares y w := by
  have hzero := zero_iff y w
  have hsigned := signed_iff y w
  have hcarry : (subFlags y w).c = true ↔ w.toNat ≤ y.toNat := decide_eq_true_iff
  have hnat : y = w ↔ y.toNat = w.toNat := BitVec.toNat_inj.symm
  have hint : y = w ↔ y.toInt = w.toInt := BitVec.toInt_inj.symm
  cases cond with
  | eq => exact hzero
  | ne =>
    simp only [Cond.holds,Cond.compares,Bool.not_eq_true',← Bool.not_eq_true,hzero,ne_eq]
  | geu => exact hcarry
  | ltu =>
    simp only [Cond.holds,Cond.compares,Bool.not_eq_true',← Bool.not_eq_true,hcarry]
    omega
  | gtu =>
    simp only [Cond.holds,Cond.compares,Bool.and_eq_true,Bool.not_eq_true',← Bool.not_eq_true,hcarry,hzero,hnat]
    omega
  | leu =>
    simp only [Cond.holds,Cond.compares,Bool.or_eq_true,Bool.not_eq_true',← Bool.not_eq_true,hcarry,hzero,hnat]
    omega
  | ge =>
    simp only [Cond.holds,Cond.compares,beq_iff_eq,hsigned]
  | lt =>
    simp only [Cond.holds,Cond.compares,bne_iff_ne,ne_eq,hsigned]
    omega
  | gt =>
    simp only [Cond.holds,Cond.compares,Bool.and_eq_true,Bool.not_eq_true',← Bool.not_eq_true,beq_iff_eq,
      hsigned,hzero,hint]
    omega
  | le =>
    simp only [Cond.holds,Cond.compares,Bool.or_eq_true,bne_iff_ne,ne_eq,hsigned,hzero,hint]
    omega

end Comparisons

section Results

/-- The expansions with a constant: the splits and the 64-bit moves load it and use immediates only,
the masks compute the conjunction, and the comparisons set the flags of the subtraction, so that every
branch decides as the numbers compare. -/
theorem constant_expansions (c : Word) (s : State) :
    (∀ d code, splitShiftable d c = some code → run code s = s.set d c ∧ SmallMoves code) ∧
      (∀ d code, splitNegative d c = some code → run code s = s.set d c ∧ SmallMoves code) ∧
      (∀ d code, movdiSmall d c = some code ∨ movdiNegative d c = some code →
        (run code s).pair d = c.signExtend 64) ∧
      (∀ d x t, x ≠ t → Computes (andsi3 d x t c) s d t (s.reg x &&& c)) ∧
      (∀ x t, x ≠ t → (run (cmpsi x t c) s).flags = subFlags (s.reg x) c ∧
        ∀ cond : Cond, cond.holds (run (cmpsi x t c) s).flags = true ↔ cond.compares (s.reg x) c) := by
  refine ⟨?_,?_,?_,?_,?_⟩
  · intro d code h
    exact splitShiftable_spec h s
  · intro d code h
    exact splitNegative_spec h s
  · rintro d code (h | h)
    · exact movdiSmall_spec h s
    · exact (movdiNegative_spec h s).1
  · intro d x t ht
    exact andsi3_computes ht
  · intro x t ht
    have hflags := cmpsi_flags (s := s) (c := c) ht
    refine ⟨hflags,?_⟩
    intro cond
    rw [hflags]
    exact holds_iff cond (s.reg x) c

/-- The constants at the ends of the ranges. -/
theorem constant_expansions_edges :
    (∀ s : State, run [.mov 0 0xff,.ashl 0 0 24] s = s.set 0 0xff000000) ∧
      (∀ s : State, run [.mov 0 255,.neg 0 0] s = s.set 0 (-255)) ∧
      (∀ s : State, (run [.mov 0 255,.neg 0 0,.ashr 1 0 31] s).pair 0 = -255) ∧
      (∀ s : State, Computes [.lshr 2 1 31,.ashl 0 2 31] s 0 2 (s.reg 1 &&& 0x80000000)) ∧
      ∀ s : State, (run [.mov 2 255,.cmn 1 2] s).flags = subFlags (s.reg 1) (-255) := by
  refine ⟨?_,?_,?_,?_,?_⟩
  · intro s
    exact ((constant_expansions 0xff000000 s).1 0 _ (by decide)).1
  · intro s
    exact ((constant_expansions (-255) s).2.1 0 _ (by decide)).1
  · intro s
    exact (constant_expansions (-255) s).2.2.1 0 _ (.inr (by decide))
  · intro s
    exact (constant_expansions 0x80000000 s).2.2.2.1 0 1 2 (by decide)
  · intro s
    exact ((constant_expansions (-255) s).2.2.2.2 1 2 (by decide)).1

end Results

end Constants
end Thumb
end AgbTools
