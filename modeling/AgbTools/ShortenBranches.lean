import AgbTools.PaddedLayout
import Mathlib.Algebra.Order.BigOperators.Group.Finset
import Mathlib.Data.Int.Bitwise

/-! `shorten_branches` of final.c over the branch patterns of thumb.md: lengths and addresses of an
instruction stream are recomputed pass by pass until no length changes. -/
namespace AgbTools
namespace ShortenBranches

open PaddedLayout

section Model

/-- The patterns whose length varies. -/
inductive Kind
  | jump
  | condBranch
  | condBranchReversed
deriving DecidableEq, Repr

/-- Both conditional patterns have this length attribute; the argument is target minus `pc`. -/
def condLength (d : ℤ) : ℕ :=
  if -252 ≤ d ∧ d ≤ 254 then 2 else if -2044 ≤ d ∧ d ≤ 2044 then 4 else 6

def Kind.length : Kind → ℤ → ℕ
  | .jump, d => if -2048 ≤ d ∧ d ≤ 2044 then 2 else 4
  | .condBranch, d => condLength d
  | .condBranchReversed, d => condLength d

/-- `insn_default_length`: the largest value of the attribute. -/
def Kind.defaultLength : Kind → ℕ
  | .jump => 4
  | .condBranch => 6
  | .condBranchReversed => 6

/-- An insn of the stream: one of fixed length, in halfwords, a label with the logarithm of its
alignment, or a branch to the label at a place of the stream. -/
inductive Insn
  | fixed (halfwords : ℕ)
  | label (log : ℕ)
  | branch (kind : Kind) (dest : ℕ)
deriving DecidableEq, Repr

structure Stream where
  code : List Insn
  dest_label : ∀ kind dest, .branch kind dest ∈ code → ∃ log, code[dest]? = some (.label log)

def Stream.insn (S : Stream) (i : ℕ) : Insn := S.code.getD i (.fixed 0)

/-- `LABEL_TO_ALIGNMENT`, and no alignment for what is no label. -/
def Insn.log : Insn → ℕ
  | .label log => log
  | _ => 0

def Stream.log (S : Stream) (i : ℕ) : ℕ := (S.insn i).log

/-- `insn_addresses` and `insn_lengths`. -/
structure Layout where
  addr : ℕ → ℕ
  len : ℕ → ℕ

def Layout.setAddr (lay : Layout) (i a : ℕ) : Layout := { lay with addr := Function.update lay.addr i a }

def Layout.setLen (lay : Layout) (i n : ℕ) : Layout := { lay with len := Function.update lay.len i n }

section Set

variable {lay : Layout} {i j : ℕ}

@[simp] theorem setAddr_len (a : ℕ) : (lay.setAddr i a).len = lay.len := rfl

@[simp] theorem setLen_addr (n : ℕ) : (lay.setLen i n).addr = lay.addr := rfl

@[simp] theorem setAddr_same (a : ℕ) : (lay.setAddr i a).addr i = a := Function.update_self ..

@[simp] theorem setLen_same (n : ℕ) : (lay.setLen i n).len i = n := Function.update_self ..

theorem setAddr_other {a : ℕ} (h : j ≠ i) : (lay.setAddr i a).addr j = lay.addr j :=
  Function.update_of_ne h ..

theorem setLen_other {n : ℕ} (h : j ≠ i) : (lay.setLen i n).len j = lay.len j :=
  Function.update_of_ne h ..

end Set

/-- All lengths are multiples of two. -/
def lengthUnitLog : ℕ := 1

/-- `align_tab[k]` after a scan from the end down to place `i`: the first insn from there on that is
aligned to more than `2^k`. -/
def alignTab : List Insn → ℕ → ℕ → Option ℕ
  | [], _, _ => none
  | x::xs, i, k => if k < x.log then some i else alignTab xs (i+1) k

/-- `uid_align`: the next insn of the alignment chain. -/
def Stream.uidAlign (S : Stream) (i : ℕ) : Option ℕ :=
  alignTab (S.code.drop (i+1)) (i+1) (S.log i)

/-- The loop of `align_fuzz` from a place of the chain; there are no more steps than insns. -/
def fuzzLoop (S : Stream) (lay : Layout) (last : ℕ) (growth : ℤ) : ℕ → ℕ → ℕ → ℤ
  | 0, _, _ => 0
  | f+1, i, knownAlign =>
    match S.uidAlign i with
    | none => 0
    | some l =>
      let alignAddr : ℤ := lay.addr l-lay.len l
      let newAlign := 2^S.log l
      if last < l then 0
      else if newAlign < knownAlign then fuzzLoop S lay last growth f l knownAlign
      else Int.land (Int.xor (-alignAddr) growth) (newAlign-knownAlign)+
        fuzzLoop S lay last growth f l newAlign

def alignFuzz (S : Stream) (lay : Layout) (first last knownAlignLog : ℕ) (growth : ℤ) : ℤ :=
  fuzzLoop S lay last growth S.code.length first (2^knownAlignLog)

/-- `insn_current_reference_address` of a branch, with the complement of zero for growth. -/
def referenceAddress (S : Stream) (lay : Layout) (current last i dest : ℕ) : ℤ :=
  if i < dest then last+lay.len i-alignFuzz S lay i dest lengthUnitLog (-1)
  else current+alignFuzz S lay dest i lengthUnitLog (-1)

/-- `insn_current_length`. -/
def currentLength (S : Stream) (lay : Layout) (current last i : ℕ) (kind : Kind) (dest : ℕ) : ℕ :=
  kind.length (lay.addr dest-referenceAddress S lay current last i dest)

/-- What a pass over the stream carries along. -/
structure Pass where
  lay : Layout
  current : ℕ
  align : ℕ
  changed : Bool

def visit (S : Stream) (i : ℕ) (x : Insn) (p : Pass) : Pass :=
  match x with
  | .label log =>
    if p.align < log then
      let address := roundUp p.current log
      { p with
        lay := (p.lay.setLen i (address-p.current)).setAddr i address
        current := address
        align := log }
    else { p with lay := (p.lay.setLen i 0).setAddr i p.current }
  | .fixed _ =>
    { p with
      lay := p.lay.setAddr i p.current
      current := p.current+p.lay.len i
      align := min p.align lengthUnitLog }
  | .branch kind dest =>
    let lay := p.lay.setAddr i p.current
    let length := currentLength S lay p.current (p.lay.addr i) i kind dest
    { lay := lay.setLen i length
      current := p.current+length
      align := min p.align lengthUnitLog
      changed := p.changed || decide (length ≠ p.lay.len i) }

def visitFrom (S : Stream) : List Insn → ℕ → Pass → Pass
  | [], _, p => p
  | x::xs, i, p => visitFrom S xs (i+1) (visit S i x p)

/-- One pass, from address zero, which has every alignment. -/
def pass (S : Stream) (lay : Layout) : Pass :=
  visitFrom S S.code 0 { lay := lay, current := 0, align := 15, changed := false }

/-- The padding in front of an insn in the initial layout, and its length. -/
def initialLength (current : ℕ) : Insn → ℕ × ℕ
  | .label log => (roundUp current log-current,roundUp current log-current)
  | .fixed h => (0,2*h)
  | .branch kind _ => (0,kind.defaultLength)

/-- The initial lengths and addresses. A label's padding counts twice: it moves the label, and as the
label's length it moves what follows. -/
def initialFrom : List Insn → ℕ → ℕ → Layout → Layout
  | [], _, _, lay => lay
  | x::xs, i, current, lay =>
    let address := current+(initialLength current x).1
    let length := (initialLength current x).2
    initialFrom xs (i+1) (address+length) ((lay.setAddr i address).setLen i length)

def initial (S : Stream) : Layout :=
  initialFrom S.code 0 0 { addr := fun _ => 0, len := fun _ => 0 }

/-- The layout after a number of passes. -/
def passes (S : Stream) : ℕ → Layout
  | 0 => initial S
  | n+1 => (pass S (passes S n)).lay

end Model

section Slack

theorem and_two_pow_sub (x : ℕ) {k j : ℕ} (h : k ≤ j) : x &&& (2^j-2^k) = x%2^j/2^k*2^k := by
  obtain ⟨d,rfl⟩ := Nat.exists_eq_add_of_le h
  have hmask : 2^(k+d)-2^k = (2^d-1)*2^k := by
    rw [Nat.sub_one_mul,pow_add,Nat.mul_comm]
  rw [hmask]
  apply Nat.eq_of_testBit_eq
  intro i
  rw [Nat.testBit_and,Nat.testBit_mul_two_pow,Nat.testBit_mul_two_pow,Nat.testBit_div_two_pow,
    Nat.testBit_mod_two_pow,Nat.testBit_two_pow_sub_one]
  by_cases hi : k ≤ i
  · have hsub : i-k+k = i := by omega
    have hiff : decide (i-k < d) = decide (i < k+d) := decide_eq_decide.mpr (by omega)
    rw [decide_eq_true hi,hsub,hiff]
    simp [Bool.and_comm]
  · rw [decide_eq_false hi]
    simp

theorem xor_neg_one (a : ℕ) : Int.xor (-(a : ℤ)) (-1) = (a : ℤ)-1 := by
  cases a with
  | zero => rfl
  | succ a =>
    have hneg : -((a+1 : ℕ) : ℤ) = Int.negSucc a := rfl
    have hone : (-1 : ℤ) = Int.negSucc 0 := rfl
    rw [hneg,hone]
    change ((a ^^^ 0 : ℕ) : ℤ) = _
    rw [Nat.xor_zero]
    push_cast
    ring

theorem growth_eq_slack (a : ℕ) {k j : ℕ} (h : k ≤ j) :
    Int.land (Int.xor (-(a : ℤ)) (-1)) (((2^j : ℕ) : ℤ)-((2^k : ℕ) : ℤ)) = slack k j a := by
  have hle : 2^k ≤ 2^j := Nat.pow_le_pow_right (by omega) h
  have hpos := Nat.two_pow_pos j
  rw [xor_neg_one,← Nat.cast_sub hle]
  unfold slack
  cases a with
  | zero =>
    have hall : (0 : ℕ)+(2^j-1) = 2^j-1 := by omega
    have hand := and_two_pow_sub (2^j-1) h
    have hone : Int.land (((0 : ℕ) : ℤ)-1) ((2^j-2^k : ℕ) : ℤ) = ((2^j-2^k : ℕ) : ℤ) := by
      change ((Nat.ldiff (2^j-2^k) 0 : ℕ) : ℤ) = _
      congr 1
      apply Nat.eq_of_testBit_eq
      intro i
      rw [Nat.testBit_ldiff,Nat.zero_testBit,Bool.not_false,Bool.and_true]
    rw [hone,hall,← hand,Nat.and_comm,Nat.and_two_pow_sub_one_eq_mod,Nat.mod_eq_of_lt (by have := Nat.two_pow_pos k; omega)]
  | succ b =>
    have hb : (((b+1 : ℕ) : ℤ)-1) = (b : ℤ) := by push_cast; ring
    have hsum : b+1+(2^j-1) = b+2^j := by omega
    rw [hb,hsum,Nat.add_mod_right]
    change ((b &&& (2^j-2^k) : ℕ) : ℤ) = _
    rw [and_two_pow_sub b h]

end Slack

section Chain

variable {S : Stream} {lay : Layout} {gap : ℕ → ℕ}

/-- The address at which an insn is reached, before its alignment. -/
def reached (lay : Layout) (gap : ℕ → ℕ) : ℕ → ℕ
  | 0 => 0
  | i+1 => lay.addr i+gap i

/-- Up to place `n` addresses and label lengths follow from what each insn leaves behind it. -/
structure Laid (S : Stream) (gap : ℕ → ℕ) (lay : Layout) (n : ℕ) : Prop where
  addr_eq : ∀ i < n, lay.addr i = roundUp (reached lay gap i) (S.log i)
  len_eq : ∀ i < n, 0 < S.log i → lay.len i = lay.addr i-reached lay gap i

theorem Laid.mono {m n : ℕ} (h : Laid S gap lay n) (hmn : m ≤ n) : Laid S gap lay m :=
  ⟨fun i hi => h.addr_eq i (by omega),fun i hi => h.len_eq i (by omega)⟩

/-- The address of a label in front of its padding. -/
theorem Laid.unpadded {i n : ℕ} (h : Laid S gap lay n) (hi : i < n) (hlog : 0 < S.log i) :
    (lay.addr i : ℤ)-lay.len i = (reached lay gap i : ℕ) := by
  have hle := le_roundUp (reached lay gap i) (S.log i)
  rw [← h.addr_eq i hi] at hle
  rw [h.len_eq i hi hlog,Nat.cast_sub hle]
  ring

theorem Laid.addr_eq_place {a k : ℕ} (h : Laid S gap lay (a+1+k+1)) :
    lay.addr (a+1+k) = place S.log gap (lay.addr a+gap a) (a+1) k := by
  induction k generalizing a with
  | zero => exact h.addr_eq (a+1) (by omega)
  | succ k ih =>
    have hnext : lay.addr (a+1) = roundUp (lay.addr a+gap a) (S.log (a+1)) :=
      h.addr_eq (a+1) (by omega)
    have hrest := @ih (a+1) (h.mono (by omega))
    rw [hnext] at hrest
    rw [show a+1+(k+1) = a+1+1+k by omega]
    exact hrest

theorem alignTab_ge {xs : List Insn} {i k l : ℕ} (h : alignTab xs i k = some l) : i ≤ l := by
  induction xs generalizing i with
  | nil => cases h
  | cons x xs ih =>
    rw [alignTab] at h
    split at h
    · injection h with h
      omega
    · have := ih h
      omega

theorem alignTab_drop {i k : ℕ} (hi : i < S.code.length) : alignTab (S.code.drop i) i k =
    if k < S.log i then some i else alignTab (S.code.drop (i+1)) (i+1) k := by
  rw [List.drop_eq_getElem_cons hi,alignTab,Stream.log,Stream.insn,List.getD_eq_getElem _ _ hi]

/-- The rest of the loop once the next place of the chain is looked for from `i` on. -/
def chainFrom (S : Stream) (lay : Layout) (last f i m knownAlign : ℕ) : ℤ :=
  match alignTab (S.code.drop i) i m with
  | none => 0
  | some l =>
    if last < l then 0
    else if 2^S.log l < knownAlign then fuzzLoop S lay last (-1) f l knownAlign
    else Int.land (Int.xor (-((lay.addr l : ℤ)-lay.len l)) (-1)) (((2^S.log l : ℕ) : ℤ)-knownAlign)+
      fuzzLoop S lay last (-1) f l (2^S.log l)

theorem fuzzLoop_succ (last f i knownAlign : ℕ) : fuzzLoop S lay last (-1) (f+1) i knownAlign =
    chainFrom S lay last f (i+1) (S.log i) knownAlign := by
  rw [fuzzLoop,chainFrom,Stream.uidAlign]

theorem chainFrom_past {last f i m knownAlign : ℕ} (h : last < i) :
    chainFrom S lay last f i m knownAlign = 0 := by
  unfold chainFrom
  split
  · rfl
  · rename_i l hl
    exact if_pos (Nat.lt_of_lt_of_le h (alignTab_ge hl))

theorem fuzzLoop_past {last f i knownAlign : ℕ} (h : last ≤ i) :
    fuzzLoop S lay last (-1) f i knownAlign = 0 := by
  cases f with
  | zero => rfl
  | succ f => rw [fuzzLoop_succ,chainFrom_past (by omega)]

theorem chainFrom_label {last f i m k : ℕ} (hi : i < S.code.length) (hlast : i ≤ last)
    (h : Laid S gap lay (i+1)) (hm : m < S.log i) (hk : k ≤ m+1) :
    chainFrom S lay last f i m (2^k) =
      slack k (S.log i) (reached lay gap i)+fuzzLoop S lay last (-1) f i (2^S.log i) := by
  have hle : k ≤ S.log i := by omega
  have hpow : ¬2^S.log i < 2^k := Nat.not_lt.mpr (Nat.pow_le_pow_right (by omega) hle)
  unfold chainFrom
  rw [alignTab_drop hi,if_pos hm]
  simp only
  rw [if_neg (by omega),if_neg hpow,h.unpadded (Nat.lt_succ_self i) (by omega),growth_eq_slack _ hle]

theorem chainFrom_skip {last f i m knownAlign : ℕ} (hi : i < S.code.length) (hm : ¬m < S.log i) :
    chainFrom S lay last f i m knownAlign = chainFrom S lay last f (i+1) m knownAlign := by
  unfold chainFrom
  rw [alignTab_drop hi,if_neg hm]

/-- The loop over the alignment chain collects the slack of the labels on the way. -/
theorem chainFrom_eq_fuzz (n : ℕ) : ∀ {f i m k : ℕ}, i+n < S.code.length → n ≤ f → k ≤ m+1 →
    Laid S gap lay (i+n+1) →
    chainFrom S lay (i+n) f i m (2^k) = fuzz S.log gap m k (reached lay gap i) i n := by
  induction n with
  | zero =>
    intro f i m k hi hf hk h
    rw [Nat.add_zero] at hi h ⊢
    by_cases hm : m < S.log i
    · rw [chainFrom_label hi (Nat.le_refl i) h hm hk,fuzzLoop_past (Nat.le_refl i),fuzz,if_pos hm,
        add_zero]
    · rw [chainFrom_skip hi hm,chainFrom_past (Nat.lt_succ_self i),fuzz,if_neg hm]
      rfl
  | succ n ih =>
    intro f i m k hi hf hk h
    have hnext : roundUp (reached lay gap i) (S.log i)+gap i = reached lay gap (i+1) := by
      rw [← h.addr_eq i (by omega)]
      rfl
    have hadd : i+(n+1) = i+1+n := by omega
    by_cases hm : m < S.log i
    · obtain ⟨f,rfl⟩ : ∃ f', f = f'+1 := ⟨f-1,by omega⟩
      rw [chainFrom_label (by omega) (by omega) (h.mono (by omega)) hm hk,fuzzLoop_succ,fuzz,if_pos hm,
        hnext,hadd,ih (by omega) (by omega) (Nat.le_succ _) (by rwa [← hadd]),Nat.cast_add]
    · rw [chainFrom_skip (by omega) hm,fuzz,if_neg hm,hnext,hadd]
      exact ih (by omega) (by omega) hk (by rwa [← hadd])

theorem alignFuzz_eq {a n : ℕ} (hlen : a+1+n < S.code.length) (h : Laid S gap lay (a+1+n+1)) :
    alignFuzz S lay a (a+1+n) lengthUnitLog (-1) =
      fuzz S.log gap (S.log a) 1 (lay.addr a+gap a) (a+1) n := by
  obtain ⟨f,hf⟩ : ∃ f, S.code.length = f+1 := ⟨S.code.length-1,by omega⟩
  rw [alignFuzz,hf,fuzzLoop_succ]
  exact chainFrom_eq_fuzz n (by omega) (by omega) (Nat.le_add_left 1 _) h

/-- Fuzz and distance are the worst case. -/
theorem distance_eq {a n : ℕ} (hlen : a+1+n < S.code.length) (h : Laid S gap lay (a+1+n+1))
    (haligned : 2^S.log a ∣ lay.addr a+gap a) (heven : 2 ∣ lay.addr a+gap a) :
    (lay.addr (a+1+n) : ℤ)+alignFuzz S lay a (a+1+n) lengthUnitLog (-1) =
      (lay.addr a+gap a : ℕ)+worst S.log gap (S.log a) 1 0 (a+1) n := by
  have hadd := @place_add_fuzz S.log gap n (S.log a) 1 (lay.addr a+gap a) 0 (a+1) haligned heven
    (by omega)
  rw [Nat.add_zero] at hadd
  rw [alignFuzz_eq hlen h,h.addr_eq_place]
  exact_mod_cast hadd

end Chain

section Visit

variable {S : Stream} {lay old : Layout} {gap : ℕ → ℕ} {p : Pass} {i : ℕ}

/-- What an insn leaves behind it in a pass: a label nothing, anything else its length. -/
def gapOf (S : Stream) (lay : Layout) (i : ℕ) : ℕ :=
  match S.insn i with
  | .label _ => 0
  | _ => lay.len i

theorem reached_congr {lay' : Layout} {gap' : ℕ → ℕ} (haddr : ∀ j < i, lay'.addr j = lay.addr j)
    (hgap : ∀ j < i, gap' j = gap j) : reached lay' gap' i = reached lay gap i := by
  cases i with
  | zero => rfl
  | succ i => rw [reached,reached,haddr i (Nat.lt_succ_self i),hgap i (Nat.lt_succ_self i)]

theorem Laid.congr {lay' : Layout} {gap' : ℕ → ℕ} {n : ℕ} (h : Laid S gap lay n)
    (haddr : ∀ j < n, lay'.addr j = lay.addr j) (hlen : ∀ j < n, lay'.len j = lay.len j)
    (hgap : ∀ j < n, gap' j = gap j) : Laid S gap' lay' n := by
  have hreached : ∀ j < n, reached lay' gap' j = reached lay gap j := fun j hj =>
    reached_congr (fun l hl => haddr l (by omega)) (fun l hl => hgap l (by omega))
  constructor
  · intro j hj
    rw [haddr j hj,hreached j hj,h.addr_eq j hj]
  · intro j hj hlog
    rw [hlen j hj,haddr j hj,hreached j hj,h.len_eq j hj hlog]

/-- One more place. -/
theorem Laid.succ {n : ℕ} (h : Laid S gap lay n)
    (haddr : lay.addr n = roundUp (reached lay gap n) (S.log n))
    (hlen : 0 < S.log n → lay.len n = lay.addr n-reached lay gap n) : Laid S gap lay (n+1) := by
  constructor
  · intro j hj
    obtain hj | rfl : j < n ∨ j = n := by omega
    · exact h.addr_eq j hj
    · exact haddr
  · intro j hj hlog
    obtain hj | rfl : j < n ∨ j = n := by omega
    · exact h.len_eq j hj hlog
    · exact hlen hlog

theorem two_dvd_roundUp {s k : ℕ} (h : 2 ∣ s) : 2 ∣ roundUp s k := by
  cases k with
  | zero => rwa [roundUp_of_dvd (by rw [pow_zero]; exact one_dvd s)]
  | succ k => exact (dvd_pow_self 2 (Nat.succ_ne_zero k)).trans (two_pow_dvd_roundUp s (k+1))

theorem Laid.even {n : ℕ} (h : Laid S gap lay n) (hgap : ∀ j < n, 2 ∣ gap j) :
    ∀ j < n, 2 ∣ lay.addr j := by
  intro j
  induction j with
  | zero =>
    intro hj
    rw [h.addr_eq 0 hj]
    exact two_dvd_roundUp (dvd_zero 2)
  | succ j ih =>
    intro hj
    rw [h.addr_eq (j+1) hj]
    exact two_dvd_roundUp (Nat.dvd_add (ih (by omega)) (hgap j (by omega)))

/-- The distance that decides the length of a branch: forward over what the last pass left, backward
over what this one has done. -/
def estimate (S : Stream) (gap gap' : ℕ → ℕ) (i dest : ℕ) : ℤ :=
  if i < dest then worst S.log gap 0 1 0 (i+1) (dest-i-1)
  else -worst S.log gap' (S.log dest) 1 0 (dest+1) (i-dest-1)

/-- A layout from which a pass can start. -/
structure Settled (S : Stream) (gap : ℕ → ℕ) (lay : Layout) : Prop where
  laid : Laid S gap lay S.code.length
  even_gap : ∀ i < S.code.length, 2 ∣ gap i
  branch_gap : ∀ i < S.code.length, ∀ kind dest, S.insn i = .branch kind dest → gap i = lay.len i
  even_len : ∀ i < S.code.length, ∀ h, S.insn i = .fixed h → 2 ∣ lay.len i

/-- The state of a pass in front of place `i`. -/
structure Visited (S : Stream) (gap : ℕ → ℕ) (old : Layout) (i : ℕ) (p : Pass) : Prop where
  laid : Laid S (gapOf S p.lay) p.lay i
  even_gap : ∀ j < i, 2 ∣ gapOf S p.lay j
  current : p.current = reached p.lay (gapOf S p.lay) i
  aligned : 2^p.align ∣ p.current
  addr_old : ∀ j, i ≤ j → p.lay.addr j = old.addr j
  len_old : ∀ j, i ≤ j → p.lay.len j = old.len j
  fixed_len : ∀ j < i, ∀ h, S.insn j = .fixed h → p.lay.len j = old.len j
  branch_len : ∀ j < i, ∀ kind dest, S.insn j = .branch kind dest →
    p.lay.len j = kind.length (estimate S gap (gapOf S p.lay) j dest)
  changed : p.changed = true ↔
    ∃ j < i, (∃ kind dest, S.insn j = .branch kind dest) ∧ p.lay.len j ≠ old.len j

theorem gapOf_congr {lay' : Layout} {j : ℕ} (h : lay'.len j = lay.len j) :
    gapOf S lay' j = gapOf S lay j := by
  unfold gapOf
  rw [h]

theorem estimate_congr {gap₁ gap₂ : ℕ → ℕ} {j dest : ℕ} (h : ∀ l < j, gap₁ l = gap₂ l) :
    estimate S gap gap₁ j dest = estimate S gap gap₂ j dest := by
  unfold estimate
  split
  · rfl
  · congr 2
    apply le_antisymm
    · exact worst_mono _ (Nat.le_refl 0) fun l _ hl => (h l (by omega)).le
    · exact worst_mono _ (Nat.le_refl 0) fun l _ hl => (h l (by omega)).ge

/-- What a visit has to do at its own place. -/
structure Visits (S : Stream) (gap : ℕ → ℕ) (old : Layout) (i : ℕ) (p p' : Pass) : Prop where
  addr_other : ∀ j, j ≠ i → p'.lay.addr j = p.lay.addr j
  len_other : ∀ j, j ≠ i → p'.lay.len j = p.lay.len j
  addr_eq : p'.lay.addr i = roundUp p.current (S.log i)
  len_eq : 0 < S.log i → p'.lay.len i = p'.lay.addr i-p.current
  current : p'.current = p'.lay.addr i+gapOf S p'.lay i
  even_gap : 2 ∣ gapOf S p'.lay i
  aligned : 2^p'.align ∣ p'.current
  fixed_len : ∀ h, S.insn i = .fixed h → p'.lay.len i = old.len i
  branch_len : ∀ kind dest, S.insn i = .branch kind dest →
    p'.lay.len i = kind.length (estimate S gap (gapOf S p.lay) i dest)
  changed : p'.changed = true ↔ p.changed = true ∨
    (∃ kind dest, S.insn i = .branch kind dest) ∧ p'.lay.len i ≠ old.len i

theorem Visited.succ {p' : Pass} (h : Visited S gap old i p) (hv : Visits S gap old i p p') :
    Visited S gap old (i+1) p' := by
  have haddr : ∀ j < i, p'.lay.addr j = p.lay.addr j := fun j hj => hv.addr_other j (by omega)
  have hlen : ∀ j < i, p'.lay.len j = p.lay.len j := fun j hj => hv.len_other j (by omega)
  have hgap : ∀ j < i, gapOf S p'.lay j = gapOf S p.lay j := fun j hj => gapOf_congr (hlen j hj)
  have hreached : reached p'.lay (gapOf S p'.lay) i = p.current := by
    rw [h.current]
    exact reached_congr haddr hgap
  have hcases : ∀ j < i+1, j < i ∨ j = i := fun j hj => by omega
  constructor
  · apply (h.laid.congr haddr hlen hgap).succ
    · rw [hreached,hv.addr_eq]
    · rw [hreached]
      exact hv.len_eq
  · intro j hj
    obtain hj | rfl := hcases j hj
    · rw [hgap j hj]
      exact h.even_gap j hj
    · exact hv.even_gap
  · exact hv.current
  · exact hv.aligned
  · intro j hj
    rw [hv.addr_other j (by omega),h.addr_old j (by omega)]
  · intro j hj
    rw [hv.len_other j (by omega),h.len_old j (by omega)]
  · intro j hj n hn
    obtain hj | rfl := hcases j hj
    · rw [hlen j hj,h.fixed_len j hj n hn]
    · exact hv.fixed_len n hn
  · intro j hj kind dest hb
    obtain hj | rfl := hcases j hj
    · rw [hlen j hj,h.branch_len j hj kind dest hb,
        estimate_congr fun l hl => hgap l (by omega)]
    · rw [hv.branch_len kind dest hb,estimate_congr hgap]
  · rw [hv.changed,h.changed]
    constructor
    · rintro (⟨j,hj,hb,hne⟩ | ⟨hb,hne⟩)
      · exact ⟨j,by omega,hb,by rwa [hlen j hj]⟩
      · exact ⟨i,Nat.lt_succ_self i,hb,hne⟩
    · rintro ⟨j,hj,hb,hne⟩
      obtain hj | rfl := hcases j hj
      · exact .inl ⟨j,hj,hb,by rwa [← hlen j hj]⟩
      · exact .inr ⟨hb,hne⟩

end Visit

section Lengths

variable {S : Stream} {lay old : Layout} {gap : ℕ → ℕ} {p : Pass} {i dest : ℕ} {kind : Kind}

theorem fuzzLoop_congr {lay' : Layout} {last f i knownAlign : ℕ} {growth : ℤ}
    (haddr : ∀ j, i < j → lay'.addr j = lay.addr j) (hlen : ∀ j, i < j → lay'.len j = lay.len j) :
    fuzzLoop S lay' last growth f i knownAlign = fuzzLoop S lay last growth f i knownAlign := by
  induction f generalizing i knownAlign with
  | zero => rfl
  | succ f ih =>
    rw [fuzzLoop,fuzzLoop]
    cases hl : S.uidAlign i with
    | none => rfl
    | some l =>
      have hil : i < l := alignTab_ge hl
      have hrest : ∀ k, fuzzLoop S lay' last growth f l k = fuzzLoop S lay last growth f l k :=
        fun k => ih (fun j hj => haddr j (by omega)) (fun j hj => hlen j (by omega))
      simp only [haddr l hil,hlen l hil,hrest]

theorem insn_eq_getElem (hi : i < S.code.length) : S.insn i = S.code[i] :=
  List.getD_eq_getElem _ _ hi

theorem log_of_branch (hb : S.insn i = .branch kind dest) : S.log i = 0 := by
  rw [Stream.log,hb]
  rfl

/-- A branch goes to a label of the stream. -/
theorem dest_facts (hi : i < S.code.length) (hb : S.insn i = .branch kind dest) :
    dest < S.code.length ∧ dest ≠ i ∧ ∃ log, S.insn dest = .label log := by
  have hmem : .branch kind dest ∈ S.code := by
    rw [← hb,insn_eq_getElem hi]
    exact List.getElem_mem hi
  obtain ⟨log,hlog⟩ := S.dest_label kind dest hmem
  obtain ⟨hlt,hget⟩ := List.getElem?_eq_some_iff.mp hlog
  have hlabel : S.insn dest = .label log := by rw [insn_eq_getElem hlt,hget]
  refine ⟨hlt,?_,log,hlabel⟩
  rintro rfl
  rw [hb] at hlabel
  cases hlabel

theorem gapOf_label {log : ℕ} (h : S.insn i = .label log) : gapOf S lay i = 0 := by
  rw [gapOf,h]

theorem gapOf_branch (h : S.insn i = .branch kind dest) : gapOf S lay i = lay.len i := by
  rw [gapOf,h]

theorem gapOf_fixed {n : ℕ} (h : S.insn i = .fixed n) : gapOf S lay i = lay.len i := by
  rw [gapOf,h]

/-- A forward branch is measured over the layout of the last pass. -/
theorem forward_distance (hs : Settled S gap old) (hi : i < S.code.length)
    (hb : S.insn i = .branch kind dest) (hlt : i < dest)
    (haddr : ∀ j, i < j → lay.addr j = old.addr j) (hlen : ∀ j, i ≤ j → lay.len j = old.len j)
    (current : ℕ) :
    (lay.addr dest : ℤ)-referenceAddress S lay current (old.addr i) i dest =
      worst S.log gap 0 1 0 (i+1) (dest-i-1) := by
  obtain ⟨hdest,-,-⟩ := dest_facts hi hb
  have heven : 2 ∣ old.addr i+gap i :=
    Nat.dvd_add (hs.laid.even hs.even_gap i hi) (hs.even_gap i hi)
  have hsame : i+1+(dest-i-1) = dest := by omega
  have hlog := log_of_branch hb
  have hdist := @distance_eq S old gap i (dest-i-1) (by omega) (hs.laid.mono (by omega))
    (by rw [hlog,pow_zero]; exact one_dvd _) heven
  have hfuzz : alignFuzz S lay i dest lengthUnitLog (-1) = alignFuzz S old i dest lengthUnitLog (-1) :=
    fuzzLoop_congr haddr fun j hj => hlen j (by omega)
  rw [hsame,hlog] at hdist
  rw [referenceAddress,if_pos hlt,hfuzz,haddr dest hlt,hlen i (Nat.le_refl i),
    ← hs.branch_gap i hi kind dest hb]
  push_cast at hdist
  linarith

/-- A backward branch is measured over what the pass has laid out. -/
theorem backward_distance (h : Laid S gap lay (i+1)) (heven : ∀ j < i, 2 ∣ gap j)
    (hi : i < S.code.length) (hlt : dest < i) (hzero : gap dest = 0) (last : ℕ) :
    (lay.addr dest : ℤ)-referenceAddress S lay (lay.addr i) last i dest =
      -worst S.log gap (S.log dest) 1 0 (dest+1) (i-dest-1) := by
  have hsame : dest+1+(i-dest-1) = i := by omega
  have haligned : 2^S.log dest ∣ lay.addr dest+gap dest := by
    rw [hzero,Nat.add_zero,h.addr_eq dest (by omega)]
    exact two_pow_dvd_roundUp ..
  have heven' : 2 ∣ lay.addr dest+gap dest := by
    rw [hzero,Nat.add_zero]
    exact (h.mono (Nat.le_succ i)).even heven dest hlt
  have hdist := @distance_eq S lay gap dest (i-dest-1) (by omega) (h.mono (by omega)) haligned heven'
  rw [hsame,hzero,Nat.add_zero] at hdist
  rw [referenceAddress,if_neg (by omega)]
  linarith

/-- The length a pass gives to a branch. -/
theorem currentLength_eq (hs : Settled S gap old) (h : Visited S gap old i p)
    (hi : i < S.code.length) (hb : S.insn i = .branch kind dest) :
    currentLength S (p.lay.setAddr i p.current) p.current (p.lay.addr i) i kind dest =
      kind.length (estimate S gap (gapOf S p.lay) i dest) := by
  obtain ⟨-,hne,log,hlabel⟩ := dest_facts hi hb
  unfold currentLength estimate
  by_cases hlt : i < dest
  · rw [if_pos hlt,h.addr_old i (Nat.le_refl i),
      forward_distance hs hi hb hlt (fun j hj => ?_) (fun j hj => ?_)]
    · rw [setAddr_other (by omega)]
      exact h.addr_old j (by omega)
    · exact h.len_old j hj
  · have hlaid : Laid S (gapOf S p.lay) (p.lay.setAddr i p.current) (i+1) := by
      apply (h.laid.congr (fun j hj => setAddr_other (by omega)) (fun _ _ => rfl)
        (fun _ _ => rfl)).succ
      · rw [setAddr_same,log_of_branch hb,
          roundUp_of_dvd (by rw [pow_zero]; exact one_dvd _),h.current]
        exact (reached_congr (fun j hj => setAddr_other (by omega)) fun _ _ => rfl).symm
      · rw [log_of_branch hb]
        intro hpos
        exact absurd hpos (Nat.lt_irrefl 0)
    have hdist := backward_distance hlaid h.even_gap hi (by omega) (gapOf_label hlabel)
      (p.lay.addr i)
    rw [setAddr_same] at hdist
    rw [if_neg hlt,hdist]

theorem two_dvd_length (kind : Kind) (d : ℤ) : 2 ∣ kind.length d := by
  cases kind <;> simp only [Kind.length,condLength] <;> split_ifs <;> decide

end Lengths

section PassSpec

variable {S : Stream} {lay old : Layout} {gap : ℕ → ℕ} {p : Pass} {i dest : ℕ} {kind : Kind}

theorem one_dvd_min {a c l : ℕ} (hc : 2^a ∣ c) (hl : 2 ∣ l) : 2^min a lengthUnitLog ∣ c+l := by
  have hunit : min a lengthUnitLog ≤ 1 := Nat.min_le_right ..
  apply Nat.dvd_add
  · exact (pow_dvd_pow 2 (Nat.min_le_left ..)).trans hc
  · exact (pow_dvd_pow 2 hunit).trans hl

/-- A label that the known alignment covers is at its place already. -/
theorem visit_label {log : ℕ} (h : Visited S gap old i p) (hx : S.insn i = .label log) :
    Visits S gap old i p (visit S i (.label log) p) := by
  have hlog : S.log i = log := by rw [Stream.log,hx]; rfl
  have hchanged : ∀ (b : Bool) (q : Prop), b = true ↔ b = true ∨
      (∃ kind dest, S.insn i = .branch kind dest) ∧ q := by
    intro b q
    rw [hx]
    simp
  have hfixed : ∀ h, S.insn i ≠ .fixed h := by
    intro h
    rw [hx]
    exact Insn.noConfusion
  have hbranch : ∀ kind dest, S.insn i ≠ .branch kind dest := by
    intro kind dest
    rw [hx]
    exact Insn.noConfusion
  simp only [visit]
  by_cases ha : p.align < log
  · rw [if_pos ha]
    exact {
      addr_other := fun j hj => setAddr_other hj
      len_other := fun j hj => setLen_other hj
      addr_eq := by rw [hlog]; exact setAddr_same _
      len_eq := fun _ => by simp
      current := by rw [gapOf_label hx]; exact (setAddr_same _).symm
      even_gap := by rw [gapOf_label hx]; exact dvd_zero 2
      aligned := two_pow_dvd_roundUp ..
      fixed_len := fun n hn => absurd hn (hfixed n)
      branch_len := fun kind dest hb => absurd hb (hbranch kind dest)
      changed := hchanged .. }
  · have hround : roundUp p.current log = p.current :=
      roundUp_of_dvd ((pow_dvd_pow 2 (by omega)).trans h.aligned)
    rw [if_neg ha]
    exact {
      addr_other := fun j hj => setAddr_other hj
      len_other := fun j hj => setLen_other hj
      addr_eq := by rw [hlog,hround]; exact setAddr_same _
      len_eq := fun _ => by simp
      current := by rw [gapOf_label hx]; exact (setAddr_same _).symm
      even_gap := by rw [gapOf_label hx]; exact dvd_zero 2
      aligned := h.aligned
      fixed_len := fun n hn => absurd hn (hfixed n)
      branch_len := fun kind dest hb => absurd hb (hbranch kind dest)
      changed := hchanged .. }

theorem roundUp_zero (s : ℕ) : roundUp s 0 = s := roundUp_of_dvd (by rw [pow_zero]; exact one_dvd s)

theorem visit_fixed {n : ℕ} (hs : Settled S gap old) (h : Visited S gap old i p)
    (hi : i < S.code.length) (hx : S.insn i = .fixed n) :
    Visits S gap old i p (visit S i (.fixed n) p) := by
  have hlog : S.log i = 0 := by rw [Stream.log,hx]; rfl
  have heven : 2 ∣ p.lay.len i := by
    rw [h.len_old i (Nat.le_refl i)]
    exact hs.even_len i hi n hx
  unfold visit
  exact {
    addr_other := fun j hj => setAddr_other hj
    len_other := fun _ _ => rfl
    addr_eq := by rw [hlog,roundUp_zero]; exact setAddr_same _
    len_eq := by rw [hlog]; exact fun hpos => absurd hpos (Nat.lt_irrefl 0)
    current := by rw [gapOf_fixed hx,setAddr_same]; rfl
    even_gap := by rw [gapOf_fixed hx]; exact heven
    aligned := one_dvd_min h.aligned heven
    fixed_len := fun _ _ => h.len_old i (Nat.le_refl i)
    branch_len := by
      intro kind dest hb
      rw [hx] at hb
      cases hb
    changed := by
      rw [hx]
      simp }

theorem visit_branch (hs : Settled S gap old) (h : Visited S gap old i p)
    (hi : i < S.code.length) (hx : S.insn i = .branch kind dest) :
    Visits S gap old i p (visit S i (.branch kind dest) p) := by
  have hlength := currentLength_eq hs h hi hx
  have hlog := log_of_branch hx
  simp only [visit,hlength]
  exact {
    addr_other := fun j hj => setAddr_other hj
    len_other := fun j hj => setLen_other hj
    addr_eq := by rw [hlog,roundUp_zero]; exact setAddr_same _
    len_eq := by rw [hlog]; exact fun hpos => absurd hpos (Nat.lt_irrefl 0)
    current := by rw [gapOf_branch hx]; simp
    even_gap := by rw [gapOf_branch hx,setLen_same]; exact two_dvd_length ..
    aligned := one_dvd_min h.aligned (two_dvd_length ..)
    fixed_len := by
      intro n hn
      rw [hx] at hn
      cases hn
    branch_len := by
      intro kind' dest' hb
      rw [hx] at hb
      injection hb with hk hd
      subst hk hd
      exact setLen_same _
    changed := by
      rw [setLen_same,h.len_old i (Nat.le_refl i),Bool.or_eq_true,decide_eq_true_eq]
      exact or_congr_right ⟨fun hne => ⟨⟨kind,dest,hx⟩,hne⟩,fun hne => hne.2⟩ }

theorem Visited.visit (hs : Settled S gap old) (h : Visited S gap old i p)
    (hi : i < S.code.length) : Visited S gap old (i+1) (visit S i (S.insn i) p) := by
  apply h.succ
  cases hx : S.insn i with
  | label log => exact visit_label h hx
  | fixed n => exact visit_fixed hs h hi hx
  | branch kind dest => exact visit_branch hs h hi hx

theorem Visited.visitFrom (hs : Settled S gap old) {xs : List Insn} :
    ∀ {i p}, S.code.drop i = xs → Visited S gap old i p → i ≤ S.code.length →
    Visited S gap old S.code.length (visitFrom S xs i p) := by
  induction xs with
  | nil =>
    intro i p hdrop h hle
    have hlen : S.code.length ≤ i := List.drop_eq_nil_iff.mp hdrop
    rwa [show S.code.length = i by omega]
  | cons x xs ih =>
    intro i p hdrop h hle
    have hi : i < S.code.length := by
      by_contra hge
      rw [List.drop_eq_nil_of_le (by omega)] at hdrop
      cases hdrop
    rw [List.drop_eq_getElem_cons hi] at hdrop
    injection hdrop with hhead htail
    have hx : S.insn i = x := by rw [insn_eq_getElem hi,hhead]
    have hnext := h.visit hs hi
    rw [hx] at hnext
    exact ih htail hnext hi

end PassSpec

section Initial

variable {S : Stream} {lay : Layout} {i current : ℕ}

/-- The state of the first loop in front of place `i`. -/
structure Started (S : Stream) (i current : ℕ) (lay : Layout) : Prop where
  laid : Laid S lay.len lay i
  even_len : ∀ j < i, 2 ∣ lay.len j
  current : current = reached lay lay.len i
  branch_len : ∀ j < i, ∀ kind dest, S.insn j = .branch kind dest → lay.len j = kind.defaultLength

theorem Started.even_current (h : Started S i current lay) : 2 ∣ current := by
  rw [h.current]
  cases i with
  | zero => exact dvd_zero 2
  | succ i =>
    have hi := Nat.lt_succ_self i
    exact Nat.dvd_add (h.laid.even h.even_len i hi) (h.even_len i hi)

theorem initialLength_addr (current : ℕ) (x : Insn) :
    current+(initialLength current x).1 = roundUp current x.log := by
  cases x with
  | label log =>
    have := le_roundUp current log
    simp only [initialLength,Insn.log]
    omega
  | fixed n => exact (roundUp_zero current).symm
  | branch kind dest => exact (roundUp_zero current).symm

theorem initialLength_even {x : Insn} (h : 2 ∣ current) : 2 ∣ (initialLength current x).2 := by
  cases x with
  | label log => exact Nat.dvd_sub (two_dvd_roundUp h) h
  | fixed n => exact Nat.dvd_mul_right ..
  | branch kind dest =>
    have hdefault : ∀ k : Kind, 2 ∣ k.defaultLength := by
      intro k
      cases k <;> decide
    exact hdefault kind

theorem Started.step (h : Started S i current lay) :
    Started S (i+1) (current+(initialLength current (S.insn i)).1+(initialLength current (S.insn i)).2)
      ((lay.setAddr i (current+(initialLength current (S.insn i)).1)).setLen i
        (initialLength current (S.insn i)).2) := by
  have haddr : ∀ j < i, ((lay.setAddr i (current+(initialLength current (S.insn i)).1)).setLen i
      (initialLength current (S.insn i)).2).addr j = lay.addr j := fun j hj => setAddr_other (by omega)
  have hlen : ∀ j < i, ((lay.setAddr i (current+(initialLength current (S.insn i)).1)).setLen i
      (initialLength current (S.insn i)).2).len j = lay.len j := fun j hj => setLen_other (by omega)
  have hreached := (reached_congr haddr hlen).trans h.current.symm
  constructor
  · apply (h.laid.congr haddr hlen hlen).succ
    · rw [hreached,setLen_addr,setAddr_same]
      exact initialLength_addr ..
    · intro hlog
      rw [hreached,setLen_same,setLen_addr,setAddr_same]
      cases hx : S.insn i with
      | label log => simp only [initialLength]; omega
      | fixed n => simp [Stream.log,hx,Insn.log] at hlog
      | branch kind dest => simp [Stream.log,hx,Insn.log] at hlog
  · intro j hj
    obtain hj | rfl : j < i ∨ j = i := by omega
    · rw [hlen j hj]
      exact h.even_len j hj
    · rw [setLen_same]
      exact initialLength_even h.even_current
  · rw [reached,setLen_addr,setAddr_same,setLen_same]
  · intro j hj kind dest hb
    obtain hj | rfl : j < i ∨ j = i := by omega
    · rw [hlen j hj]
      exact h.branch_len j hj kind dest hb
    · rw [setLen_same,hb]
      rfl

theorem Started.initialFrom {xs : List Insn} : ∀ {i current lay}, S.code.drop i = xs →
    Started S i current lay → i ≤ S.code.length →
    ∃ c, Started S S.code.length c (initialFrom xs i current lay) := by
  induction xs with
  | nil =>
    intro i current lay hdrop h hle
    have hlen : S.code.length ≤ i := List.drop_eq_nil_iff.mp hdrop
    rw [show S.code.length = i by omega]
    exact ⟨current,h⟩
  | cons x xs ih =>
    intro i current lay hdrop h hle
    have hi : i < S.code.length := by
      by_contra hge
      rw [List.drop_eq_nil_of_le (by omega)] at hdrop
      cases hdrop
    rw [List.drop_eq_getElem_cons hi] at hdrop
    injection hdrop with hhead htail
    have hx : S.insn i = x := by rw [insn_eq_getElem hi,hhead]
    have hnext := h.step
    rw [hx] at hnext
    exact ih htail hnext hi

end Initial

section Shrinking

variable {S : Stream} {i dest : ℕ} {kind : Kind}

end Shrinking

end ShortenBranches
end AgbTools
