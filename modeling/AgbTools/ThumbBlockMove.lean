import AgbTools.BlockCopy
import AgbTools.ThumbText
import Mathlib.Tactic.IntervalCases

/-! Block moves: what `thumb_expand_movstrqi` expands them to, and what the patterns print for it. -/
namespace AgbTools
namespace Thumb
namespace BlockMove

open Loads BlockCopy

section Code

/-- What the expansion emits: the two patterns that advance both pointers, and the moves of a word, a
halfword or a byte at an offset from them. -/
inductive Insn
  | movmem12b
  | movmem8b
  | movsi
  | movhi (offset : Word)
  | movqi (offset : Word)
deriving DecidableEq, Repr

/-- What is left of `thumb_expand_movstrqi` behind its loop. -/
def expandRest (len : ℤ) : List Insn :=
  let (eight,len) := if len ≥ 8 then ([Insn.movmem8b],len-8) else ([],len)
  let (four,len,offset) : List Insn × ℤ × Word := if len ≥ 4 then ([.movsi],len-4,4) else ([],len,0)
  let (two,len,offset) : List Insn × ℤ × Word :=
    if len ≥ 2 then ([.movhi offset],len-2,offset+2) else ([],len,offset)
  eight++four++two++if len ≠ 0 then [.movqi offset] else []

/-- `thumb_expand_movstrqi`; the two addresses are copied to fresh registers first. -/
def thumbExpandMovstrqi (len : ℤ) : List Insn :=
  if len ≥ 12 then .movmem12b::thumbExpandMovstrqi (len-12) else expandRest len
termination_by len.toNat

/-- `movstrqi`, with the length if it is a constant; `FAIL` leaves the move to the caller. -/
def movstrqi (len : Option ℤ) (align : ℤ) : Option (List Insn) :=
  match len with
  | none => none
  | some len => if align ≠ 4 ∨ len > 48 then none else some (thumbExpandMovstrqi len)

/-- The registers that an instruction gets for its scratches. -/
abbrev Scratch := ℕ × ℕ × ℕ

/-- A line of the output: one with the base register written back, or another one. -/
inductive Line
  | ldmia (b : ℕ) (rs : List ℕ)
  | stmia (b : ℕ) (rs : List ℕ)
  | plain (i : Loads.Instr)
deriving DecidableEq, Repr

/-- `if (REGNO (x) > REGNO (y))`, with the swap that it guards. -/
def ordered (x y : ℕ) : ℕ × ℕ := if x > y then (y,x) else (x,y)

/-- `output_move_mem_multiple` with two registers. -/
def outputMoveMemMultiple2 (out inn r2 r3 : ℕ) : List Line :=
  let (r2,r3) := ordered r2 r3
  [.ldmia inn [r2,r3],.stmia out [r2,r3]]

/-- The same with three. -/
def outputMoveMemMultiple3 (out inn r2 r3 r4 : ℕ) : List Line :=
  let (r2,r3) := ordered r2 r3
  let (r3,r4) := ordered r3 r4
  let (r2,r3) := ordered r2 r3
  [.ldmia inn [r2,r3,r4],.stmia out [r2,r3,r4]]

/-- A load and a store by way of a register. -/
def through (w : Width) (out inn r : ℕ) (offset : Word) : List Line :=
  [.plain (.load w false r (.offset inn offset)),.plain (.store w r (.offset out offset))]

def Insn.output (out inn : ℕ) (t : Scratch) : Insn → List Line
  | .movmem12b => outputMoveMemMultiple3 out inn t.1 t.2.1 t.2.2
  | .movmem8b => outputMoveMemMultiple2 out inn t.1 t.2.1
  | .movsi => through .word out inn t.1 0
  | .movhi offset => through .half out inn t.1 offset
  | .movqi offset => through .byte out inn t.1 offset

/-- The output for instructions with the scratches that they got. -/
def output (out inn : ℕ) (is : List (Insn × Scratch)) : List Line :=
  is.flatMap fun i => i.1.output out inn i.2

end Code

section Machine

/-- Registers loaded upwards from an address. -/
def loadMultiple (mem : Word → BitVec 8) : List ℕ → Word → (ℕ → Word) → ℕ → Word
  | [], _, reg => reg
  | r::rs, a, reg => loadMultiple mem rs (a+4) (Function.update reg r (fetch mem a false .word))

def storeMultiple (reg : ℕ → Word) : List ℕ → Word → (Word → BitVec 8) → Word → BitVec 8
  | [], _, mem => mem
  | r::rs, a, mem => storeMultiple reg rs (a+4) (put mem a (reg r) .word)

def aligned (a : Word) : Width → Bool
  | .word => a &&& 3 = 0
  | .half => a &&& 1 = 0
  | .byte => true

/-- The access of an instruction is aligned. -/
def alignedAt (s : State) : Loads.Instr → Bool
  | .load w _ _ p | .store w _ p => aligned (p.address s) w
  | _ => true

/-- A register list is in ascending order and without the base, and every access is aligned. -/
def Line.step (s : State) : Line → Option State
  | .ldmia b rs =>
    if rs.Pairwise (· < ·) ∧ b ∉ rs ∧ aligned (s.reg b) .word then
      some { s with
        reg := Function.update (loadMultiple s.mem rs (s.reg b) s.reg) b (s.reg b+BitVec.ofNat 32 (4*rs.length)) }
    else none
  | .stmia b rs =>
    if rs.Pairwise (· < ·) ∧ b ∉ rs ∧ aligned (s.reg b) .word then
      some { s with
        mem := storeMultiple s.reg rs (s.reg b) s.mem
        reg := Function.update s.reg b (s.reg b+BitVec.ofNat 32 (4*rs.length)) }
    else none
  | .plain i => if alignedAt s i then some (i.step s) else none

def runLines : List Line → State → Option State
  | [], s => some s
  | l::ls, s => (l.step s).bind (runLines ls)

end Machine

section Copies

variable {mem : Word → BitVec 8} {o i : Word} {k total : ℕ} {reg : ℕ → Word} {rs : List ℕ}

theorem byteAt_zero (b : BitVec 8) : byteAt (b.zeroExtend 32) 0 = b := by
  simp [byteAt]

variable {w : ℕ}

/-- The lowest byte of a number is what is put behind the others. -/
theorem byteAt_append_zero (hi : BitVec w) (b : BitVec 8) : byteAt ((hi++b).setWidth 32) 0 = b := by
  apply BitVec.eq_of_getLsbD_eq
  intro j hj
  simp [byteAt,BitVec.getLsbD_append,hj]

theorem byteAt_append_succ (hi : BitVec w) (b : BitVec 8) (n : ℕ) (hn : n < 3) :
    byteAt ((hi++b).setWidth 32) (n+1) = byteAt (hi.setWidth 32) n := by
  apply BitVec.eq_of_getLsbD_eq
  intro j hj
  have hlow : ¬8*(n+1)+j < 8 := by omega
  have hshift : 8*(n+1)+j-8 = 8*n+j := by omega
  have h32 : 8*(n+1)+j < 32 := by omega
  have hlt : 8*n+j < 32 := by omega
  simp [byteAt,BitVec.getLsbD_append,hj,hlow,hshift,h32,hlt]

theorem byteAt_half (b c : BitVec 8) :
    byteAt ((c++b).zeroExtend 32) 0 = b ∧ byteAt ((c++b).zeroExtend 32) 1 = c := by
  refine ⟨byteAt_append_zero c b,?_⟩
  rw [BitVec.zeroExtend,byteAt_append_succ c b 0 (by omega)]
  exact byteAt_zero c

theorem byteAt_word (b c d e : BitVec 8) : byteAt (e++d++c++b) 0 = b ∧ byteAt (e++d++c++b) 1 = c ∧
    byteAt (e++d++c++b) 2 = d ∧ byteAt (e++d++c++b) 3 = e := by
  have hw : e++d++c++b = (e++d++c++b).setWidth 32 := (BitVec.setWidth_eq _).symm
  rw [hw]
  refine ⟨byteAt_append_zero _ b,?_,?_,?_⟩
  · rw [byteAt_append_succ _ b 0 (by omega),byteAt_append_zero]
  · rw [byteAt_append_succ _ b 1 (by omega),byteAt_append_succ _ c 0 (by omega),byteAt_append_zero]
  · rw [byteAt_append_succ _ b 2 (by omega),byteAt_append_succ _ c 1 (by omega),
      byteAt_append_succ e d 0 (by omega)]
    exact byteAt_zero e

/-- One, two or four bytes more behind a copied block. -/
theorem put_byte (hk : k < 2^32) :
    put (copy mem o i k) (o+BitVec.ofNat 32 k) (fetch mem (i+BitVec.ofNat 32 k) false .byte) .byte =
      copy mem o i (k+1) := by
  rw [put,fetch,if_neg Bool.false_ne_true,byteAt_zero,update_copy hk]

theorem address_add (a : Word) (n m : ℕ) : a+BitVec.ofNat 32 n+BitVec.ofNat 32 m = a+BitVec.ofNat 32 (n+m) := by
  rw [add_assoc,BitVec.ofNat_add]

theorem put_half (hk : k+1 < 2^32) :
    put (copy mem o i k) (o+BitVec.ofNat 32 k) (fetch mem (i+BitVec.ofNat 32 k) false .half) .half =
      copy mem o i (k+2) := by
  obtain ⟨h0,h1⟩ := byteAt_half (mem (i+BitVec.ofNat 32 k)) (mem (i+BitVec.ofNat 32 k+1))
  rw [put,fetch,if_neg Bool.false_ne_true,h0,h1,update_copy (by omega)]
  have ha (a : Word) : a+BitVec.ofNat 32 k+1 = a+BitVec.ofNat 32 (k+1) := address_add a k 1
  rw [ha,ha,update_copy hk]

theorem put_word (hk : k+3 < 2^32) :
    put (copy mem o i k) (o+BitVec.ofNat 32 k) (fetch mem (i+BitVec.ofNat 32 k) false .word) .word =
      copy mem o i (k+4) := by
  obtain ⟨h0,h1,h2,h3⟩ := byteAt_word (mem (i+BitVec.ofNat 32 k)) (mem (i+BitVec.ofNat 32 k+1))
    (mem (i+BitVec.ofNat 32 k+2)) (mem (i+BitVec.ofNat 32 k+3))
  have ha1 (a : Word) : a+BitVec.ofNat 32 k+1 = a+BitVec.ofNat 32 (k+1) := address_add a k 1
  have ha2 (a : Word) : a+BitVec.ofNat 32 k+2 = a+BitVec.ofNat 32 (k+2) := address_add a k 2
  have ha3 (a : Word) : a+BitVec.ofNat 32 k+3 = a+BitVec.ofNat 32 (k+3) := address_add a k 3
  rw [put,fetch,h0,h1,h2,h3,update_copy (by omega),ha1,ha1,update_copy (by omega),ha2,ha2,
    update_copy (by omega),ha3,ha3,update_copy hk]

def bytes : Width → ℕ
  | .byte => 1
  | .half => 2
  | .word => 4

/-- What is loaded from behind the copied part is what was there at first. -/
theorem fetch_copy (v : Width) {j : ℕ} (hapart : o = i ∨ Apart o i total) (hk : k ≤ total)
    (hj : j+bytes v ≤ total) (ht : total ≤ 2^32) :
    fetch (copy mem o i k) (i+BitVec.ofNat 32 j) false v = fetch mem (i+BitVec.ofNat 32 j) false v := by
  have hsource (m : ℕ) (hm : j+m < total) :
      copy mem o i k (i+BitVec.ofNat 32 j+BitVec.ofNat 32 m) = mem (i+BitVec.ofNat 32 j+BitVec.ofNat 32 m) := by
    rw [address_add]
    exact copy_source hapart hk hm ht
  have h0 (hm : j < total) : copy mem o i k (i+BitVec.ofNat 32 j) = mem (i+BitVec.ofNat 32 j) :=
    copy_source hapart hk hm ht
  cases v with
  | byte =>
    simp only [bytes] at hj
    simp only [fetch,h0 (by omega)]
  | half =>
    simp only [bytes] at hj
    have h1 := hsource 1 (by omega)
    simp only [fetch,h0 (by omega)]
    rw [show (1 : Word) = BitVec.ofNat 32 1 from rfl,h1]
  | word =>
    simp only [bytes] at hj
    have h1 := hsource 1 (by omega)
    have h2 := hsource 2 (by omega)
    have h3 := hsource 3 (by omega)
    simp only [fetch,h0 (by omega)]
    rw [show (1 : Word) = BitVec.ofNat 32 1 from rfl,show (2 : Word) = BitVec.ofNat 32 2 from rfl,
      show (3 : Word) = BitVec.ofNat 32 3 from rfl,h1,h2,h3]

/-- Registers hold the words that are at an address. -/
def Holds (mem : Word → BitVec 8) : List ℕ → Word → (ℕ → Word) → Prop
  | [], _, _ => True
  | r::rs, a, reg => reg r = fetch mem a false .word ∧ Holds mem rs (a+4) reg

theorem loadMultiple_other {a : Word} {r : ℕ} (h : r ∉ rs) : loadMultiple mem rs a reg r = reg r := by
  induction rs generalizing a reg with
  | nil => rfl
  | cons x rs ih =>
    simp only [List.mem_cons,not_or] at h
    rw [loadMultiple,ih h.2,Function.update_of_ne h.1]

theorem holds_loadMultiple {a : Word} (h : rs.Nodup) : Holds mem rs a (loadMultiple mem rs a reg) := by
  induction rs generalizing a reg with
  | nil => trivial
  | cons x rs ih =>
    obtain ⟨hx,hrs⟩ := List.nodup_cons.mp h
    refine ⟨?_,ih hrs⟩
    rw [loadMultiple,loadMultiple_other hx,Function.update_self]

theorem Holds.update {a : Word} {b : ℕ} (h : Holds mem rs a reg) (hb : b ∉ rs) (v : Word) :
    Holds mem rs a (Function.update reg b v) := by
  induction rs generalizing a with
  | nil => trivial
  | cons x rs ih =>
    simp only [List.mem_cons,not_or] at hb
    refine ⟨?_,ih h.2 hb.2⟩
    rw [Function.update_of_ne (Ne.symm hb.1)]
    exact h.1

theorem holds_copy {j : ℕ} (hapart : o = i ∨ Apart o i total) (hk : k ≤ total) (hj : j+4*rs.length ≤ total)
    (ht : total ≤ 2^32) (h : Holds (copy mem o i k) rs (i+BitVec.ofNat 32 j) reg) :
    Holds mem rs (i+BitVec.ofNat 32 j) reg := by
  induction rs generalizing j with
  | nil => trivial
  | cons x rs ih =>
    rw [List.length_cons] at hj
    obtain ⟨hx,hrs⟩ := h
    rw [fetch_copy .word hapart hk (show j+4 ≤ total by omega) ht] at hx
    have ha : i+BitVec.ofNat 32 j+4 = i+BitVec.ofNat 32 (j+4) := address_add i j 4
    rw [ha] at hrs
    refine ⟨hx,?_⟩
    rw [ha]
    exact ih (by omega) hrs

theorem storeMultiple_copy (hk : k+4*rs.length ≤ 2^32) (h : Holds mem rs (i+BitVec.ofNat 32 k) reg) :
    storeMultiple reg rs (o+BitVec.ofNat 32 k) (copy mem o i k) = copy mem o i (k+4*rs.length) := by
  induction rs generalizing k with
  | nil => rfl
  | cons x rs ih =>
    rw [List.length_cons] at hk ⊢
    obtain ⟨hx,hrs⟩ := h
    have ha (a : Word) : a+BitVec.ofNat 32 k+4 = a+BitVec.ofNat 32 (k+4) := address_add a k 4
    rw [ha] at hrs
    rw [storeMultiple,hx,put_word (by omega),ha,ih (by omega) hrs]
    congr 1
    ring

end Copies

section Moves

/-- The scratches of an instruction. -/
def Insn.scratch (t : Scratch) : Insn → List ℕ
  | .movmem12b => [t.1,t.2.1,t.2.2]
  | .movmem8b => [t.1,t.2.1]
  | _ => [t.1]

/-- The operands of the patterns are early clobbers. -/
def Insn.early : Insn → Bool
  | .movmem12b | .movmem8b => true
  | _ => false

/-- Scratches as they may be given out: the register of the last plain move may be the one of the source. -/
def Allocated (out inn : ℕ) : List (Insn × Scratch) → Prop
  | [] => True
  | (i,t)::is => (i.scratch t).Nodup ∧ out ∉ i.scratch t ∧
      (inn ∈ i.scratch t → i.early = false ∧ is = []) ∧ Allocated out inn is

def scratches (is : List (Insn × Scratch)) : List ℕ := is.flatMap fun i => i.1.scratch i.2

/-- What a block move is given: blocks of aligned words that are the same one or apart. -/
structure Blocks (o i : Word) (len : ℕ) : Prop where
  apart : o = i ∨ Apart o i len
  fits : len ≤ 2^32
  out : aligned o .word
  inn : aligned i .word

/-- Instructions that move `len` bytes from `off` behind the pointers on. -/
inductive Plan : ℕ → ℕ → List Insn → Prop
  | done {off : ℕ} : Plan off 0 []
  | movmem12b {len : ℕ} {is : List Insn} (h : Plan 0 len is) : Plan 0 (len+12) (.movmem12b::is)
  | movmem8b {len : ℕ} {is : List Insn} (h : Plan 0 len is) : Plan 0 (len+8) (.movmem8b::is)
  | movsi {len : ℕ} {is : List Insn} (h : Plan 4 len is) : Plan 0 (len+4) (.movsi::is)
  | movhi {off len : ℕ} {is : List Insn} (heven : 2 ∣ off) (h : Plan (off+2) len is) :
    Plan off (len+2) (.movhi (BitVec.ofNat 32 off)::is)
  | movqi {off len : ℕ} {is : List Insn} (h : Plan (off+1) len is) :
    Plan off (len+1) (.movqi (BitVec.ofNat 32 off)::is)

/-- The pointers are `j` bytes on, and `off` more are copied. -/
structure At (mem : Word → BitVec 8) (o i : Word) (out inn : ℕ) (s : State) (j off : ℕ) : Prop where
  mem : s.mem = copy mem o i (j+off)
  out : s.reg out = o+BitVec.ofNat 32 j
  inn : s.reg inn = i+BitVec.ofNat 32 j

/-- The lines run to a memory and change no register but the pointers and those that are free. -/
def Moved (out inn : ℕ) (ls : List Line) (free : List ℕ) (mem : Word → BitVec 8) (s : State) : Prop :=
  ∃ s', runLines ls s = some s' ∧ s'.mem = mem ∧ ∀ r, r ≠ out → r ≠ inn → r ∉ free → s'.reg r = s.reg r

variable {mem : Word → BitVec 8} {o i : Word} {out inn : ℕ} {s : State} {j off total : ℕ} {rs : List ℕ}

theorem aligned_iff (a : Word) (v : Width) : aligned a v = true ↔ a.toNat % bytes v = 0 := by
  cases v with
  | byte => simp [aligned,bytes,Nat.mod_one]
  | half =>
    rw [aligned,decide_eq_true_iff,← BitVec.toNat_inj,BitVec.toNat_and]
    exact iff_of_eq (congrArg (· = 0) (Nat.and_two_pow_sub_one_eq_mod a.toNat 1))
  | word =>
    rw [aligned,decide_eq_true_iff,← BitVec.toNat_inj,BitVec.toNat_and]
    exact iff_of_eq (congrArg (· = 0) (Nat.and_two_pow_sub_one_eq_mod a.toNat 2))

theorem aligned_add {a : Word} {v : Width} {n : ℕ} (ha : aligned a .word = true) (hn : bytes v ∣ n) :
    aligned (a+BitVec.ofNat 32 n) v = true := by
  rw [aligned_iff] at ha ⊢
  rw [BitVec.toNat_add,BitVec.toNat_ofNat]
  cases v <;> simp only [bytes] at * <;> omega

theorem runLines_append (ls ls' : List Line) (s : State) :
    runLines (ls++ls') s = (runLines ls s).bind (runLines ls') := by
  induction ls generalizing s with
  | nil => rfl
  | cons l ls ih => simp [runLines,ih,Option.bind_assoc]

/-- The words of a register list, loaded and stored. -/
theorem multiple_moves (hb : Blocks o i total) (hne : out ≠ inn) (hrs : rs.Pairwise (· < ·)) (hout : out ∉ rs)
    (hinn : inn ∉ rs) (h : At mem o i out inn s j 0) (hj : 4 ∣ j) (hlen : j+4*rs.length ≤ total) :
    ∃ s', runLines [.ldmia inn rs,.stmia out rs] s = some s' ∧
      At mem o i out inn s' (j+4*rs.length) 0 ∧
      ∀ r, r ≠ out → r ≠ inn → r ∉ rs → s'.reg r = s.reg r := by
  have hnodup : rs.Nodup := hrs.imp Nat.ne_of_lt
  have hain : aligned (s.reg inn) .word = true := by
    rw [h.inn]
    exact aligned_add hb.inn hj
  have haout : aligned (s.reg out) .word = true := by
    rw [h.out]
    exact aligned_add hb.out hj
  obtain ⟨reg,hreg⟩ : ∃ reg, reg = loadMultiple s.mem rs (s.reg inn) s.reg := ⟨_,rfl⟩
  have hload : Line.step s (.ldmia inn rs) = some { s with
      reg := Function.update reg inn (s.reg inn+BitVec.ofNat 32 (4*rs.length)) } := by
    rw [hreg]
    exact if_pos ⟨hrs,hinn,hain⟩
  have hkept (r : ℕ) (hr : r ∉ rs) : reg r = s.reg r := by
    rw [hreg]
    exact loadMultiple_other hr
  -- the words loaded are those of the source as it was before the move
  have hheld : Holds mem rs (i+BitVec.ofNat 32 j) reg := by
    refine holds_copy hb.apart (show j+0 ≤ total by omega) hlen hb.fits ?_
    rw [← h.mem,← h.inn,hreg]
    exact holds_loadMultiple hnodup
  obtain ⟨reg',hreg'⟩ : ∃ reg', reg' = Function.update reg inn (s.reg inn+BitVec.ofNat 32 (4*rs.length)) :=
    ⟨_,rfl⟩
  rw [← hreg'] at hload
  have hout' : reg' out = s.reg out := by
    rw [hreg',Function.update_of_ne hne]
    exact hkept out hout
  have hstore : Line.step { s with reg := reg' } (.stmia out rs) = some { s with
      mem := storeMultiple reg' rs (s.reg out) s.mem
      reg := Function.update reg' out (s.reg out+BitVec.ofNat 32 (4*rs.length)) } := by
    rw [← hout'] at haout ⊢
    exact if_pos ⟨hrs,hout,haout⟩
  refine ⟨_,by rw [runLines,hload,Option.bind_some,runLines,hstore,Option.bind_some,runLines],⟨?_,?_,?_⟩,?_⟩
  · have hheld' : Holds mem rs (i+BitVec.ofNat 32 j) reg' := by
      rw [hreg']
      exact hheld.update hinn _
    have htotal := hb.fits
    rw [h.out,h.mem]
    exact storeMultiple_copy (by omega) hheld'
  · rw [h.out]
    simp only [Function.update_self]
    exact address_add o j _
  · simp only [Function.update_of_ne (Ne.symm hne),hreg',Function.update_self]
    rw [h.inn]
    exact address_add i j _
  · intro r hrout hrinn hr
    simp only [Function.update_of_ne hrout,hreg',Function.update_of_ne hrinn]
    exact hkept r hr

/-- A load and a store; the register that they go by may be the pointer to the source. -/
theorem through_moves (v : Width) {t : ℕ} (hb : Blocks o i total) (ht : t ≠ out)
    (h : At mem o i out inn s j off) (hj : bytes v ∣ j+off) (hlen : j+off+bytes v ≤ total) :
    ∃ s', runLines (through v out inn t (BitVec.ofNat 32 off)) s = some s' ∧
      s'.mem = copy mem o i (j+off+bytes v) ∧ ∀ r, r ≠ t → s'.reg r = s.reg r := by
  have hsource : s.reg inn+BitVec.ofNat 32 off = i+BitVec.ofNat 32 (j+off) := by
    rw [h.inn]
    exact address_add i j off
  have htarget : s.reg out+BitVec.ofNat 32 off = o+BitVec.ofNat 32 (j+off) := by
    rw [h.out]
    exact address_add o j off
  obtain ⟨x,hx⟩ : ∃ x, x = fetch mem (i+BitVec.ofNat 32 (j+off)) false v := ⟨_,rfl⟩
  have hfetch : fetch s.mem (s.reg inn+BitVec.ofNat 32 off) false v = x := by
    rw [hx,hsource,h.mem]
    exact fetch_copy v hb.apart (by omega) hlen hb.fits
  have hload : Line.step s (.plain (.load v false t (.offset inn (BitVec.ofNat 32 off)))) = some (s.set t x) := by
    rw [← hfetch]
    refine if_pos ?_
    change aligned (s.reg inn+BitVec.ofNat 32 off) v = true
    rw [hsource]
    exact aligned_add hb.inn hj
  have hout : Function.update s.reg t x out = s.reg out := Function.update_of_ne (Ne.symm ht) ..
  have hstore : Line.step (s.set t x) (.plain (.store v t (.offset out (BitVec.ofNat 32 off)))) =
      some { s.set t x with mem := put s.mem (s.reg out+BitVec.ofNat 32 off) x v } := by
    have ha : alignedAt (s.set t x) (.store v t (.offset out (BitVec.ofNat 32 off))) = true := by
      change aligned (Function.update s.reg t x out+BitVec.ofNat 32 off) v = true
      rw [hout,htarget]
      exact aligned_add hb.out hj
    rw [Line.step,if_pos ha]
    simp only [Loads.Instr.step,Place.address,hout,State.set,Function.update_self]
  refine ⟨_,by rw [through,runLines,hload,Option.bind_some,runLines,hstore,Option.bind_some,runLines],?_,?_⟩
  · have hfits := hb.fits
    have hmem := h.mem
    change put s.mem (s.reg out+BitVec.ofNat 32 off) x v = _
    rw [htarget,hmem,hx]
    cases v <;> simp only [bytes] at hlen ⊢
    · exact put_byte (by omega)
    · exact put_half (by omega)
    · exact put_word (by omega)
  · intro r hr
    exact Function.update_of_ne hr ..

theorem plan_expandRest {n : ℕ} (h : n < 12) : Plan 0 n (expandRest n) := by
  interval_cases n
  · exact .done
  · exact .movqi .done
  · exact .movhi (by decide) .done
  · exact .movhi (by decide) (.movqi .done)
  · exact .movsi .done
  · exact .movsi (.movqi .done)
  · exact .movsi (.movhi (by decide) .done)
  · exact .movsi (.movhi (by decide) (.movqi .done))
  · exact .movmem8b .done
  · exact .movmem8b (.movqi .done)
  · exact .movmem8b (.movhi (by decide) .done)
  · exact .movmem8b (.movhi (by decide) (.movqi .done))

/-- Every length is moved in full. -/
theorem plan_expand (n : ℕ) : Plan 0 n (thumbExpandMovstrqi n) := by
  induction n using Nat.strong_induction_on with
  | _ n ih =>
    rw [thumbExpandMovstrqi]
    split_ifs with h
    · obtain ⟨m,rfl⟩ : ∃ m, n = m+12 := ⟨n-12,by omega⟩
      have hm : ((m+12 : ℕ) : ℤ)-12 = m := by omega
      rw [hm]
      exact .movmem12b (ih m (by omega))
    · exact plan_expandRest (by omega)

theorem ordered_pair {x y : ℕ} (h : x ≠ y) :
    ∃ a b, ordered x y = (a,b) ∧ a < b ∧ ((a = x ∧ b = y) ∨ (a = y ∧ b = x)) := by
  unfold ordered
  split_ifs with hlt
  · exact ⟨y,x,rfl,hlt,.inr ⟨rfl,rfl⟩⟩
  · exact ⟨x,y,rfl,by omega,.inl ⟨rfl,rfl⟩⟩

/-- The registers of a multiple move come in ascending order, whichever the scratches are. -/
theorem multiple2_sorted {r2 r3 : ℕ} (h : [r2,r3].Nodup) :
    ∃ rs, outputMoveMemMultiple2 out inn r2 r3 = [.ldmia inn rs,.stmia out rs] ∧ rs.Pairwise (· < ·) ∧
      rs.length = 2 ∧ ∀ r, r ∈ rs ↔ r ∈ [r2,r3] := by
  obtain ⟨a,b,heq,hlt,hab⟩ := ordered_pair (show r2 ≠ r3 by simpa using h)
  refine ⟨[a,b],by simp only [outputMoveMemMultiple2,heq],by simpa using hlt,rfl,fun r => ?_⟩
  simp only [List.mem_cons,List.not_mem_nil,or_false]
  omega

theorem multiple3_sorted {r2 r3 r4 : ℕ} (h : [r2,r3,r4].Nodup) :
    ∃ rs, outputMoveMemMultiple3 out inn r2 r3 r4 = [.ldmia inn rs,.stmia out rs] ∧ rs.Pairwise (· < ·) ∧
      rs.length = 3 ∧ ∀ r, r ∈ rs ↔ r ∈ [r2,r3,r4] := by
  simp only [List.nodup_cons,List.mem_cons,List.not_mem_nil,or_false,not_or] at h
  obtain ⟨a,b,h1,hlt1,hab⟩ := ordered_pair (show r2 ≠ r3 by omega)
  obtain ⟨c,d,h2,hlt2,hcd⟩ := ordered_pair (show b ≠ r4 by omega)
  obtain ⟨e,f,h3,hlt3,hef⟩ := ordered_pair (show a ≠ c by omega)
  refine ⟨[e,f,d],by simp only [outputMoveMemMultiple3,h1,h2,h3],?_,rfl,fun r => ?_⟩
  · simp only [List.pairwise_cons,List.mem_cons,List.not_mem_nil,or_false,forall_eq_or_imp,forall_eq,
      IsEmpty.forall_iff,implies_true,List.Pairwise.nil,and_true]
    omega
  · simp only [List.mem_cons,List.not_mem_nil,or_false]
    omega

theorem plan_nil {len : ℕ} (h : Plan off len []) : len = 0 := by
  generalize hnil : ([] : List Insn) = plan at h
  cases h <;> simp_all

theorem Moved.append {ls ls' : List Line} {free free' : List ℕ} {s₁ : State} (hrun : runLines ls s = some s₁)
    (hkept : ∀ r, r ≠ out → r ≠ inn → r ∉ free → s₁.reg r = s.reg r) (h : Moved out inn ls' free' mem s₁) :
    Moved out inn (ls++ls') (free++free') mem s := by
  obtain ⟨s',hrun',hmem,hreg⟩ := h
  refine ⟨s',by rw [runLines_append,hrun,Option.bind_some,hrun'],hmem,fun r hout hinn hr => ?_⟩
  rw [List.mem_append,not_or] at hr
  rw [hreg r hout hinn hr.2,hkept r hout hinn hr.1]

/-- A plain move, and then the rest of a plan. -/
theorem plain_then (v : Width) {t len : ℕ} {is : List (Insn × Scratch)} (hb : Blocks o i total)
    (ht : out ∉ [t]) (hlast : inn ∈ [t] → is = []) (h : At mem o i out inn s j off) (hj : bytes v ∣ j+off)
    (hplan : Plan (off+bytes v) len (is.map Prod.fst)) (hlen : j+(off+(len+bytes v)) = total)
    (hrest : ∀ s', At mem o i out inn s' j (off+bytes v) →
      Moved out inn (output out inn is) (scratches is) (copy mem o i total) s') :
    Moved out inn (through v out inn t (BitVec.ofNat 32 off)++output out inn is) ([t]++scratches is)
      (copy mem o i total) s := by
  have ht' : t ≠ out := fun heq => ht (List.mem_singleton.mpr heq.symm)
  obtain ⟨s',hrun,hmem,hreg⟩ := through_moves v hb ht' h hj (by omega)
  refine Moved.append hrun (fun r _ _ hr => hreg r (by simpa using hr)) ?_
  by_cases hinn : inn ∈ [t]
  · obtain rfl := hlast hinn
    have hzero : len = 0 := plan_nil hplan
    refine ⟨s',rfl,?_,fun _ _ _ _ => rfl⟩
    rw [hmem]
    congr 1
    omega
  · have hne : inn ≠ t := by simpa using hinn
    refine hrest s' ⟨?_,?_,?_⟩
    · rw [hmem,Nat.add_assoc]
    · rw [hreg out (Ne.symm ht'),h.out]
    · rw [hreg inn hne,h.inn]

/-- A multiple move, and then the rest of a plan. -/
theorem multiple_then {ls : List Line} {ts : List ℕ} {n len : ℕ} {is : List (Insn × Scratch)}
    (hb : Blocks o i total) (hne : out ≠ inn) (hout : out ∉ ts) (hinn : inn ∉ ts)
    (hls : ∃ rs, ls = [.ldmia inn rs,.stmia out rs] ∧ rs.Pairwise (· < ·) ∧ rs.length = n ∧
      ∀ r, r ∈ rs ↔ r ∈ ts)
    (h : At mem o i out inn s j 0) (hj : 4 ∣ j) (hlen : j+(0+(len+4*n)) = total)
    (hrest : ∀ s', At mem o i out inn s' (j+4*n) 0 →
      Moved out inn (output out inn is) (scratches is) (copy mem o i total) s') :
    Moved out inn (ls++output out inn is) (ts++scratches is) (copy mem o i total) s := by
  obtain ⟨rs,rfl,hsorted,rfl,hmem⟩ := hls
  obtain ⟨s',hrun,hat,hreg⟩ := multiple_moves hb hne hsorted (by rwa [hmem]) (by rwa [hmem]) h hj (by omega)
  exact Moved.append hrun (fun r hro hri hr => hreg r hro hri (by rwa [hmem])) (hrest s' hat)

/-- The output for a plan moves what is left of the block. -/
theorem plan_moves {is : List (Insn × Scratch)} {len : ℕ} (hb : Blocks o i total) (hne : out ≠ inn)
    (hplan : Plan off len (is.map Prod.fst)) (halloc : Allocated out inn is) (h : At mem o i out inn s j off)
    (hj : 4 ∣ j) (hlen : j+(off+len) = total) :
    Moved out inn (output out inn is) (scratches is) (copy mem o i total) s := by
  generalize his : is.map Prod.fst = plan at hplan
  induction hplan generalizing is s j with
  | done =>
    obtain rfl := List.map_eq_nil_iff.mp his
    refine ⟨s,rfl,?_,fun _ _ _ _ => rfl⟩
    rw [h.mem]
    congr 1
  | movmem12b hplan ih =>
    obtain ⟨⟨x,t⟩,is,rfl,rfl,rfl⟩ := List.map_eq_cons_iff.mp his
    obtain ⟨hnodup,hout,hinn,halloc⟩ := halloc
    exact multiple_then hb hne hout (fun hmem => absurd (hinn hmem).1 (by decide)) (multiple3_sorted hnodup) h
      hj hlen fun s' hat => ih halloc hat (by omega) (by omega) rfl
  | movmem8b hplan ih =>
    obtain ⟨⟨x,t⟩,is,rfl,rfl,rfl⟩ := List.map_eq_cons_iff.mp his
    obtain ⟨hnodup,hout,hinn,halloc⟩ := halloc
    exact multiple_then hb hne hout (fun hmem => absurd (hinn hmem).1 (by decide)) (multiple2_sorted hnodup) h
      hj hlen fun s' hat => ih halloc hat (by omega) (by omega) rfl
  | movsi hplan ih =>
    obtain ⟨⟨x,t⟩,is,rfl,rfl,rfl⟩ := List.map_eq_cons_iff.mp his
    obtain ⟨-,hout,hinn,halloc⟩ := halloc
    exact plain_then .word hb hout (fun hmem => (hinn hmem).2) h hj hplan hlen
      fun s' hat => ih halloc hat hj (by omega) rfl
  | movhi heven hplan ih =>
    obtain ⟨⟨x,t⟩,is,rfl,rfl,rfl⟩ := List.map_eq_cons_iff.mp his
    obtain ⟨-,hout,hinn,halloc⟩ := halloc
    have heven' : bytes .half ∣ j+_ := Nat.dvd_add (Nat.dvd_trans (by decide) hj) heven
    exact plain_then .half hb hout (fun hmem => (hinn hmem).2) h heven' hplan hlen
      fun s' hat => ih halloc hat hj (by omega) rfl
  | movqi hplan ih =>
    obtain ⟨⟨x,t⟩,is,rfl,rfl,rfl⟩ := List.map_eq_cons_iff.mp his
    obtain ⟨-,hout,hinn,halloc⟩ := halloc
    exact plain_then .byte hb hout (fun hmem => (hinn hmem).2) h (Nat.one_dvd _) hplan hlen
      fun s' hat => ih halloc hat hj (by omega) rfl

/-- Whatever scratches the instructions of a block move get, their output copies the block. -/
theorem movstrqi_copies {is : List (Insn × Scratch)} {align len : ℤ} {code : List Insn}
    (hcode : movstrqi (some len) align = some code) (hlen : 0 ≤ len) (his : is.map Prod.fst = code)
    (halloc : Allocated out inn is) (hne : out ≠ inn) (hb : Blocks (s.reg out) (s.reg inn) len.toNat) :
    Moved out inn (output out inn is) (scratches is) (copy s.mem (s.reg out) (s.reg inn) len.toNat) s := by
  lift len to ℕ using hlen
  have hplan : Plan 0 len (is.map Prod.fst) := by
    simp only [movstrqi] at hcode
    split_ifs at hcode
    rw [his,← Option.some.inj hcode]
    exact plan_expand len
  exact plan_moves hb hne hplan halloc ⟨by simp,by simp,by simp⟩ (Nat.dvd_zero 4) (by simp)

/-- The last byte may go by the register of the source. -/
theorem movstrqi_copies_odd : Moved 0 1
    (output 0 1 [(.movmem12b,4,3,2),(.movmem8b,3,2,0),(.movhi 0,2,0,0),(.movqi 2,1,0,0)])
    [4,3,2,3,2,2,1] (copy (fun a => a.setWidth 8) 0 64 23)
    { reg := fun r => if r = 1 then 64 else 0, mem := fun a => a.setWidth 8, label := fun _ => 0 } := by
  have hcode : movstrqi (some 23) 4 = some [.movmem12b,.movmem8b,.movhi 0,.movqi 2] := by
    simp [movstrqi,thumbExpandMovstrqi,expandRest]
  have hblocks : Blocks 0 64 23 := by
    refine ⟨.inr fun a => ?_,by decide,by decide,by decide⟩
    bv_omega
  exact movstrqi_copies hcode (by decide) rfl (by simp [Allocated,Insn.scratch,Insn.early]) (by decide) hblocks

end Moves

end BlockMove
end Thumb
end AgbTools
