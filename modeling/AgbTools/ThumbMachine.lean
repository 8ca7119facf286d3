import Mathlib.Data.List.Nodup
import Mathlib.Logic.Function.Basic
import Mathlib.Tactic.Common
import Mathlib.Tactic.Ring

/-! A machine for straight-line Thumb code: registers, word memory, and the instructions that save
and restore registers on a full descending stack. -/
namespace AgbTools
namespace Thumb

abbrev Word := BitVec 32
abbrev Reg := Fin 16

/-- Numerals of registers, and of counts of the four argument registers, share one proof each that
there are any. -/
scoped instance reg_neZero : NeZero 16 := ⟨by decide⟩
scoped instance count_neZero : NeZero 5 := ⟨by decide⟩

def ip : Reg := 12
def sp : Reg := 13
def lr : Reg := 14

structure Machine where
  reg : Reg → Word
  mem : Word → Word

inductive Instr
  | push (rs : List Reg)
  | pop (rs : List Reg)
  | popPc (rs : List Reg)
  | mov (d r : Reg)
  | movImm (d : Reg) (w : Word)
  | add (d r : Reg)
  | addImm (d r : Reg) (w : Word)
  | bx (r : Reg)
deriving DecidableEq, Repr

/-- The address `k` words above `a`. -/
def up (a : Word) (k : ℕ) : Word := a+BitVec.ofNat 32 (4*k)

@[simp] theorem up_zero (a : Word) : up a 0 = a := by simp [up]

theorem up_up (a : Word) (j k : ℕ) : up (up a j) k = up a (j+k) := by
  simp only [up,BitVec.add_assoc,← BitVec.ofNat_add]
  congr 2
  omega

theorem up_ne {a : Word} {j k : ℕ} (hjk : j < k) (hk : k < 2^30) : up a j ≠ up a k := by
  unfold up
  bv_omega

theorem up_sub (a : Word) (k : ℕ) : up (a-BitVec.ofNat 32 (4*k)) k = a :=
  BitVec.sub_add_cancel ..

/-- The words of a list, written upwards from an address. -/
def store (mem : Word → Word) (a : Word) : List Word → Word → Word
  | [] => mem
  | v::vs => store (Function.update mem a v) (up a 1) vs

/-- Registers loaded upwards from an address. -/
def load (mem : Word → Word) (reg : Reg → Word) (a : Word) : List Reg → Reg → Word
  | [] => reg
  | r::rs => load mem (Function.update reg r (mem a)) (up a 1) rs

def Machine.set (s : Machine) (r : Reg) (w : Word) : Machine :=
  { s with reg := Function.update s.reg r w }

def Machine.push (s : Machine) (rs : List Reg) : Machine :=
  let a := s.reg sp-BitVec.ofNat 32 (4*rs.length)
  { reg := Function.update s.reg sp a, mem := store s.mem a (rs.map s.reg) }

def Machine.pop (s : Machine) (rs : List Reg) : Machine :=
  { s with reg := Function.update (load s.mem s.reg (s.reg sp) rs) sp (up (s.reg sp) rs.length) }

/-- One instruction; a returning one also gives the address it returns to. -/
def Instr.step (s : Machine) : Instr → Machine × Option Word
  | .push rs => (s.push rs,none)
  | .pop rs => (s.pop rs,none)
  | .popPc rs =>
    let s := s.pop rs
    (s.set sp (up (s.reg sp) 1),some (s.mem (s.reg sp)))
  | .mov d r => (s.set d (s.reg r),none)
  | .movImm d w => (s.set d w,none)
  | .add d r => (s.set d (s.reg d+s.reg r),none)
  | .addImm d r w => (s.set d (s.reg r+w),none)
  | .bx r => (s,some (s.reg r))

/-- Run code up to its end or to the instruction that returns. -/
def exec : List Instr → Machine → Machine × Option Word
  | [], s => (s,none)
  | i::is, s =>
    match i.step s with
    | (s,none) => exec is s
    | (s,some a) => (s,some a)

/-- Code that runs through, from one state to another. -/
def Through (code : List Instr) (s s' : Machine) : Prop := ∀ rest, exec (code++rest) s = exec rest s'

theorem Through.nil (s : Machine) : Through [] s s := fun _ => rfl

theorem Through.append {c c' : List Instr} {s s' s'' : Machine} (h : Through c s s')
    (h' : Through c' s' s'') : Through (c++c') s s'' := by
  intro rest
  rw [List.append_assoc,h,h']

theorem Through.single {i : Instr} {s s' : Machine} (h : i.step s = (s',none)) :
    Through [i] s s' := by
  intro rest
  simp only [List.singleton_append,exec,h]

theorem Through.cons {i : Instr} {c : List Instr} {s s' s'' : Machine} (h : i.step s = (s',none))
    (h' : Through c s' s'') : Through (i::c) s s'' := (Through.single h).append h'

theorem Through.exec {c : List Instr} {s s' : Machine} (h : Through c s s') :
    exec c s = (s',none) := by
  have := h []
  rwa [List.append_nil] at this

section Stack

/-- The words of a list lie upwards from an address. -/
def Stack (mem : Word → Word) (a : Word) : List Word → Prop
  | [] => True
  | v::vs => mem a = v ∧ Stack mem (up a 1) vs

variable {mem mem' : Word → Word} {a : Word} {vs ws : List Word}

theorem stack_append : Stack mem a (vs++ws) ↔ Stack mem a vs ∧ Stack mem (up a vs.length) ws := by
  induction vs generalizing a with
  | nil => simp [Stack]
  | cons v vs ih =>
    have hlen : up (up a 1) vs.length = up a (v::vs).length := by
      rw [up_up,List.length_cons,Nat.add_comm]
    simp only [List.cons_append,Stack,ih,hlen,and_assoc]

theorem Stack.congr (h : Stack mem a vs) (hm : ∀ k < vs.length, mem' (up a k) = mem (up a k)) :
    Stack mem' a vs := by
  induction vs generalizing a with
  | nil => trivial
  | cons v vs ih =>
    have h0 := hm 0 (by simp)
    simp only [up_zero] at h0
    refine ⟨h0.trans h.1,ih h.2 fun k hk => ?_⟩
    have := hm (k+1) (by simpa using hk)
    rwa [Nat.add_comm k 1,← up_up] at this

theorem store_of_above (vs : List Word) {k : ℕ} (hk : vs.length ≤ k) (hk' : k < 2^30) :
    store mem a vs (up a k) = mem (up a k) := by
  induction vs generalizing a mem k with
  | nil => rfl
  | cons v vs ih =>
    simp only [List.length_cons] at hk
    obtain ⟨j,rfl⟩ := Nat.exists_eq_add_of_le' (Nat.le_trans (Nat.le_add_left 1 vs.length) hk)
    rw [store,Nat.add_comm j 1,← up_up,ih (by omega) (by omega)]
    rw [Function.update_of_ne]
    rw [up_up]
    simpa using (up_ne (a := a) (j := 0) (k := 1+j) (by omega) (by omega)).symm

theorem store_stack (hl : vs.length < 2^30) : Stack (store mem a vs) a vs := by
  induction vs generalizing a mem with
  | nil => trivial
  | cons v vs ih =>
    simp only [List.length_cons] at hl
    refine ⟨?_,ih (by omega)⟩
    -- the later words lie above the first one
    have hfar : ∀ (us : List Word) (m : Word → Word) (j : ℕ), 0 < j → j+us.length < 2^30 →
        store m (up a j) us a = m a := by
      intro us
      induction us with
      | nil => intro m j _ _; rfl
      | cons u us ih' =>
        intro m j hj hlen
        simp only [List.length_cons] at hlen
        have hne : a ≠ up a j := by
          simpa using up_ne (a := a) (j := 0) (k := j) hj (by omega)
        rw [store,up_up,ih' _ _ (by omega) (by omega),Function.update_of_ne hne]
    rw [store,hfar vs _ 1 (by omega) (by omega),Function.update_self]

theorem Stack.store (h : Stack mem (up a vs.length) ws) (hl : vs.length+ws.length < 2^30) :
    Stack (store mem a vs) a (vs++ws) := by
  rw [stack_append]
  refine ⟨store_stack (by omega),h.congr fun k hk => ?_⟩
  rw [up_up]
  exact store_of_above vs (by omega) (by omega)

theorem load_of_notMem {reg : Reg → Word} {rs : List Reg} {r : Reg} (h : r ∉ rs) :
    load mem reg a rs r = reg r := by
  induction rs generalizing a reg with
  | nil => rfl
  | cons d rs ih =>
    simp only [List.mem_cons,not_or] at h
    rw [load,ih h.2,Function.update_of_ne h.1]

theorem load_map {reg : Reg → Word} {rs : List Reg} (hs : Stack mem a ws)
    (hl : ws.length = rs.length) (hnd : rs.Nodup) : rs.map (load mem reg a rs) = ws := by
  induction rs generalizing a reg ws with
  | nil => exact (List.length_eq_zero_iff.mp hl).symm
  | cons d rs ih =>
    cases ws with
    | nil => simp at hl
    | cons w ws =>
      obtain ⟨hd,hnd⟩ := List.nodup_cons.mp hnd
      have hfirst : load mem reg a (d::rs) d = w := by
        rw [load,load_of_notMem hd,Function.update_self]
        exact hs.1
      have hrest := @ih (up a 1) ws (Function.update reg d (mem a)) hs.2 (by simpa using hl) hnd
      rw [List.map_cons,hfirst]
      exact congrArg (w :: ·) hrest

end Stack

section Instructions

variable {s : Machine} {rs : List Reg} {vs : List Word}

@[simp] theorem set_same (r : Reg) (w : Word) : (s.set r w).reg r = w := Function.update_self ..

theorem set_other {r x : Reg} (w : Word) (h : x ≠ r) : (s.set r w).reg x = s.reg x :=
  Function.update_of_ne h ..

@[simp] theorem set_mem (r : Reg) (w : Word) : (s.set r w).mem = s.mem := rfl

theorem push_sp : up ((s.push rs).reg sp) rs.length = s.reg sp := by
  simp only [Machine.push,Function.update_self,up_sub]

theorem push_other {x : Reg} (h : x ≠ sp) : (s.push rs).reg x = s.reg x :=
  Function.update_of_ne h ..

theorem push_stack (h : Stack s.mem (s.reg sp) vs) (hl : rs.length+vs.length < 2^30) :
    Stack (s.push rs).mem ((s.push rs).reg sp) (rs.map s.reg++vs) := by
  simp only [Machine.push,Function.update_self]
  apply Stack.store
  · rwa [List.length_map,up_sub]
  · simpa using hl

theorem pop_sp : (s.pop rs).reg sp = up (s.reg sp) rs.length := by simp [Machine.pop]

theorem pop_other {x : Reg} (h : x ≠ sp) (hx : x ∉ rs) : (s.pop rs).reg x = s.reg x := by
  simp only [Machine.pop]
  rw [Function.update_of_ne h,load_of_notMem hx]

theorem pop_map {ws : List Word} (h : Stack s.mem (s.reg sp) (ws++vs)) (hl : ws.length = rs.length)
    (hnd : rs.Nodup) (hsp : sp ∉ rs) : rs.map (s.pop rs).reg = ws := by
  have hload := @load_map s.mem (s.reg sp) ws s.reg rs (stack_append.mp h).1 hl hnd
  rw [← hload]
  refine List.map_congr_left fun x hx => ?_
  have hx' : x ≠ sp := by
    rintro rfl
    exact hsp hx
  exact Function.update_of_ne hx' ..

theorem pop_stack {ws : List Word} (h : Stack s.mem (s.reg sp) (ws++vs))
    (hl : ws.length = rs.length) : Stack (s.pop rs).mem ((s.pop rs).reg sp) vs := by
  have := (stack_append.mp h).2
  rwa [hl,← pop_sp] at this

/-- Register moves in order; each destination takes the value of its source. -/
def moves (ds rs : List Reg) : List Instr := List.zipWith .mov ds rs

/-- Moves whose destinations are distinct and no sources. -/
theorem moves_through {ds rs : List Reg} (hnd : ds.Nodup) (hdis : ds.Disjoint rs)
    (s : Machine) : ∃ s', Through (moves ds rs) s s' ∧ s'.mem = s.mem ∧
      (∀ x, x ∉ ds → s'.reg x = s.reg x) ∧
      (ds.take rs.length).map s'.reg = (rs.take ds.length).map s.reg := by
  induction ds generalizing rs s with
  | nil => exact ⟨s,Through.nil s,rfl,fun _ _ => rfl,by simp⟩
  | cons d ds ih =>
    cases rs with
    | nil => exact ⟨s,Through.nil s,rfl,fun _ _ => rfl,by simp⟩
    | cons r rs =>
      obtain ⟨hd,hnd⟩ := List.nodup_cons.mp hnd
      have hdis' : ds.Disjoint rs := fun x hx hr =>
        hdis (List.mem_cons_of_mem d hx) (List.mem_cons_of_mem r hr)
      obtain ⟨s',hthrough,hmem,hother,hmap⟩ :=
        ih hnd hdis' (s.set d (s.reg r))
      refine ⟨s',Through.cons rfl hthrough,hmem,fun x hx => ?_,?_⟩
      · simp only [List.mem_cons,not_or] at hx
        rw [hother x hx.2,set_other _ hx.1]
      · have hsrc : (rs.take ds.length).map (s.set d (s.reg r)).reg =
            (rs.take ds.length).map s.reg := by
          refine List.map_congr_left fun x hx => set_other _ ?_
          rintro rfl
          exact hdis List.mem_cons_self (List.mem_cons_of_mem r (List.mem_of_mem_take hx))
        simp only [List.length_cons,List.take_succ_cons,List.map_cons,hmap,hsrc,hother d hd,
          set_same]

end Instructions

end Thumb
end AgbTools
