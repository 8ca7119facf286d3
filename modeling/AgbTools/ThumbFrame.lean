import AgbTools.ThumbMachine

/-! The prologue and the epilogue that the compiler emits around a Thumb function, and when they
are inverse to each other. -/
namespace AgbTools
namespace Thumb

/-- The mode of the return value: none, a block returned in memory, or `n+1` bytes. -/
inductive Return
  | void
  | block
  | bytes (n : Fin 16)
deriving DecidableEq, Repr

def Return.size : Return → ℕ
  | .void => 0
  | .block => 0
  | .bytes n => n+1

/-- What the generators read of the current function. Sizes are given in words. -/
structure Frame where
  live : Reg → Bool
  leaf : Bool
  farJump : Bool
  pretend : Fin 5
  anonymousArgs : Bool
  frameSize : ℕ
  outgoingArgs : ℕ
  framePointer : Bool
  interwork : Bool
  ret : Return
  amount_lt : 4*(frameSize+outgoingArgs) < 2^31
  framePointer_live : framePointer = true → live 7 = true

namespace Frame

variable (f : Frame)

def amount : ℕ := 4*(f.frameSize+f.outgoingArgs)

/-- The live low registers that a call does not use. -/
def low : List Reg := [4,5,6,7].filter f.live

/-- The live high registers that a call does not use. -/
def high : List Reg := [8,9,10].filter f.live

/-- Any saved low register, a call or a far jump makes the function save the link register. -/
def pushesLr : Bool := !f.low.isEmpty || !f.leaf || f.farJump

section Prologue

/-- The batches of `thumb_function_prologue`, from the highest register down: each register of the
mask takes one, and in the last batch the registers below are left out. -/
def pushHighs : ℕ → List Reg → List Reg → List Instr
  | 0, _, _ => []
  | k+1, ms, hs =>
    if hs = [] then []
    else moves ms hs++(.push (ms.take hs.length).reverse::pushHighs k ms (hs.drop ms.length))

/-- The argument registers that are pushed or whose place is reserved. -/
def pretendArgs : List Instr :=
  if f.pretend = 0 then []
  else if f.anonymousArgs then [.push ([0,1,2,3].drop (4-f.pretend))]
  else [.addImm sp sp (-(BitVec.ofNat 32 (4*f.pretend)))]

def pushLow : List Instr :=
  let mask := f.low++(if f.pushesLr then [lr] else [])
  if mask = [] then [] else [.push mask]

/-- Without a saved low register the high ones go through `r3`, which is kept if it is used. -/
def pushHigh : List Instr :=
  if f.high = [] then []
  else if f.low = [] then
    (if f.live 3 then [.mov ip 3] else [])++pushHighs f.high.length [3] f.high.reverse++
      (if f.live 3 then [.mov 3 ip] else [])
  else pushHighs f.high.length f.low.reverse f.high.reverse

def functionPrologue : List Instr := f.pretendArgs++f.pushLow++f.pushHigh

/-- The frame is made with the first saved low register, or with `r4` kept in `ip`. -/
def growStack : List Instr :=
  let w := -(BitVec.ofNat 32 f.amount)
  if f.amount = 0 then []
  else if f.amount < 512 then [.addImm sp sp w]
  else
    match f.low with
    | [] => [.mov ip 4,.movImm 4 w,.add sp 4,.mov 4 ip]
    | r::_ => [.movImm r w,.add sp r]

def setFramePointer : List Instr :=
  let out := BitVec.ofNat 32 (4*f.outgoingArgs)
  if f.framePointer then
    if f.outgoingArgs = 0 then [.mov 7 sp]
    else if 4*f.outgoingArgs < 1024 then [.addImm 7 sp out]
    else [.movImm 7 out,.add 7 sp]
  else []

def expandPrologue : List Instr := f.growStack++f.setFramePointer

def prologue : List Instr := f.functionPrologue++f.expandPrologue

end Prologue

section Epilogue

def expandEpilogue : List Instr :=
  let w := BitVec.ofNat 32 f.amount
  if f.amount = 0 then []
  else if f.amount < 512 then [.addImm sp sp w]
  else [.movImm 3 w,.add sp 3]

/-- The batches of `thumb_unexpanded_epilogue`, from the lowest high register up. -/
def popHighs : ℕ → List Reg → List Reg → List Instr
  | 0, _, _ => []
  | k+1, ms, hs =>
    if hs = [] then []
    else .pop (ms.take hs.length)::(moves hs ms++popHighs k ms (hs.drop ms.length))

/-- The register into which `thumb_exit` pops the return address. -/
def popRegister : Reg :=
  match f.ret with
  | .void => 0
  | .block => 1
  | .bytes n => if n.val+1 ≤ 4 then 1 else if n.val+1 ≤ 8 then 2 else 3

/-- Return through a register, or with the address on top of the stack. -/
def thumbExit : Option Reg → List Instr
  | some r => [.bx r]
  | none =>
    if f.interwork = false then [.popPc []]
    else if 12 < f.ret.size then [.mov ip 3,.pop [3],.mov lr 3,.mov 3 ip,.bx lr]
    else [.pop [f.popRegister],.bx f.popRegister]

/-- `thumb_pushpop` for low registers and the program counter. -/
def popWithPc (mask : List Reg) : List Instr :=
  if mask = [] then f.thumbExit none
  else if f.interwork then .pop mask::f.thumbExit none
  else [.popPc mask]

/-- The low registers into which the high ones can be popped. -/
def popMask : List Reg := (if f.ret.size < 13 then [3] else [])++f.low

def popHigh : List Instr := popHighs f.high.length f.popMask f.high

def popLow : List Instr :=
  if f.pretend = 0 then
    if f.pushesLr then f.popWithPc f.low else f.thumbExit (some lr)
  else
    (if f.low = [] then [] else [.pop f.low])++(if f.pushesLr then [.pop [3]] else [])++
      (.addImm sp sp (BitVec.ofNat 32 (4*f.pretend))::f.thumbExit (some (if f.pushesLr then 3 else lr)))

/-- High registers were pushed, and no low register is free to pop them. -/
def Fatal : Prop := f.high ≠ [] ∧ f.popMask = []

instance : Decidable f.Fatal := inferInstanceAs (Decidable (_ ∧ _))

/-- The epilogue, unless the compiler gives up. -/
def epilogue : Option (List Instr) :=
  if f.Fatal then none else some (f.expandEpilogue++f.popHigh++f.popLow)

end Epilogue

/-- The registers on the stack below the arguments, upwards. -/
def saved : List Reg := f.high++f.low++(if f.pushesLr then [lr] else [])

/-- A function body: it keeps the stack pointer, the memory above its frame, and the registers
that were not saved. -/
structure Body (s s' : Machine) : Prop where
  sp_eq : s'.reg sp = s.reg sp
  mem_eq : ∀ k < f.saved.length, s'.mem (up (s.reg sp+BitVec.ofNat 32 f.amount) k) =
    s.mem (up (s.reg sp+BitVec.ofNat 32 f.amount) k)
  reg_eq : ∀ r ∈ [4,5,6,7,8,9,10], f.live r = false → s'.reg r = s.reg r
  lr_eq : f.pushesLr = false → s'.reg lr = s.reg lr

/-- The registers that carry the return value. -/
def returnRegs : List Reg := [0,1,2,3].take ((f.ret.size+3) / 4)

/-- Prologue, body and epilogue return to the caller as the caller expects it. -/
def Correct : Prop :=
  ∀ s₀ s : Machine, f.Body (exec f.prologue s₀).1 s → ∀ code, f.epilogue = some code →
    let r := exec code s
    r.2 = some (s₀.reg lr) ∧ r.1.reg sp = s₀.reg sp ∧
    (∀ x ∈ [4,5,6,7,8,9,10], r.1.reg x = s₀.reg x) ∧
    ∀ x ∈ f.returnRegs, r.1.reg x = s.reg x

section Batches

/-- All high registers end up on the stack, in ascending order. -/
theorem pushHighs_through {ms hs : List Reg} {vs : List Word} (k : ℕ) (hk : hs.length ≤ k)
    (hms : ms ≠ []) (hnd : ms.Nodup) (hdis : ms.Disjoint hs) (hsp : sp ∉ ms) (hsp' : sp ∉ hs)
    (s : Machine) (hst : Stack s.mem (s.reg sp) vs) (hl : hs.length+vs.length < 2^30) :
    ∃ s', Through (pushHighs k ms hs) s s' ∧ up (s'.reg sp) hs.length = s.reg sp ∧
      Stack s'.mem (s'.reg sp) (hs.reverse.map s.reg++vs) ∧
      ∀ x, x ∉ ms → x ≠ sp → s'.reg x = s.reg x := by
  induction k generalizing hs vs s with
  | zero =>
    obtain rfl : hs = [] := List.length_eq_zero_iff.mp (Nat.le_zero.mp hk)
    exact ⟨s,Through.nil s,by simp,by simpa using hst,fun _ _ _ => rfl⟩
  | succ k ih =>
    by_cases hhs : hs = []
    · subst hhs
      exact ⟨s,Through.nil s,by simp,by simpa using hst,fun _ _ _ => rfl⟩
    · obtain ⟨s₁,hm,hmem,hother,hmap⟩ := moves_through hnd hdis s
      have hsp₁ : s₁.reg sp = s.reg sp := hother sp hsp
      have hpos : 0 < ms.length := List.length_pos_iff.mpr hms
      have hlen : (ms.take hs.length).reverse.length = (hs.take ms.length).length := by
        simp [Nat.min_comm]
      have hvals : (ms.take hs.length).reverse.map s₁.reg = (hs.take ms.length).reverse.map s.reg := by
        rw [List.map_reverse,hmap,List.map_reverse]
      have htake : (hs.take ms.length).length+(hs.drop ms.length).length = hs.length := by
        rw [← List.length_append,List.take_append_drop]
      have hpush : Stack (s₁.push (ms.take hs.length).reverse).mem
          ((s₁.push (ms.take hs.length).reverse).reg sp)
          ((hs.take ms.length).reverse.map s.reg++vs) := by
        rw [← hvals]
        apply push_stack
        · rwa [hmem,hsp₁]
        · rw [hlen]
          omega
      have hsame (x : Reg) (hx : x ∉ ms) (hxsp : x ≠ sp) :
          (s₁.push (ms.take hs.length).reverse).reg x = s.reg x := by
        rw [push_other hxsp,hother x hx]
      have hrest : (hs.drop ms.length).length ≤ k := by
        rw [List.length_drop]
        omega
      have hroom : (hs.drop ms.length).length+((hs.take ms.length).reverse.map s.reg++vs).length <
          2^30 := by
        simp only [List.length_append,List.length_map,List.length_reverse]
        omega
      obtain ⟨s₂,hthrough,hup,hstack,hframe⟩ := ih hrest
        (fun x hx hx' => hdis hx (List.mem_of_mem_drop hx')) (fun h => hsp' (List.mem_of_mem_drop h))
        (s₁.push (ms.take hs.length).reverse) hpush hroom
      refine ⟨s₂,?_,?_,?_,fun x hx hxsp => (hframe x hx hxsp).trans (hsame x hx hxsp)⟩
      · rw [pushHighs,if_neg hhs]
        exact hm.append (Through.cons rfl hthrough)
      · have hbatch := @push_sp s₁ (ms.take hs.length).reverse
        rw [hlen,hsp₁] at hbatch
        rw [← hbatch,← hup,up_up,← htake,Nat.add_comm]
      · have hhigh : (hs.drop ms.length).reverse.map (s₁.push (ms.take hs.length).reverse).reg =
            (hs.drop ms.length).reverse.map s.reg := by
          refine List.map_congr_left fun x hx => ?_
          have hx' : x ∈ hs := List.mem_of_mem_drop (List.mem_reverse.mp hx)
          refine hsame x (fun hxm => hdis hxm hx') ?_
          rintro rfl
          exact hsp' hx'
        rw [hhigh,← List.append_assoc,← List.map_append,← List.reverse_append,
          List.take_append_drop] at hstack
        exact hstack

/-- The high registers take back what lies on the stack, in ascending order. -/
theorem popHighs_through {ms hs : List Reg} {vs : List Word} {g : Reg → Word} (k : ℕ)
    (hk : hs.length ≤ k) (hms : ms ≠ []) (hnd : ms.Nodup) (hnd' : hs.Nodup) (hdis : ms.Disjoint hs)
    (hsp : sp ∉ ms) (hsp' : sp ∉ hs) (s : Machine)
    (hst : Stack s.mem (s.reg sp) (hs.map g++vs)) :
    ∃ s', Through (popHighs k ms hs) s s' ∧ s'.reg sp = up (s.reg sp) hs.length ∧
      s'.mem = s.mem ∧ (∀ h ∈ hs, s'.reg h = g h) ∧
      ∀ x, x ∉ ms → x ∉ hs → x ≠ sp → s'.reg x = s.reg x := by
  induction k generalizing hs s with
  | zero =>
    obtain rfl : hs = [] := List.length_eq_zero_iff.mp (Nat.le_zero.mp hk)
    exact ⟨s,Through.nil s,by simp,rfl,by simp,fun _ _ _ _ => rfl⟩
  | succ k ih =>
    by_cases hhs : hs = []
    · subst hhs
      exact ⟨s,Through.nil s,by simp,rfl,by simp,fun _ _ _ _ => rfl⟩
    · have hpos : 0 < ms.length := List.length_pos_iff.mpr hms
      have hsplit : hs.map g = (hs.take ms.length).map g++(hs.drop ms.length).map g := by
        rw [← List.map_append,List.take_append_drop]
      have hlen : ((hs.take ms.length).map g).length = (ms.take hs.length).length := by
        simp [Nat.min_comm]
      rw [hsplit,List.append_assoc] at hst
      have hspt : sp ∉ ms.take hs.length := fun h => hsp (List.mem_of_mem_take h)
      have hvals := pop_map hst hlen (hnd.sublist (List.take_sublist ..)) hspt
      have hrest := pop_stack hst hlen
      obtain ⟨s₁,hm,hmem,hother,hmap⟩ := moves_through hnd' (fun x hx hx' => hdis hx' hx)
        (s.pop (ms.take hs.length))
      have hsp₁ : s₁.reg sp = (s.pop (ms.take hs.length)).reg sp := hother sp hsp'
      have hfirst (h : Reg) (hh : h ∈ hs.take ms.length) : s₁.reg h = g h := by
        rw [hvals] at hmap
        exact List.map_inj_left.mp hmap h hh
      have hfew : (hs.drop ms.length).length ≤ k := by
        rw [List.length_drop]
        omega
      rw [← hmem,← hsp₁] at hrest
      obtain ⟨s₂,hthrough,hup,hmem₂,hreg,hframe⟩ := ih hfew
        (hnd'.sublist (List.drop_sublist ..)) (fun x hx hx' => hdis hx (List.mem_of_mem_drop hx'))
        (fun h => hsp' (List.mem_of_mem_drop h)) s₁ hrest
      refine ⟨s₂,?_,?_,hmem₂.trans hmem,fun h hh => ?_,fun x hx hx' hxsp => ?_⟩
      · rw [popHighs,if_neg hhs]
        exact Through.cons rfl (hm.append hthrough)
      · rw [hup,hsp₁,pop_sp,up_up]
        congr 1
        simp only [List.length_take,List.length_drop]
        omega
      · rw [← List.take_append_drop ms.length hs,List.mem_append] at hh
        rcases hh with hh | hh
        · -- what an earlier batch restored is out of reach of the later ones
          have hmem' : h ∈ hs := List.mem_of_mem_take hh
          have hnot : h ∉ hs.drop ms.length := by
            rw [← List.take_append_drop ms.length hs] at hnd'
            exact fun hd => List.disjoint_of_nodup_append hnd' hh hd
          have hne : h ≠ sp := by
            rintro rfl
            exact hsp' hmem'
          rw [hframe h (fun hm => hdis hm hmem') hnot hne]
          exact hfirst h hh
        · exact hreg h hh
      · have hd : x ∉ hs.drop ms.length := fun h => hx' (List.mem_of_mem_drop h)
        rw [hframe x hx hd hxsp,hother x hx',pop_other hxsp fun h => hx (List.mem_of_mem_take h)]

end Batches

section Entry

variable {f}

theorem low_nodup : f.low.Nodup := List.Nodup.filter _ (by decide)

theorem high_nodup : f.high.Nodup := List.Nodup.filter _ (by decide)

theorem mem_low {x : Reg} : x ∈ f.low ↔ x ∈ [4,5,6,7] ∧ f.live x = true := List.mem_filter

theorem mem_high {x : Reg} : x ∈ f.high ↔ x ∈ [8,9,10] ∧ f.live x = true := List.mem_filter

theorem ne_of_mem_low {x y : Reg} (h : x ∈ f.low) (hy : y ∉ [4,5,6,7]) : x ≠ y := by
  rintro rfl
  exact hy (mem_low.mp h).1

theorem ne_of_mem_high {x y : Reg} (h : x ∈ f.high) (hy : y ∉ [8,9,10]) : x ≠ y := by
  rintro rfl
  exact hy (mem_high.mp h).1

theorem notMem_low {y : Reg} (hy : y ∉ [4,5,6,7]) : y ∉ f.low := fun h => hy (mem_low.mp h).1

theorem notMem_high {y : Reg} (hy : y ∉ [8,9,10]) : y ∉ f.high := fun h => hy (mem_high.mp h).1

theorem low_disjoint_high : f.low.Disjoint f.high := by
  intro x hx hx'
  have h : ∀ y ∈ [4,5,6,7], y ∉ ([8,9,10] : List Reg) := by decide
  exact h x (mem_low.mp hx).1 (mem_high.mp hx').1

/-- The low registers and the link register that `pushLow` saves. -/
def lowSaved (f : Frame) : List Reg := f.low++(if f.pushesLr then [lr] else [])

theorem pretendArgs_through (s : Machine) : ∃ s', Through f.pretendArgs s s' ∧
    up (s'.reg sp) f.pretend = s.reg sp ∧ ∀ x, x ≠ sp → s'.reg x = s.reg x := by
  unfold pretendArgs
  split
  · rename_i hp
    exact ⟨s,Through.nil s,by simp [hp],fun _ _ => rfl⟩
  · split
    · have hlen : ∀ p : Fin 5, ([0,1,2,3].drop (4-p) : List Reg).length = p := by decide
      refine ⟨_,Through.single rfl,?_,fun x hx => push_other hx⟩
      have hsp := @push_sp s ([0,1,2,3].drop (4-f.pretend))
      rwa [hlen] at hsp
    · refine ⟨_,Through.single rfl,?_,fun x hx => set_other _ hx⟩
      rw [set_same,← BitVec.sub_eq_add_neg,up_sub]

theorem pushLow_through (s : Machine) : ∃ s', Through f.pushLow s s' ∧
    up (s'.reg sp) f.lowSaved.length = s.reg sp ∧
    Stack s'.mem (s'.reg sp) (f.lowSaved.map s.reg) ∧ ∀ x, x ≠ sp → s'.reg x = s.reg x := by
  have hlen : f.lowSaved.length < 2^30 := by
    have h₁ : f.low.length ≤ 4 := List.length_filter_le ..
    have h₂ : (if f.pushesLr then [lr] else []).length ≤ 1 := by split <;> simp
    have h₃ : f.lowSaved.length = f.low.length+(if f.pushesLr then [lr] else []).length :=
      List.length_append
    omega
  by_cases hm : f.lowSaved = []
  · refine ⟨s,?_,by simp [hm],by simp [hm,Stack],fun _ _ => rfl⟩
    have : f.pushLow = [] := if_pos hm
    rw [this]
    exact Through.nil s
  · refine ⟨s.push f.lowSaved,?_,push_sp,?_,fun x hx => push_other hx⟩
    · have : f.pushLow = [.push f.lowSaved] := if_neg hm
      rw [this]
      exact Through.single rfl
    · have := @push_stack s f.lowSaved [] trivial (by simpa using hlen)
      rwa [List.append_nil] at this

/-- The high registers go on the stack; `r3` and `ip` may be used for it. -/
theorem pushHigh_through (s : Machine) {vs : List Word} (hst : Stack s.mem (s.reg sp) vs)
    (hl : vs.length < 2^29) : ∃ s', Through f.pushHigh s s' ∧
    up (s'.reg sp) f.high.length = s.reg sp ∧
    Stack s'.mem (s'.reg sp) (f.high.map s.reg++vs) ∧
    ∀ x, x ∉ f.low → x ≠ 3 → x ≠ ip → x ≠ sp → s'.reg x = s.reg x := by
  have hlen : f.high.reverse.length+vs.length < 2^30 := by
    have : f.high.length ≤ 3 := List.length_filter_le ..
    rw [List.length_reverse]
    omega
  have hsp : sp ∉ f.high.reverse := fun h => notMem_high (by decide) (List.mem_reverse.mp h)
  unfold pushHigh
  by_cases hh : f.high = []
  · rw [if_pos hh,hh]
    exact ⟨s,Through.nil s,by simp,by simpa using hst,fun _ _ _ _ _ => rfl⟩
  · rw [if_neg hh]
    by_cases hlow : f.low = []
    · rw [if_pos hlow]
      -- `r3` is kept in `ip` around the pushes when it is live
      obtain ⟨s₁,ht₁,hm₁,hr₁⟩ : ∃ s₁, Through (if f.live 3 then [.mov ip 3] else []) s s₁ ∧
          s₁.mem = s.mem ∧ ∀ x, x ≠ ip → s₁.reg x = s.reg x := by
        split
        · exact ⟨_,Through.single rfl,rfl,fun x hx => set_other _ hx⟩
        · exact ⟨s,Through.nil s,rfl,fun _ _ => rfl⟩
      have hsp₁ : s₁.reg sp = s.reg sp := hr₁ sp (by decide)
      obtain ⟨s₂,ht₂,hup₂,hst₂,hr₂⟩ := @pushHighs_through [3] f.high.reverse vs f.high.length
        (by simp) (by simp) (by simp)
        (fun x hx hx' => ne_of_mem_high (List.mem_reverse.mp hx') (by decide) (List.mem_singleton.mp hx))
        (by decide) hsp s₁ (by rwa [hm₁,hsp₁]) hlen
      obtain ⟨s₃,ht₃,hm₃,hr₃⟩ : ∃ s₃, Through (if f.live 3 then [.mov 3 ip] else []) s₂ s₃ ∧
          s₃.mem = s₂.mem ∧ ∀ x, x ≠ 3 → s₃.reg x = s₂.reg x := by
        split
        · exact ⟨_,Through.single rfl,rfl,fun x hx => set_other _ hx⟩
        · exact ⟨s₂,Through.nil s₂,rfl,fun _ _ => rfl⟩
      have hsp₃ : s₃.reg sp = s₂.reg sp := hr₃ sp (by decide)
      refine ⟨s₃,(ht₁.append ht₂).append ht₃,?_,?_,fun x _ h3 hip hxsp => ?_⟩
      · rw [hsp₃,← hsp₁,← hup₂,List.length_reverse]
      · have hmap : f.high.map s₁.reg = f.high.map s.reg :=
          List.map_congr_left fun x hx => hr₁ x (ne_of_mem_high hx (by decide))
        rw [List.reverse_reverse,hmap] at hst₂
        rwa [hm₃,hsp₃]
      · rw [hr₃ x h3,hr₂ x (by simpa using h3) hxsp,hr₁ x hip]
    · rw [if_neg hlow]
      obtain ⟨s₂,ht₂,hup₂,hst₂,hr₂⟩ := @pushHighs_through f.low.reverse f.high.reverse vs
        f.high.length (by simp) (by simpa using hlow) (List.nodup_reverse.mpr low_nodup)
        (fun x hx hx' => low_disjoint_high (List.mem_reverse.mp hx) (List.mem_reverse.mp hx'))
        (fun h => notMem_low (by decide) (List.mem_reverse.mp h)) hsp s hst hlen
      refine ⟨s₂,ht₂,?_,?_,fun x hx _ _ hxsp => hr₂ x (by simpa using hx) hxsp⟩
      · rwa [List.length_reverse] at hup₂
      · rwa [List.reverse_reverse] at hst₂

theorem growStack_through (s : Machine) : ∃ s', Through f.growStack s s' ∧ s'.mem = s.mem ∧
    s'.reg sp+BitVec.ofNat 32 f.amount = s.reg sp ∧
    ∀ x, x ∉ f.low → x ≠ ip → x ≠ sp → s'.reg x = s.reg x := by
  have hcancel (a b : Word) : a+-b+b = a := by
    rw [← BitVec.sub_eq_add_neg,BitVec.sub_add_cancel]
  simp only [growStack]
  split
  · rename_i h0
    exact ⟨s,Through.nil s,rfl,by simp [h0],fun _ _ _ _ => rfl⟩
  · split
    · refine ⟨_,Through.single rfl,rfl,?_,fun x _ _ hx => set_other _ hx⟩
      rw [set_same]
      exact hcancel ..
    · split
      · rename_i hlow
        refine ⟨_,Through.cons rfl (Through.cons rfl (Through.cons rfl (Through.single rfl))),rfl,
          ?_,fun x _ hip hsp => ?_⟩
        · simp only [Machine.set,Function.update,ip,sp]
          exact hcancel ..
        · by_cases hx : x = 4
          · subst hx
            simp [Machine.set,Function.update,ip,sp]
          · simp [Machine.set,hx,hip,hsp]
      · rename_i r rs hlow
        have hr : r ∈ f.low := by simp [hlow]
        have hrsp : sp ≠ r := (ne_of_mem_low hr (by decide)).symm
        refine ⟨_,Through.cons rfl (Through.single rfl),rfl,?_,fun x hx _ hsp => ?_⟩
        · rw [set_same,set_same,set_other _ hrsp]
          exact hcancel ..
        · have hxr : x ≠ r := by
            rintro rfl
            exact hx hr
          rw [set_other _ hsp,set_other _ hxr]

theorem setFramePointer_through (s : Machine) : ∃ s', Through f.setFramePointer s s' ∧
    s'.mem = s.mem ∧ (∀ x, x ∉ f.low → s'.reg x = s.reg x) ∧
    (f.framePointer = true → s'.reg 7 = s.reg sp+BitVec.ofNat 32 (4*f.outgoingArgs)) := by
  simp only [setFramePointer]
  split
  · rename_i hfp
    have h7 : (7 : Reg) ∈ f.low := mem_low.mpr ⟨by decide,f.framePointer_live hfp⟩
    have hne (x : Reg) (hx : x ∉ f.low) : x ≠ 7 := by
      rintro rfl
      exact hx h7
    have hsp : sp ≠ 7 := by decide
    split
    · rename_i h0
      refine ⟨_,Through.single rfl,rfl,fun x hx => set_other _ (hne x hx),fun _ => ?_⟩
      rw [set_same,h0]
      exact (BitVec.add_zero _).symm
    · split
      · exact ⟨_,Through.single rfl,rfl,fun x hx => set_other _ (hne x hx),fun _ => set_same ..⟩
      · refine ⟨_,Through.cons rfl (Through.single rfl),rfl,fun x hx => ?_,fun _ => ?_⟩
        · rw [set_other _ (hne x hx),set_other _ (hne x hx)]
        · rw [set_same,set_same,set_other _ hsp]
          exact BitVec.add_comm ..
  · rename_i hfp
    exact ⟨s,Through.nil s,rfl,fun _ _ => rfl,fun h => absurd h hfp⟩

/-- After the prologue the saved registers lie above the frame, in ascending order. -/
theorem prologue_through (s₀ : Machine) : ∃ s, Through f.prologue s₀ s ∧
    up (s.reg sp+BitVec.ofNat 32 f.amount) (f.saved.length+f.pretend) = s₀.reg sp ∧
    Stack s.mem (s.reg sp+BitVec.ofNat 32 f.amount) (f.saved.map s₀.reg) ∧
    (∀ x, x ∉ f.low → x ≠ 3 → x ≠ ip → x ≠ sp → s.reg x = s₀.reg x) ∧
    (f.framePointer = true → s.reg 7 = s.reg sp+BitVec.ofNat 32 (4*f.outgoingArgs)) := by
  obtain ⟨s₁,ht₁,hup₁,hr₁⟩ := @pretendArgs_through f s₀
  obtain ⟨s₂,ht₂,hup₂,hst₂,hr₂⟩ := @pushLow_through f s₁
  have hlen : (f.lowSaved.map s₁.reg).length < 2^29 := by
    have h₁ : f.low.length ≤ 4 := List.length_filter_le ..
    have h₂ : (if f.pushesLr then [lr] else []).length ≤ 1 := by split <;> simp
    rw [List.length_map,lowSaved,List.length_append]
    omega
  obtain ⟨s₃,ht₃,hup₃,hst₃,hr₃⟩ := @pushHigh_through f s₂ _ hst₂ hlen
  obtain ⟨s₄,ht₄,hm₄,hsp₄,hr₄⟩ := @growStack_through f s₃
  obtain ⟨s₅,ht₅,hm₅,hr₅,hfp₅⟩ := @setFramePointer_through f s₄
  have hsp₅ : s₅.reg sp = s₄.reg sp := hr₅ sp (notMem_low (by decide))
  have hsaved : f.saved = f.high++f.lowSaved := List.append_assoc ..
  refine ⟨s₅,((ht₁.append ht₂).append ht₃).append (ht₄.append ht₅),?_,?_,fun x hx h3 hip hsp => ?_,
    fun hfp => ?_⟩
  · rw [hsp₅,hsp₄,← hup₁,← hup₂,← hup₃,up_up,up_up,hsaved,List.length_append,
      Nat.add_assoc]
  · have hlow : f.lowSaved.map s₁.reg = f.lowSaved.map s₀.reg := by
      refine List.map_congr_left fun x hx => hr₁ x ?_
      rcases List.mem_append.mp hx with hx | hx
      · exact ne_of_mem_low hx (by decide)
      · split at hx
        · rw [List.mem_singleton.mp hx]
          decide
        · cases hx
    have hhigh : f.high.map s₂.reg = f.high.map s₀.reg := by
      refine List.map_congr_left fun x hx => ?_
      have hne : x ≠ sp := ne_of_mem_high hx (by decide)
      rw [hr₂ x hne,hr₁ x hne]
    rw [hlow,hhigh,← List.map_append,← hsaved] at hst₃
    rwa [hsp₅,hsp₄,hm₅,hm₄]
  · rw [hr₅ x hx,hr₄ x hx hip hsp,hr₃ x hx h3 hip hsp,hr₂ x hsp,hr₁ x hsp]
  · rw [hsp₅]
    exact hfp₅ hfp

end Entry

section Exit

variable {f}

/-- The registers that the caller expects back. -/
def calleeSaved : List Reg := [4,5,6,7,8,9,10]

theorem expandEpilogue_through (s : Machine) : ∃ s', Through f.expandEpilogue s s' ∧
    s'.mem = s.mem ∧ s'.reg sp = s.reg sp+BitVec.ofNat 32 f.amount ∧
    (∀ x, x ≠ sp → (x = 3 → f.amount < 512) → s'.reg x = s.reg x) ∧
    (512 ≤ f.amount → s'.reg 3 = BitVec.ofNat 32 f.amount) := by
  simp only [expandEpilogue]
  split
  · rename_i h0
    exact ⟨s,Through.nil s,rfl,by simp [h0],fun _ _ _ => rfl,by omega⟩
  · split
    · rename_i hlt
      exact ⟨_,Through.single rfl,rfl,set_same ..,fun x hx _ => set_other _ hx,by omega⟩
    · rename_i hge
      refine ⟨_,Through.cons rfl (Through.single rfl),rfl,?_,fun x hx h3 => ?_,fun _ => ?_⟩
      · rw [set_same,set_same,set_other _ (by decide)]
      · have hx3 : x ≠ 3 := fun he => hge (h3 he)
        rw [set_other _ hx,set_other _ hx3]
      · rw [set_other _ (by decide),set_same]

theorem popMask_facts : f.popMask.Nodup ∧ f.popMask.Disjoint f.high ∧ sp ∉ f.popMask ∧
    ∀ x ∈ f.popMask, x ∈ f.low ∨ x = 3 ∧ f.ret.size < 13 := by
  have hmem : ∀ x ∈ f.popMask, x ∈ f.low ∨ x = 3 ∧ f.ret.size < 13 := by
    intro x hx
    unfold popMask at hx
    split at hx
    · rename_i hs
      rcases List.mem_append.mp hx with hx | hx
      · exact .inr ⟨List.mem_singleton.mp hx,hs⟩
      · exact .inl hx
    · exact .inl hx
  refine ⟨?_,?_,?_,hmem⟩
  · unfold popMask
    split
    · exact List.nodup_cons.mpr ⟨notMem_low (by decide),low_nodup⟩
    · exact low_nodup
  · intro x hx hx'
    rcases hmem x hx with h | ⟨rfl,_⟩
    · exact low_disjoint_high h hx'
    · exact notMem_high (by decide) hx'
  · intro h
    rcases hmem sp h with h | ⟨h,_⟩
    · exact notMem_low (by decide) h
    · exact absurd h (by decide)

theorem popHigh_through (hf : ¬ f.Fatal) {g : Reg → Word} {vs : List Word} (s : Machine)
    (hst : Stack s.mem (s.reg sp) (f.high.map g++vs)) : ∃ s', Through f.popHigh s s' ∧
    s'.mem = s.mem ∧ s'.reg sp = up (s.reg sp) f.high.length ∧ (∀ h ∈ f.high, s'.reg h = g h) ∧
    ∀ x, x ∉ f.low → x ∉ f.high → x ≠ sp → (x = 3 → 13 ≤ f.ret.size) → s'.reg x = s.reg x := by
  by_cases hh : f.high = []
  · refine ⟨s,?_,rfl,by simp [hh],by simp [hh],fun _ _ _ _ _ => rfl⟩
    unfold popHigh
    rw [hh]
    exact Through.nil s
  · have hms : f.popMask ≠ [] := fun h => hf ⟨hh,h⟩
    obtain ⟨hnd,hdis,hsp,hmem⟩ := @popMask_facts f
    obtain ⟨s',ht,hsp',hm,hreg,hframe⟩ := popHighs_through f.high.length (Nat.le_refl _) hms hnd high_nodup
      hdis hsp (notMem_high (by decide)) s hst
    refine ⟨s',ht,hm,hsp',hreg,fun x hx hx' hxsp h3 => hframe x (fun hxm => ?_) hx' hxsp⟩
    rcases hmem x hxm with h | ⟨h,hs⟩
    · exact hx h
    · exact absurd (h3 h) (by omega)

/-- The registers that the caller reads after the return. -/
def Kept (f : Frame) (x : Reg) : Prop := x ∈ calleeSaved ∨ x ∈ f.returnRegs

theorem Kept.ne {x y : Reg} (h : f.Kept x) (hy : y ∉ [0,1,2,3,4,5,6,7,8,9,10]) : x ≠ y := by
  have hc : ∀ y ∈ calleeSaved, y ∈ ([0,1,2,3,4,5,6,7,8,9,10] : List Reg) := by decide
  have hr : ∀ y ∈ ([0,1,2,3] : List Reg), y ∈ ([0,1,2,3,4,5,6,7,8,9,10] : List Reg) := by decide
  rintro rfl
  rcases h with h | h
  · exact hy (hc x h)
  · exact hy (hr x (List.mem_of_mem_take h))

/-- The last argument register is only read when the return value fills it. -/
theorem kept_three : f.Kept 3 ↔ 13 ≤ f.ret.size := by
  have h : ∀ n : Fin 17, (3 ∈ calleeSaved ∨ (3 : Reg) ∈ [0,1,2,3].take ((n+3) / 4)) ↔ 13 ≤ n.val := by
    decide
  have hlt : f.ret.size < 17 := by
    cases hr : f.ret with
    | void => decide
    | block => decide
    | bytes n =>
      have := n.isLt
      simp only [Return.size]
      omega
  exact h ⟨f.ret.size,hlt⟩

/-- The pop register of a short return value carries nothing that the caller reads. -/
theorem popRegister_facts (hs : f.ret.size ≤ 12) : f.popRegister ≠ sp ∧ ¬ f.Kept f.popRegister := by
  unfold Kept popRegister returnRegs
  generalize f.ret = r at hs
  cases r with
  | void => decide
  | block => decide
  | bytes n =>
    revert n
    decide

/-- `thumb_exit` with the return address on top of the stack. -/
theorem thumbExit_exec {w : Word} (s : Machine) (hst : s.mem (s.reg sp) = w) :
    (exec (f.thumbExit none) s).2 = some w ∧
    (exec (f.thumbExit none) s).1.reg sp = up (s.reg sp) 1 ∧
    ∀ x, f.Kept x → (exec (f.thumbExit none) s).1.reg x = s.reg x := by
  simp only [thumbExit]
  split
  · refine ⟨?_,?_,fun x hx => ?_⟩
    · simp [exec,Instr.step,Machine.pop,load,hst]
    · simp [exec,Instr.step,Machine.pop,load,Machine.set]
    · have hsp := hx.ne (y := sp) (by decide)
      simp [exec,Instr.step,Machine.pop,load,Machine.set,hsp]
  · split
    · refine ⟨?_,?_,fun x hx => ?_⟩
      · simpa [exec,Instr.step,Machine.pop,load,Machine.set,Function.update,ip,sp,lr] using hst
      · simp [exec,Instr.step,Machine.pop,load,Machine.set,Function.update,ip,sp,lr]
      · have hsp := hx.ne (y := sp) (by decide)
        have hip := hx.ne (y := ip) (by decide)
        have hlr := hx.ne (y := lr) (by decide)
        by_cases h3 : x = 3
        · subst h3
          simp [exec,Instr.step,Machine.pop,load,Machine.set,Function.update,ip,sp,lr]
        · simp [exec,Instr.step,Machine.pop,load,Machine.set,hsp,hip,hlr,h3]
    · rename_i hs
      obtain ⟨hpsp,hpk⟩ := popRegister_facts (f := f) (by omega)
      refine ⟨?_,?_,fun x hx => ?_⟩
      · simp [exec,Instr.step,Machine.pop,load,hpsp,hst]
      · simp [exec,Instr.step,Machine.pop,load]
      · have hsp := hx.ne (y := sp) (by decide)
        have hp : x ≠ f.popRegister := by
          rintro rfl
          exact hpk hx
        simp [exec,Instr.step,Machine.pop,load,hsp,hp]

/-- Pop the low registers and return to the address above them. -/
theorem popWithPc_exec {g : Reg → Word} {w : Word} (s : Machine)
    (hst : Stack s.mem (s.reg sp) (f.low.map g++[w])) :
    (exec (f.popWithPc f.low) s).2 = some w ∧
    (exec (f.popWithPc f.low) s).1.reg sp = up (s.reg sp) (f.low.length+1) ∧
    (∀ x ∈ f.low, (exec (f.popWithPc f.low) s).1.reg x = g x) ∧
    ∀ x, f.Kept x → x ∉ f.low → (exec (f.popWithPc f.low) s).1.reg x = s.reg x := by
  have hsp : sp ∉ f.low := notMem_low (by decide)
  have hreg := List.map_inj_left.mp (pop_map hst (by simp) low_nodup hsp)
  have htop := (@pop_stack s f.low [w] (f.low.map g) hst (by simp)).1
  have hkept (x : Reg) (hx : x ∈ f.low) : f.Kept x := by
    have hc : ∀ y ∈ ([4,5,6,7] : List Reg), y ∈ calleeSaved := by decide
    exact .inl (hc x (mem_low.mp hx).1)
  simp only [popWithPc]
  split
  · rename_i hl
    rw [hl] at hst ⊢
    obtain ⟨h₁,h₂,h₃⟩ := @thumbExit_exec f w s hst.1
    exact ⟨h₁,h₂,by simp,fun x hx _ => h₃ x hx⟩
  · split
    · have hexec : exec (.pop f.low::f.thumbExit none) s = exec (f.thumbExit none) (s.pop f.low) := rfl
      obtain ⟨h₁,h₂,h₃⟩ := @thumbExit_exec f w (s.pop f.low) htop
      rw [hexec]
      refine ⟨h₁,?_,fun x hx => ?_,fun x hx hxl => ?_⟩
      · rw [h₂,pop_sp,up_up]
      · rw [h₃ x (hkept x hx),hreg x hx]
      · rw [h₃ x hx,pop_other (hx.ne (by decide)) hxl]
    · have hexec : exec [.popPc f.low] s =
          ((s.pop f.low).set sp (up ((s.pop f.low).reg sp) 1),
            some ((s.pop f.low).mem ((s.pop f.low).reg sp))) := rfl
      rw [hexec]
      refine ⟨congrArg some htop,?_,fun x hx => ?_,fun x hx hxl => ?_⟩
      · rw [set_same,pop_sp,up_up]
      · rw [set_other _ ((hkept x hx).ne (by decide)),hreg x hx]
      · rw [set_other _ (hx.ne (by decide)),pop_other (hx.ne (by decide)) hxl]

theorem low_of_pushesLr (h : f.pushesLr = false) : f.low = [] := by
  simp only [pushesLr,Bool.or_eq_false_iff,Bool.not_eq_false',List.isEmpty_iff] at h
  exact h.1.1

/-- The low registers are popped without the return address. -/
theorem popLowRegs_through {g : Reg → Word} {vs : List Word} (s : Machine)
    (hst : Stack s.mem (s.reg sp) (f.low.map g++vs)) :
    ∃ s', Through (if f.low = [] then [] else [.pop f.low]) s s' ∧ s'.mem = s.mem ∧
      s'.reg sp = up (s.reg sp) f.low.length ∧ (∀ x ∈ f.low, s'.reg x = g x) ∧
      ∀ x, x ∉ f.low → x ≠ sp → s'.reg x = s.reg x := by
  split
  · rename_i hl
    exact ⟨s,Through.nil s,rfl,by simp [hl],by simp [hl],fun _ _ _ => rfl⟩
  · have hreg := @pop_map s f.low vs (f.low.map g) hst (by simp) low_nodup (notMem_low (by decide))
    exact ⟨_,Through.single rfl,rfl,pop_sp,List.map_inj_left.mp hreg,
      fun x hx hxsp => pop_other hxsp hx⟩

/-- The last part of the epilogue, with the saved low registers on top of the stack. -/
theorem popLow_exec {g : Reg → Word} (s : Machine)
    (hst : Stack s.mem (s.reg sp) (f.lowSaved.map g)) :
    (exec f.popLow s).2 = some (if f.pushesLr then g lr else s.reg lr) ∧
    (exec f.popLow s).1.reg sp = up (s.reg sp) (f.lowSaved.length+f.pretend) ∧
    (∀ x ∈ f.low, (exec f.popLow s).1.reg x = g x) ∧
    (∀ x, f.Kept x → x ∉ f.low → (x = 3 → f.pretend = 0 ∨ f.pushesLr = false) →
      (exec f.popLow s).1.reg x = s.reg x) ∧
    (f.pretend ≠ 0 → f.pushesLr = true → (exec f.popLow s).1.reg 3 = g lr) := by
  cases hlr : f.pushesLr with
  | false =>
    have hlow := low_of_pushesLr hlr
    have hsaved : f.lowSaved = [] := by simp [lowSaved,hlow,hlr]
    by_cases hp : f.pretend = 0
    · have hexec : exec f.popLow s = (s,some (s.reg lr)) := by simp [popLow,hp,hlr,thumbExit,exec,Instr.step]
      rw [hexec]
      simp [hlow,hsaved,hp]
    · have hexec : exec f.popLow s =
          (s.set sp (s.reg sp+BitVec.ofNat 32 (4*f.pretend)),some (s.reg lr)) := by
        simp [popLow,hp,hlr,hlow,thumbExit,exec,Instr.step,Machine.set,sp,lr]
      rw [hexec]
      refine ⟨rfl,?_,by simp [hlow],fun x hx _ _ => set_other _ (hx.ne (by decide)),by simp⟩
      rw [set_same,hsaved,List.length_nil,Nat.zero_add]
      rfl
  | true =>
    have hsaved : f.lowSaved = f.low++[lr] := by simp [lowSaved,hlr]
    rw [hsaved,List.map_append] at hst
    by_cases hp : f.pretend = 0
    · have hcode : f.popLow = f.popWithPc f.low := by simp [popLow,hp,hlr]
      obtain ⟨h₁,h₂,h₃,h₄⟩ := @popWithPc_exec f g (g lr) s hst
      rw [hcode]
      refine ⟨h₁,?_,h₃,fun x hx hxl _ => h₄ x hx hxl,fun h => absurd hp h⟩
      rw [h₂,hsaved,hp,List.length_append]
      rfl
    · obtain ⟨s₁,ht,hm,hsp,hreg,hother⟩ := @popLowRegs_through f g _ s hst
      have htop : s₁.mem (s₁.reg sp) = g lr := by
        have := (stack_append.mp hst).2
        rw [List.length_map] at this
        rw [hm,hsp]
        exact this.1
      -- pop {r3}; add sp; bx r3
      have hcode : f.popLow = (if f.low = [] then [] else [.pop f.low])++
          [.pop [3],.addImm sp sp (BitVec.ofNat 32 (4*f.pretend)),.bx 3] := by
        simp [popLow,hp,hlr,thumbExit]
      have hlast : ((s₁.pop [3]).set sp
          ((s₁.pop [3]).reg sp+BitVec.ofNat 32 (4*f.pretend))).reg 3 = g lr := by
        rw [set_other _ (by decide)]
        simpa [Machine.pop,load,sp] using htop
      have hexec : exec f.popLow s = (((s₁.pop [3]).set sp
          ((s₁.pop [3]).reg sp+BitVec.ofNat 32 (4*f.pretend))),some (g lr)) := by
        rw [hcode,ht]
        simp only [exec,Instr.step,hlast]
      rw [hexec]
      refine ⟨rfl,?_,fun x hx => ?_,fun x hx hxl h3 => ?_,fun _ _ => hlast⟩
      · rw [set_same,pop_sp,hsp,up_up,hsaved,List.length_append]
        exact up_up ..
      · have hx3 : x ∉ [3] := fun h => ne_of_mem_low hx (by decide) (List.mem_singleton.mp h)
        rw [set_other _ (ne_of_mem_low hx (by decide)),pop_other (ne_of_mem_low hx (by decide)) hx3,
          hreg x hx]
      · have hx3 : x ∉ [3] := by
          intro h
          rcases h3 (List.mem_singleton.mp h) with h | h
          · exact hp h
          · simp at h
        have hxsp := hx.ne (y := sp) (by decide)
        rw [set_other _ hxsp,pop_other hxsp hx3,hother x hxl hxsp]

/-- The whole epilogue, with the saved registers above the frame. -/
theorem epilogue_exec {code : List Instr} (hc : f.epilogue = some code) {g : Reg → Word} (s : Machine)
    (hst : Stack s.mem (s.reg sp+BitVec.ofNat 32 f.amount) (f.saved.map g)) :
    (exec code s).2 = some (if f.pushesLr then g lr else s.reg lr) ∧
    (exec code s).1.reg sp =
      up (s.reg sp+BitVec.ofNat 32 f.amount) (f.saved.length+f.pretend) ∧
    (∀ x, x ∈ f.low ∨ x ∈ f.high → (exec code s).1.reg x = g x) ∧
    (∀ x, f.Kept x → x ∉ f.low → x ∉ f.high →
      (x = 3 → f.amount < 512 ∧ (f.pretend = 0 ∨ f.pushesLr = false)) →
      (exec code s).1.reg x = s.reg x) ∧
    (13 ≤ f.ret.size → f.pretend ≠ 0 → f.pushesLr = true → (exec code s).1.reg 3 = g lr) ∧
    (13 ≤ f.ret.size → 512 ≤ f.amount → f.pretend = 0 ∨ f.pushesLr = false →
      (exec code s).1.reg 3 = BitVec.ofNat 32 f.amount) := by
  have hf : ¬ f.Fatal := by
    intro hf
    simp [epilogue,hf] at hc
  have hcode : code = f.expandEpilogue++f.popHigh++f.popLow := by
    simpa [epilogue,hf] using hc.symm
  have hsaved : f.saved = f.high++f.lowSaved := List.append_assoc ..
  obtain ⟨s₁,ht₁,hm₁,hsp₁,hr₁,h3₁⟩ := @expandEpilogue_through f s
  rw [hsaved,List.map_append,← hm₁,← hsp₁] at hst
  obtain ⟨s₂,ht₂,hm₂,hsp₂,hhigh₂,hr₂⟩ := popHigh_through hf s₁ hst
  have hst₂ : Stack s₂.mem (s₂.reg sp) (f.lowSaved.map g) := by
    have := (stack_append.mp hst).2
    rwa [List.length_map,← hsp₂,← hm₂] at this
  obtain ⟨haddr,hsp₃,hlow₃,hr₃,h3₃⟩ := popLow_exec s₂ hst₂
  have hexec : exec code s = exec f.popLow s₂ := by
    rw [hcode]
    exact (ht₁.append ht₂) _
  have hlr : s₂.reg lr = s.reg lr := by
    have hne : lr ≠ 3 := by decide
    rw [hr₂ lr (notMem_low (by decide)) (notMem_high (by decide)) (by decide) fun h => absurd h hne,
      hr₁ lr (by decide) fun h => absurd h hne]
  have hthree : 13 ≤ f.ret.size → f.pretend = 0 ∨ f.pushesLr = false →
      (exec f.popLow s₂).1.reg 3 = s₁.reg 3 := by
    intro hs hp
    rw [hr₃ 3 (kept_three.mpr hs) (notMem_low (by decide)) fun _ => hp,
      hr₂ 3 (notMem_low (by decide)) (notMem_high (by decide)) (by decide) fun _ => hs]
  rw [hexec]
  refine ⟨?_,?_,fun x hx => ?_,fun x hk hxl hxh h3 => ?_,fun _ => h3₃,fun hs ha hp => ?_⟩
  · rw [haddr,hlr]
  · rw [hsp₃,hsp₂,hsp₁,up_up,hsaved,List.length_append,Nat.add_assoc]
  · rcases hx with hx | hx
    · exact hlow₃ x hx
    · have hc : ∀ y ∈ ([8,9,10] : List Reg), y ∈ calleeSaved := by decide
      have hxl : x ∉ f.low := fun h => low_disjoint_high h hx
      rw [hr₃ x (.inl (hc x (mem_high.mp hx).1)) hxl fun h =>
        absurd h (ne_of_mem_high hx (by decide)),hhigh₂ x hx]
  · have hxsp := hk.ne (y := sp) (by decide)
    have hsize (h : x = 3) : 13 ≤ f.ret.size := kept_three.mp (h ▸ hk)
    rw [hr₃ x hk hxl fun h => (h3 h).2,hr₂ x hxl hxh hxsp hsize,hr₁ x hxsp fun h => (h3 h).1]
  · rw [hthree hs hp,h3₁ ha]

end Exit

/-- The condition: `r3` carries no part of the return value, or neither the frame nor the
pretended arguments make the epilogue use it. -/
def KeepsR3 (f : Frame) : Prop :=
  f.ret.size ≤ 12 ∨ f.amount < 512 ∧ (f.pretend = 0 ∨ f.pushesLr = false)

instance (f : Frame) : Decidable f.KeepsR3 := inferInstanceAs (Decidable (_ ∨ _))

section Inverse

/-- The state after a body, as the epilogue finds it. -/
theorem body_stack {f : Frame} {s₀ s : Machine} (hb : f.Body (exec f.prologue s₀).1 s) :
    up (s.reg sp+BitVec.ofNat 32 f.amount) (f.saved.length+f.pretend) = s₀.reg sp ∧
    Stack s.mem (s.reg sp+BitVec.ofNat 32 f.amount) (f.saved.map s₀.reg) ∧
    (∀ x ∈ calleeSaved, x ∉ f.low → x ∉ f.high → s.reg x = s₀.reg x) ∧
    (f.pushesLr = false → s.reg lr = s₀.reg lr) := by
  obtain ⟨s₁,ht,hup,hst,hr,-⟩ := @prologue_through f s₀
  rw [ht.exec] at hb
  refine ⟨?_,?_,fun x hx hxl hxh => ?_,fun hlr => ?_⟩
  · rwa [hb.sp_eq]
  · rw [hb.sp_eq]
    exact hst.congr fun k hk => hb.mem_eq k (by simpa using hk)
  · have hdead : f.live x = false := by
      by_contra hlive
      rw [Bool.not_eq_false] at hlive
      have hsplit : ∀ y ∈ calleeSaved, y ∈ ([4,5,6,7] : List Reg) ∨ y ∈ ([8,9,10] : List Reg) := by
        decide
      rcases hsplit x hx with h | h
      · exact hxl (mem_low.mpr ⟨h,hlive⟩)
      · exact hxh (mem_high.mpr ⟨h,hlive⟩)
    have hne : ∀ y ∈ calleeSaved, y ≠ 3 ∧ y ≠ ip ∧ y ≠ sp := by decide
    obtain ⟨h3,hip,hsp⟩ := hne x hx
    rw [hb.reg_eq x hx hdead,hr x hxl h3 hip hsp]
  · rw [hb.lr_eq hlr,hr lr (notMem_low (by decide)) (by decide) (by decide) (by decide)]

theorem correct_of_keepsR3 {f : Frame} (h : f.KeepsR3) : f.Correct := by
  intro s₀ s hb code hc
  obtain ⟨hup,hst,hreg,hlr⟩ := body_stack hb
  obtain ⟨haddr,hsp,hsaved,hkept,_,_⟩ := epilogue_exec hc s hst
  refine ⟨?_,hsp.trans hup,fun x hx => ?_,fun x hx => ?_⟩
  · rw [haddr]
    cases hl : f.pushesLr with
    | true => rfl
    | false => simp [hlr hl]
  · by_cases hin : x ∈ f.low ∨ x ∈ f.high
    · exact hsaved x hin
    · rw [not_or] at hin
      have hne : ∀ y ∈ calleeSaved, y ≠ 3 := by decide
      rw [hkept x (.inl hx) hin.1 hin.2 fun h3 => absurd h3 (hne x hx),hreg x hx hin.1 hin.2]
  · have harg : ∀ y ∈ ([0,1,2,3] : List Reg), y ∉ ([4,5,6,7] : List Reg) ∧ y ∉ ([8,9,10] : List Reg) := by
      decide
    have hx' := harg x (List.mem_of_mem_take hx)
    refine hkept x (.inr hx) (notMem_low hx'.1) (notMem_high hx'.2) fun h3 => ?_
    have hsize : 13 ≤ f.ret.size := kept_three.mp (h3 ▸ .inr hx)
    exact h.resolve_left (by omega)

/-- A body that leaves a given word in `r3` and changes nothing else. -/
theorem body_set_three (f : Frame) (s : Machine) (w : Word) : f.Body s (s.set 3 w) := by
  have hne : ∀ y ∈ calleeSaved, y ≠ 3 := by decide
  exact ⟨set_other _ (by decide),fun _ _ => rfl,fun r hr _ => set_other _ (hne r hr),
    fun _ => set_other _ (by decide)⟩

theorem keepsR3_of_correct {f : Frame} (hf : ¬ f.Fatal) (h : f.Correct) : f.KeepsR3 := by
  by_contra hk
  simp only [KeepsR3,not_or,not_and_or,Nat.not_le,Nat.not_lt] at hk
  obtain ⟨hsize,hbad⟩ := hk
  have hthree : (3 : Reg) ∈ f.returnRegs := (kept_three.mpr hsize).resolve_left (by decide)
  obtain ⟨code,hc⟩ : ∃ code, f.epilogue = some code := ⟨_,if_neg hf⟩
  -- whatever `r3` holds at the end of the body, the epilogue returns one fixed word in it
  have hfixed (s₀ : Machine) : ∃ v, ∀ w,
      (exec code ((exec f.prologue s₀).1.set 3 w)).1.reg 3 = v := by
    by_cases hp : f.pretend = 0 ∨ f.pushesLr = false
    · have ha : 512 ≤ f.amount := by
        rcases hbad with ha | ha
        · exact ha
        · exact absurd hp (by tauto)
      refine ⟨BitVec.ofNat 32 f.amount,fun w => ?_⟩
      obtain ⟨_,hst,_,_⟩ := body_stack (body_set_three f (exec f.prologue s₀).1 w)
      obtain ⟨_,_,_,_,_,hr⟩ := epilogue_exec hc _ hst
      exact hr hsize ha hp
    · rw [not_or,Bool.not_eq_false] at hp
      refine ⟨s₀.reg lr,fun w => ?_⟩
      obtain ⟨_,hst,_,_⟩ := body_stack (body_set_three f (exec f.prologue s₀).1 w)
      obtain ⟨_,_,_,_,hr,_⟩ := epilogue_exec hc _ hst
      exact hr hsize hp.1 hp.2
  let s₀ : Machine := ⟨fun _ => 0,fun _ => 0⟩
  obtain ⟨v,hv⟩ := hfixed s₀
  have hret (w : Word) : v = w := by
    have := (h s₀ _ (body_set_three f (exec f.prologue s₀).1 w) code hc).2.2.2 3 hthree
    rwa [hv w,set_same] at this
  exact absurd ((hret 0).symm.trans (hret 1)) (by decide)

/-- The prologue and the epilogue are inverse exactly when the compiler gives up or `r3` is not
needed for both the return value and the return. -/
theorem prologue_epilogue_inverse (f : Frame) : f.Correct ↔ f.Fatal ∨ f.KeepsR3 := by
  constructor
  · intro h
    by_cases hf : f.Fatal
    · exact .inl hf
    · exact .inr (keepsR3_of_correct hf h)
  · rintro (hf | hk)
    · intro s₀ s _ code hc
      simp [epilogue,hf] at hc
    · exact correct_of_keepsR3 hk

/-- A leaf function with a frame of 512 bytes that returns sixteen bytes. -/
def largeFrame : Frame where
  live _ := false
  leaf := true
  farJump := false
  pretend := 0
  anonymousArgs := false
  frameSize := 128
  outgoingArgs := 0
  framePointer := false
  interwork := true
  ret := .bytes 15
  amount_lt := by decide
  framePointer_live := by decide

/-- Its epilogue is `ldr r3, =512; add sp, r3; bx lr`: the last word of the result is lost. -/
theorem largeFrame_incorrect : ¬ largeFrame.Correct := by
  intro h
  have hbody := body_set_three largeFrame (exec largeFrame.prologue ⟨fun _ => 0,fun _ => 0⟩).1 1
  have hret := (h _ _ hbody [.movImm 3 512,.add sp 3,.bx lr] (by decide)).2.2.2 3 (by decide)
  simp [exec,Instr.step,Machine.set,Function.update,sp] at hret

end Inverse

end Frame

end Thumb
end AgbTools
