import AgbTools.ThumbText

/-! Loads and moves of more than one instruction, when the destination overlaps what they read. -/
namespace AgbTools
namespace Thumb
namespace Loads

section Model

/-- The templates `ldr %0, %1` and `ldr %H0, %2` with the routine's comment. -/
def loadLow : List Piece :=
  [.tok (.op .ldr),.arg 0,.tok .comma,.arg 1,.tok .comment,.tok .note]

def loadHigh : List Piece :=
  [.tok (.op .ldr),.high 0,.tok .comma,.arg 2,.tok .comment,.tok .note]

def lowFirst (d : ℕ) (x : Address) : Option (List Token) :=
  (plusConstant x 4).map (fun y =>
    outputAsmInsn loadLow [.reg d,.mem x,.mem y]++outputAsmInsn loadHigh [.reg d,.mem x,.mem y])

def highFirst (d : ℕ) (x : Address) : Option (List Token) :=
  (plusConstant x 4).map (fun y =>
    outputAsmInsn loadHigh [.reg d,.mem x,.mem y]++outputAsmInsn loadLow [.reg d,.mem x,.mem y])

def Term.constant : Term → Bool
  | .reg _ => false
  | .int _ | .symbol _ _ => true

/-- The three texts of a sum of registers, which `fprintf` prints as they stand. -/
def sumText (d base offset : ℕ) : List Token :=
  [.op .add,.reg (d+1),.comma,.reg base,.comma,.reg offset,.comment,.note,
    .op .ldr,.reg d,.comma,.opening,.reg (d+1),.comma,.imm 0,.closing,.comment,.note,
    .op .ldr,.reg (d+1),.comma,.opening,.reg (d+1),.comma,.imm 4,.closing,.comment,.note]

/-- `thumb_load_double_from_address`; it gives up on addresses it does not handle. -/
def thumbLoadDoubleFromAddress (d : ℕ) (x : Address) : Option (List Token) :=
  match x with
  | .reg n => if d = n then highFirst d x else lowFirst d x
  | .const _ _ => lowFirst d x
  | .plus a b =>
    match if a.constant then (b,a) else (a,b) with
    | (.reg base,.reg offset) => some (sumText d base offset)
    | (.reg base,_) => if d = base then highFirst d x else lowFirst d x
    | _ => none
  | .label _ => highFirst d x
  | .symbol _ _ | .postInc _ => none

/-- The move of a pair, by the two templates for its halves. -/
def pairMove (low high : List Piece) (d r : ℕ) : List Token :=
  if r = d+1 then outputAsmInsn (low++.tok .newline::high) [.reg d,.reg r]
  else outputAsmInsn (high++.tok .newline::low) [.reg d,.reg r]

/-- The templates `add %0, %1, #0` and `add %H0, %H1, #0`. -/
def addLow : List Piece := [.tok (.op .add),.arg 0,.tok .comma,.arg 1,.tok .comma,.tok (.imm 0)]
def addHigh : List Piece := [.tok (.op .add),.high 0,.tok .comma,.high 1,.tok .comma,.tok (.imm 0)]

/-- The templates `mov %0, %1` and `mov %H0, %H1`. -/
def movLow : List Piece := [.tok (.op .mov),.arg 0,.tok .comma,.arg 1]
def movHigh : List Piece := [.tok (.op .mov),.high 0,.tok .comma,.high 1]

/-- The moves between registers of `*movdi_insn` and `*movdf_insn`. -/
def movdiLow : ℕ → ℕ → List Token := pairMove addLow addHigh
def movdiAny : ℕ → ℕ → List Token := pairMove movLow movHigh
def movdfLow : ℕ → ℕ → List Token := pairMove addLow addHigh
def movdfAny : ℕ → ℕ → List Token := pairMove movLow movHigh

def Term.operand : Term → Operand
  | .reg n => .reg n
  | .int k => .int k
  | .symbol _ _ => .other

/-- The address itself as an operand. -/
def Address.operand : Address → Operand
  | .reg n => .reg n
  | _ => .other

/-- `*extendhisi2_insn`, with the scratch register `t`. -/
def extendhisi2Insn (d t : ℕ) (x : Address) : List Token :=
  let ops : Operand × Operand :=
    match x with
    | .plus a b => (a.operand,b.operand)
    | x => (x.operand,.int 0)
  match ops with
  | (_,.reg _) => outputAsmInsn [.tok (.op .ldrsh),.arg 0,.tok .comma,.arg 1] [.reg d,.mem x,.reg t]
  | (b,o) =>
    outputAsmInsn [.tok (.op .mov),.arg 3,.tok .comma,.arg 2,.tok .newline,
      .tok (.op .ldrsh),.arg 0,.tok .comma,.tok .opening,.arg 1,.tok .comma,.arg 3,.tok .closing]
      [.reg d,b,o,.reg t]

/-- The template that loads through `%base`, `%offset` and extends by shifts. -/
def shiftTemplate (base offset : Piece) : List Piece :=
  [.tok (.op .ldrb),.arg 0,.tok .comma,.tok .opening,base,.tok .comma,offset,.tok .closing,.tok .newline,
    .tok (.op .lsl),.arg 0,.tok .comma,.arg 0,.tok .comma,.tok (.imm 24),.tok .newline,
    .tok (.op .asr),.arg 0,.tok .comma,.arg 0,.tok .comma,.tok (.imm 24)]

/-- The template that takes the destination for the offset. -/
def offsetTemplate : List Piece :=
  [.tok (.op .mov),.arg 0,.tok .comma,.arg 2,.tok .newline,
    .tok (.op .ldrsb),.arg 0,.tok .comma,.tok .opening,.arg 1,.tok .comma,.arg 0,.tok .closing]

/-- `REGNO`; that of an integer is the integer. -/
def Term.regno : Term → Option ℕ
  | .reg n => some n
  | .int k => some k.toNat
  | .symbol _ _ => none

/-- `*extendqisi2_insn`; the first alternative is for addresses that are not offsettable. -/
def extendqisi2Insn (ph : Phase) (d : ℕ) (x : Address) : List Token :=
  if offsettable ph 1 x = false then
    outputAsmInsn [.tok (.op .ldrsb),.arg 0,.tok .comma,.arg 1] [.reg d,.mem x]
  else
    match x with
    | .plus a b =>
      let ops := [.reg d,a.operand,b.operand]
      match a,b with
      | .reg _,.reg _ =>
        outputAsmInsn [.tok (.op .ldrsb),.arg 0,.tok .comma,.tok .opening,.arg 1,.tok .comma,.arg 2,
          .tok .closing] ops
      | .reg n,_ =>
        if n = d then outputAsmInsn (shiftTemplate (.arg 1) (.arg 2)) ops
        else outputAsmInsn offsetTemplate ops
      | _,b =>
        if b.regno = some d then outputAsmInsn (shiftTemplate (.arg 2) (.arg 1)) ops
        else outputAsmInsn offsetTemplate ops
    | x =>
      if x.operand = .reg d then outputAsmInsn (shiftTemplate (.arg 0) (.tok (.imm 0))) [.reg d]
      else outputAsmInsn offsetTemplate [.reg d,x.operand,.int 0]

end Model

section Meaning

def Term.value (s : State) : Term → Word
  | .reg n => s.reg n
  | .int k => k
  | .symbol l k => s.label l+k

/-- The address a memory operand denotes. -/
def Address.value (s : State) : Address → Word
  | .reg n | .postInc n => s.reg n
  | .symbol l _ | .label l => s.label l
  | .const l k => s.label l+k
  | .plus a b => a.value s+b.value s

/-- The text leaves the two words at the address in the pair and nothing else changes. -/
def DoubleLoaded (text : List Token) (d : ℕ) (x : Address) (s : State) : Prop :=
  ∃ code, read text = some code ∧ (run code s).reg d = fetch s.mem (x.value s) false .word ∧
    (run code s).reg (d+1) = fetch s.mem (x.value s+4) false .word ∧
    (∀ r, r ≠ d → r ≠ d+1 → (run code s).reg r = s.reg r) ∧ (run code s).mem = s.mem

def PairMoved (text : List Token) (d r : ℕ) (s : State) : Prop :=
  ∃ code, read text = some code ∧ (run code s).reg d = s.reg r ∧
    (run code s).reg (d+1) = s.reg (r+1) ∧
    (∀ q, q ≠ d → q ≠ d+1 → (run code s).reg q = s.reg q) ∧ (run code s).mem = s.mem

/-- The text leaves the sign-extended memory contents in the register; only the registers of `free`
may change besides. -/
def Extended (text : List Token) (w : Width) (d : ℕ) (free : List ℕ) (x : Address) (s : State) : Prop :=
  ∃ code, read text = some code ∧ (run code s).reg d = fetch s.mem (x.value s) true w ∧
    (∀ r, r ≠ d → r ∉ free → (run code s).reg r = s.reg r) ∧ (run code s).mem = s.mem

end Meaning

section Doubles

variable {s : State} {d : ℕ} {x y : Address}

/-- The addresses whose text names what they denote. -/
def Address.printed : Address → Bool
  | .reg _ | .label _ | .const _ _ | .plus (.reg _) (.int _) => true
  | _ => false

@[simp] theorem set_reg (s : State) (d : ℕ) (w : Word) : (s.set d w).reg d = w :=
  Function.update_self ..

theorem set_reg_of_ne (s : State) {d r : ℕ} (h : r ≠ d) (w : Word) : (s.set d w).reg r = s.reg r :=
  Function.update_of_ne h ..

@[simp] theorem set_mem (s : State) (d : ℕ) (w : Word) : (s.set d w).mem = s.mem := rfl

theorem Term.value_set {a : Term} (h : d ∉ a.registers) (w : Word) : a.value (s.set d w) = a.value s := by
  cases a with
  | reg n =>
    have hn : n ≠ d := fun e => h (e ▸ List.mem_singleton_self n)
    exact set_reg_of_ne s hn w
  | int k => rfl
  | symbol l k => rfl

/-- A register that an address does not use does not change it. -/
theorem Address.value_set (h : d ∉ x.registers) (w : Word) : x.value (s.set d w) = x.value s := by
  cases x with
  | reg n =>
    have hn : n ≠ d := fun e => h (e ▸ List.mem_singleton_self n)
    exact set_reg_of_ne s hn w
  | postInc n =>
    have hn : n ≠ d := fun e => h (e ▸ List.mem_singleton_self n)
    exact set_reg_of_ne s hn w
  | symbol l pool => rfl
  | label l => rfl
  | const l k => rfl
  | plus a b =>
    have ha : d ∉ a.registers := fun e => h (List.mem_append_left _ e)
    have hb : d ∉ b.registers := fun e => h (List.mem_append_right _ e)
    rw [Address.value,Term.value_set ha,Term.value_set hb]
    rfl

theorem readLine_ldr (hx : x.printed = true) (d : ℕ) :
    ∃ p, readLine (.op .ldr::.reg d::.comma::(outputAddress x++[.comment,.note])) =
      some [.load .word false d p] ∧ ∀ s, p.address s = x.value s := by
  match x with
  | .reg n => exact ⟨.offset n 0,rfl,fun s => BitVec.add_zero _⟩
  | .label l => exact ⟨.label l 0,rfl,fun s => BitVec.add_zero _⟩
  | .const l k => exact ⟨.label l k,rfl,fun s => rfl⟩
  | .plus (.reg n) (.int k) => exact ⟨.offset n k,rfl,fun s => rfl⟩

/-- The word after a printed address is at a printed address of the same registers. -/
theorem plusConstant_four (hx : x.printed = true) :
    ∃ y, plusConstant x 4 = some y ∧ y.printed = true ∧ y.registers = x.registers ∧
      ∀ s, y.value s = x.value s+4 := by
  match x with
  | .reg n => exact ⟨.plus (.reg n) (.int 4),rfl,rfl,rfl,fun s => rfl⟩
  | .label l => exact ⟨.const l 4,rfl,rfl,rfl,fun s => rfl⟩
  | .const l k =>
    refine ⟨if k+4 = 0 then .label l else .const l (k+4),rfl,?_⟩
    split
    · rename_i hzero
      refine ⟨rfl,rfl,fun s => ?_⟩
      simp only [Address.value,BitVec.add_assoc,hzero]
      exact (BitVec.add_zero _).symm
    · exact ⟨rfl,rfl,fun s => (BitVec.add_assoc ..).symm⟩
  | .plus (.reg n) (.int k) =>
    refine ⟨if k+4 = 0 then .reg n else .plus (.reg n) (.int (k+4)),rfl,?_⟩
    split
    · rename_i hzero
      refine ⟨rfl,rfl,fun s => ?_⟩
      simp only [Address.value,Term.value,BitVec.add_assoc,hzero]
      exact (BitVec.add_zero _).symm
    · exact ⟨rfl,rfl,fun s => (BitVec.add_assoc ..).symm⟩

/-- The line of a load. -/
def loadLine (d : ℕ) (x : Address) : List Token :=
  .op .ldr::.reg d::.comma::(outputAddress x++[.comment,.note])

theorem newline_notMem_loadLine (d : ℕ) (x : Address) : .newline ∉ loadLine d x := by
  simp [loadLine,newline_notMem_outputAddress]

theorem outputAsmInsn_loadLow : outputAsmInsn loadLow [.reg d,.mem x,.mem y] = loadLine d x++[.newline] := by
  simp [outputAsmInsn,loadLow,loadLine,Piece.print,printOperand]

theorem outputAsmInsn_loadHigh :
    outputAsmInsn loadHigh [.reg d,.mem x,.mem y] = loadLine (d+1) y++[.newline] := by
  simp [outputAsmInsn,loadHigh,loadLine,Piece.print,printOperand,printHigh]

/-- Two loads, one after the other. -/
theorem read_loads {a b : ℕ} (hx : x.printed = true) (hy : y.printed = true) :
    ∃ p q, read ((loadLine a x++[.newline])++(loadLine b y++[.newline])) =
        some [.load .word false a p,.load .word false b q] ∧
      (∀ s, p.address s = x.value s) ∧ ∀ s, q.address s = y.value s := by
  obtain ⟨p,hp,hpv⟩ := readLine_ldr hx a
  obtain ⟨q,hq,hqv⟩ := readLine_ldr hy b
  refine ⟨p,q,?_,hpv,hqv⟩
  have hsecond : read (loadLine b y++[.newline]) = some ([.load .word false b q]++[]) :=
    read_line (newline_notMem_loadLine b y) hq read_nil
  rw [List.append_assoc,List.singleton_append]
  exact read_line (newline_notMem_loadLine a x) hp hsecond

/-- A load whose target the second address does not use. -/
theorem run_loads {a b : ℕ} {p q : Place} (hab : a ≠ b)
    (hq : ∀ w, q.address (s.set a w) = q.address s) :
    let s' := run [.load .word false a p,.load .word false b q] s
    s'.reg a = fetch s.mem (p.address s) false .word ∧ s'.reg b = fetch s.mem (q.address s) false .word ∧
      (∀ r, r ≠ a → r ≠ b → s'.reg r = s.reg r) ∧ s'.mem = s.mem := by
  refine ⟨?_,?_,?_,rfl⟩
  · simp [run,Instr.step,set_reg_of_ne _ hab]
  · simp [run,Instr.step,hq]
  · intro r hra hrb
    simp [run,Instr.step,set_reg_of_ne _ hra,set_reg_of_ne _ hrb]

theorem lowFirst_loads {text : List Token} (hx : x.printed = true) (hd : d ∉ x.registers)
    (h : lowFirst d x = some text) : DoubleLoaded text d x s := by
  obtain ⟨y,hy,hyp,hreg,hval⟩ := plusConstant_four hx
  rw [lowFirst,hy,Option.map_some,outputAsmInsn_loadLow,outputAsmInsn_loadHigh] at h
  obtain rfl := Option.some.inj h
  obtain ⟨p,q,hread,hp,hq⟩ := read_loads (a := d) (b := d+1) hx hyp
  have hkeep : ∀ w, q.address (s.set d w) = q.address s := by
    intro w
    rw [hq,hq,Address.value_set (hreg ▸ hd)]
  obtain ⟨hlow,hhigh,hother,hmem⟩ := run_loads (p := p) (Nat.succ_ne_self d).symm hkeep
  refine ⟨_,hread,?_,?_,hother,hmem⟩
  · rw [hlow,hp]
  · rw [hhigh,hq,hval]

theorem highFirst_loads {text : List Token} (hx : x.printed = true) (hd : d+1 ∉ x.registers)
    (h : highFirst d x = some text) : DoubleLoaded text d x s := by
  obtain ⟨y,hy,hyp,-,hval⟩ := plusConstant_four hx
  rw [highFirst,hy,Option.map_some,outputAsmInsn_loadLow,outputAsmInsn_loadHigh] at h
  obtain rfl := Option.some.inj h
  obtain ⟨p,q,hread,hp,hq⟩ := read_loads (a := d+1) (b := d) hyp hx
  have hkeep : ∀ w, q.address (s.set (d+1) w) = q.address s := by
    intro w
    rw [hq,hq,Address.value_set hd]
  obtain ⟨hhigh,hlow,hother,hmem⟩ := run_loads (p := p) (Nat.succ_ne_self d) hkeep
  refine ⟨_,hread,?_,?_,fun r hr hr' => hother r hr' hr,hmem⟩
  · rw [hlow,hq]
  · rw [hhigh,hp,hval]

/-- Every printed address is loaded from, whatever registers it shares with the pair. -/
theorem printed_loads {text : List Token} (hx : x.printed = true)
    (h : thumbLoadDoubleFromAddress d x = some text) (s : State) : DoubleLoaded text d x s := by
  match x with
  | .reg n =>
    rw [thumbLoadDoubleFromAddress] at h
    split at h
    · rename_i hdn
      exact highFirst_loads hx (by simp [Address.registers,hdn]) h
    · rename_i hdn
      exact lowFirst_loads hx (by simpa [Address.registers] using hdn) h
  | .label l => exact highFirst_loads hx (List.not_mem_nil) h
  | .const l k => exact lowFirst_loads hx (List.not_mem_nil) h
  | .plus (.reg n) (.int k) =>
    have hcase : (if d = n then highFirst d (.plus (.reg n) (.int k))
        else lowFirst d (.plus (.reg n) (.int k))) = some text := h
    split at hcase
    · rename_i hdn
      exact highFirst_loads hx (by simp [Address.registers,Term.registers,hdn]) hcase
    · rename_i hdn
      exact lowFirst_loads hx (by simpa [Address.registers,Term.registers] using hdn) hcase

end Doubles

section Misprints

variable {d : ℕ} {x : Address}

/-- Registers that hold one word, and one byte set in memory. -/
def marked (v a : Word) : State :=
  { reg := fun _ => v, mem := fun b => if b = a then 1 else 0, label := fun _ => 0 }

theorem fetch_low (mem : Word → BitVec 8) (a : Word) :
    (fetch mem a false .word).getLsbD 0 = (mem a).getLsbD 0 := by
  have happend := BitVec.getLsbD_append (x := mem (a+3)++mem (a+2)++mem (a+1)) (y := mem a) (i := 0)
  exact happend

theorem fetch_marked {v a b : Word} (h : b ≠ a) :
    fetch (marked v a).mem b false .word ≠ fetch (marked v a).mem a false .word := by
  intro heq
  have hbit := congrArg (fun w : Word => w.getLsbD 0) heq
  simp only [fetch_low] at hbit
  simp [marked,h] at hbit

/-- Loading both words ends with the first one loaded. -/
theorem run_loads_first {a b : ℕ} {p q : Place} (hab : a ≠ b) (s : State) :
    (run [.load .word false a p,.load .word false b q] s).reg a =
      fetch s.mem (p.address s) false .word := by
  simp [run,Instr.step,set_reg_of_ne _ hab]

/-- The loads of a sum of registers stand in the comment of its addition. -/
theorem read_sumText (base offset : ℕ) : read (sumText d base offset) = some [.add (d+1) base offset] := by
  rw [read_unended (by simp [sumText])]
  rfl

theorem sum_fails (base offset : ℕ) :
    ¬DoubleLoaded (sumText d base offset) d (.plus (.reg base) (.reg offset)) (marked 0 0) := by
  rintro ⟨code,hread,hlow,-⟩
  rw [read_sumText] at hread
  obtain rfl := Option.some.inj hread
  have hkept : (run [.add (d+1) base offset] (marked 0 0)).reg d = 0 := by
    simp [run,Instr.step,set_reg_of_ne,marked]
  rw [hkept] at hlow
  have hbit := congrArg (fun w : Word => w.getLsbD 0) hlow
  simp only [fetch_low] at hbit
  simp [marked,Address.value,Term.value] at hbit

theorem outputAddress_plus_reg (a : Term) (n : ℕ) :
    outputAddress (.plus a (.reg n)) = [.opening,a.name,.comma,.reg n,.closing] := rfl

/-- A constant in front of a register is printed as the register of that number, if there is one. -/
theorem constFirst_line {c : Term} (hc : c.constant = true) (a n : ℕ) :
    readLine (loadLine a (.plus c (.reg n))) = none ∨
      ∃ k : Word, c = .int k ∧
        readLine (loadLine a (.plus c (.reg n))) = some [.load .word false a (.index k.toNat n)] := by
  cases c with
  | reg m => cases hc
  | symbol l k => exact .inl rfl
  | int k =>
    by_cases hk : k.toNat < 17
    · refine .inr ⟨k,rfl,?_⟩
      have hname : (Term.int k).name = .reg k.toNat := if_pos hk
      rw [loadLine,outputAddress_plus_reg,hname]
      rfl
    · left
      have hname : (Term.int k).name = .junk := if_neg hk
      rw [loadLine,outputAddress_plus_reg,hname]
      rfl

/-- The first of two such loads reads the wrong place from some state. -/
theorem constFirst_fails {c c' : Term} (hc : c.constant = true) (hc' : c'.constant = true) {a b n : ℕ}
    (hab : a ≠ b) {code : List Instr}
    (h : read ((loadLine a (.plus c (.reg n))++[.newline])++(loadLine b (.plus c' (.reg n))++[.newline])) =
      some code) :
    ∃ s : State, (run code s).reg a ≠ fetch s.mem ((Address.plus c (.reg n)).value s) false .word := by
  have hfirst := newline_notMem_loadLine a (.plus c (.reg n))
  have hsecond := newline_notMem_loadLine b (.plus c' (.reg n))
  rw [List.append_assoc,List.singleton_append] at h
  obtain hnone | ⟨k,rfl,hline⟩ := constFirst_line hc a n
  · rw [read_line_none hfirst hnone] at h
    cases h
  obtain hnone' | ⟨k',rfl,hline'⟩ := constFirst_line hc' b n
  · rw [read,readFrom_line hfirst,read_line_none hsecond hnone'] at h
    simp at h
  have hread := read_line hfirst hline (read_line hsecond hline' read_nil)
  obtain rfl := Option.some.inj (hread.symm.trans h)
  refine ⟨marked (k+1) (k+(k+1)),?_⟩
  have hrun := run_loads_first (p := .index k.toNat n) (q := .index k'.toNat n) hab
    (marked (k+1) (k+(k+1)))
  have hne : k+1+(k+1) ≠ k+(k+1) := by bv_omega
  rw [List.append_nil,List.singleton_append,hrun]
  exact fetch_marked hne

theorem plusConstant_constFirst {c : Term} (hc : c.constant = true) (n : ℕ) :
    ∃ c' : Term, plusConstant (.plus c (.reg n)) 4 = some (.plus c' (.reg n)) ∧ c'.constant = true ∧
      ∀ s, c'.value s = c.value s+4 := by
  cases c with
  | reg m => cases hc
  | int k => exact ⟨.int (k+4),rfl,rfl,fun s => rfl⟩
  | symbol l k => exact ⟨.symbol l (k+4),rfl,rfl,fun s => (BitVec.add_assoc ..).symm⟩

theorem constFirst_not_loaded {c : Term} (hc : c.constant = true) {n : ℕ} {text : List Token}
    (h : thumbLoadDoubleFromAddress d (.plus c (.reg n)) = some text) :
    ¬∀ s, DoubleLoaded text d (.plus c (.reg n)) s := by
  intro hall
  obtain ⟨code,hread,-⟩ := hall (marked 0 0)
  obtain ⟨c',hplus,hc',hval⟩ := plusConstant_constFirst hc n
  have hcase : (if d = n then highFirst d (.plus c (.reg n)) else lowFirst d (.plus c (.reg n))) =
      some text := by
    cases c with
    | reg m => cases hc
    | int k => exact h
    | symbol l k => exact h
  split at hcase
  · rw [highFirst,hplus,Option.map_some,outputAsmInsn_loadLow,outputAsmInsn_loadHigh] at hcase
    obtain rfl := Option.some.inj hcase
    obtain ⟨s,hs⟩ := constFirst_fails hc' hc (Nat.succ_ne_self d) hread
    obtain ⟨code',hread',-,hhigh,-⟩ := hall s
    obtain rfl := Option.some.inj (hread.symm.trans hread')
    apply hs
    rw [hhigh,Address.value,Address.value,hval]
    congr 1
    ac_rfl
  · rw [lowFirst,hplus,Option.map_some,outputAsmInsn_loadLow,outputAsmInsn_loadHigh] at hcase
    obtain rfl := Option.some.inj hcase
    obtain ⟨s,hs⟩ := constFirst_fails hc hc' (Nat.succ_ne_self d).symm hread
    obtain ⟨code',hread',hlow,-⟩ := hall s
    obtain rfl := Option.some.inj (hread.symm.trans hread')
    exact hs hlow

/-- A symbol behind a register is not printed at all. -/
theorem symbol_not_loaded {n l : ℕ} {k : Word} {text : List Token}
    (h : thumbLoadDoubleFromAddress d (.plus (.reg n) (.symbol l k)) = some text) (s : State) :
    ¬DoubleLoaded text d (.plus (.reg n) (.symbol l k)) s := by
  rintro ⟨code,hread,-⟩
  have hline : ∀ a k rest, read ((loadLine a (.plus (.reg n) (.symbol l k))++[.newline])++rest) = none := by
    intro a k rest
    rw [List.append_assoc,List.singleton_append]
    exact read_line_none (newline_notMem_loadLine _ _) rfl
  have hcase : (if d = n then highFirst d (.plus (.reg n) (.symbol l k))
      else lowFirst d (.plus (.reg n) (.symbol l k))) = some text := h
  have hplus : plusConstant (.plus (.reg n) (.symbol l k)) 4 =
      some (.plus (.reg n) (.symbol l (k+4))) := rfl
  split at hcase
  · rw [highFirst,hplus,Option.map_some,outputAsmInsn_loadHigh] at hcase
    obtain rfl := Option.some.inj hcase
    rw [hline] at hread
    cases hread
  · rw [lowFirst,hplus,Option.map_some,outputAsmInsn_loadLow] at hcase
    obtain rfl := Option.some.inj hcase
    rw [hline] at hread
    cases hread

/-- The routine loads the pair in every state exactly for the addresses that are printed. -/
theorem loadDouble_iff {text : List Token} (h : thumbLoadDoubleFromAddress d x = some text) :
    (∀ s, DoubleLoaded text d x s) ↔ x.printed = true := by
  refine ⟨?_,fun hx => printed_loads hx h⟩
  intro hall
  match x with
  | .reg n => rfl
  | .label l => rfl
  | .const l k => rfl
  | .symbol l pool => cases h
  | .postInc n => cases h
  | .plus (.reg n) (.int k) => rfl
  | .plus (.reg b) (.reg i) =>
    obtain rfl := Option.some.inj h
    exact absurd (hall (marked 0 0)) (sum_fails b i)
  | .plus (.reg n) (.symbol l k) => exact absurd (hall (marked 0 0)) (symbol_not_loaded h _)
  | .plus (.int k) (.reg n) => exact absurd hall (constFirst_not_loaded rfl h)
  | .plus (.symbol l k) (.reg n) => exact absurd hall (constFirst_not_loaded rfl h)
  | .plus (.int k) (.int k') => cases h
  | .plus (.int k) (.symbol l' k') => cases h
  | .plus (.symbol l k) (.int k') => cases h
  | .plus (.symbol l k) (.symbol l' k') => cases h

end Misprints

section Moves

variable {s : State} {d r : ℕ}

/-- Two lines of an insn. -/
theorem read_two {first second : List Token} {i j : Instr} (hfirst : .newline ∉ first)
    (hsecond : .newline ∉ second) (hi : readLine first = some [i]) (hj : readLine second = some [j]) :
    read (first++Token.newline::(second++[Token.newline])) = some [i,j] :=
  read_line hfirst hi (read_line hsecond hj read_nil)

/-- An instruction that copies one register. -/
def Copies (i : Instr) (d r : ℕ) : Prop := ∀ s : State, i.step s = s.set d (s.reg r)

theorem pairMove_moves {low high : List Piece} {i j : Instr}
    (hlow : .newline ∉ low.flatMap (Piece.print [.reg d,.reg r]))
    (hhigh : .newline ∉ high.flatMap (Piece.print [.reg d,.reg r]))
    (hi : readLine (low.flatMap (Piece.print [.reg d,.reg r])) = some [i])
    (hj : readLine (high.flatMap (Piece.print [.reg d,.reg r])) = some [j])
    (hcopy : Copies i d r) (hcopy' : Copies j (d+1) (r+1)) (s : State) :
    PairMoved (pairMove low high d r) d r s := by
  have htext : ∀ a b : List Piece, outputAsmInsn (a++.tok .newline::b) [.reg d,.reg r] =
      a.flatMap (Piece.print [.reg d,.reg r])++.newline::(b.flatMap (Piece.print [.reg d,.reg r])++[.newline]) := by
    intro a b
    simp [outputAsmInsn,Piece.print]
  have hne : d ≠ d+1 := (Nat.succ_ne_self d).symm
  rw [pairMove]
  split
  · -- The low half goes first, since the high half overwrites what it reads.
    rename_i hnext
    rw [htext]
    refine ⟨_,read_two hlow hhigh hi hj,?_,?_,?_,?_⟩
    · simp [run,hcopy _,hcopy' _,set_reg_of_ne _ hne]
    · have : r+1 ≠ d := by omega
      simp [run,hcopy _,hcopy' _,set_reg_of_ne _ this]
    · intro q hq hq'
      simp [run,hcopy _,hcopy' _,set_reg_of_ne _ hq,set_reg_of_ne _ hq']
    · simp [run,hcopy _,hcopy' _]
  · rename_i hnext
    rw [htext]
    refine ⟨_,read_two hhigh hlow hj hi,?_,?_,?_,?_⟩
    · simp [run,hcopy _,hcopy' _,set_reg_of_ne _ hnext]
    · simp [run,hcopy _,hcopy' _,set_reg_of_ne _ hne.symm]
    · intro q hq hq'
      simp [run,hcopy _,hcopy' _,set_reg_of_ne _ hq,set_reg_of_ne _ hq']
    · simp [run,hcopy _,hcopy' _]

theorem addPair_moves (d r : ℕ) (s : State) : PairMoved (pairMove addLow addHigh d r) d r s := by
  have hcopy : ∀ a b : ℕ, Copies (.addImm a b 0) a b := by
    intro a b s
    have hzero : s.reg b+0 = s.reg b := BitVec.add_zero _
    rw [Instr.step,hzero]
  exact pairMove_moves (by simp [addLow,Piece.print,printOperand])
    (by simp [addHigh,Piece.print,printHigh]) rfl rfl (hcopy d r) (hcopy (d+1) (r+1)) s

theorem movPair_moves (d r : ℕ) (s : State) : PairMoved (pairMove movLow movHigh d r) d r s :=
  pairMove_moves (by simp [movLow,Piece.print,printOperand]) (by simp [movHigh,Piece.print,printHigh])
    rfl rfl (fun _ => rfl) (fun _ => rfl) s

end Moves

section Extensions

variable {ph : Phase} {d t : ℕ} {x : Address}

/-- Shifting a byte up and down again extends its sign. -/
theorem shift_extends (b : BitVec 8) : (b.zeroExtend 32 <<< 24).sshiftRight 24 = b.signExtend 32 := by
  have hmsb : (b.zeroExtend 32 <<< 24).msb = b.msb := by
    rw [BitVec.msb_eq_getLsbD_last,BitVec.msb_eq_getLsbD_last]
    simp
  ext j hj
  rw [BitVec.getElem_sshiftRight,BitVec.getElem_signExtend,hmsb]
  by_cases h : j < 8
  · have hlow : 24+j < 32 := by omega
    simp [h,hlow]
  · have hhigh : ¬24+j < 32 := by omega
    simp [h,hhigh]

/-- A load through an index, after the index was set to the offset. -/
theorem extended_offset {text : List Token} {w : Width} {n : ℕ} {k : Word} {s : State} (htn : n ≠ t)
    (hread : read text = some [.movImm t k,.load w true d (.index n t)])
    (hvalue : x.value s = s.reg n+k) : Extended text w d [t] x s := by
  refine ⟨_,hread,?_,?_,rfl⟩
  · simp [run,Instr.step,Place.address,set_reg_of_ne _ htn,hvalue]
  · intro r hr hrt
    have hrt : r ≠ t := by simpa using hrt
    simp [run,Instr.step,set_reg_of_ne _ hr,set_reg_of_ne _ hrt]

/-- A load of a byte followed by the shifts. -/
theorem extended_shift {text : List Token} {p : Place} {free : List ℕ} {s : State}
    (hread : read text = some [.load .byte false d p,.lsl d d 24,.asr d d 24])
    (hvalue : p.address s = x.value s) : Extended text .byte d free x s := by
  refine ⟨_,hread,?_,?_,rfl⟩
  · have hshift := shift_extends (s.mem (x.value s))
    simpa [run,Instr.step,fetch,hvalue] using hshift
  · intro r hr hfree
    simp [run,Instr.step,set_reg_of_ne _ hr]

theorem extended_index {text : List Token} {w : Width} {b i : ℕ} {free : List ℕ} (s : State)
    (hread : read text = some [.load w true d (.index b i)]) :
    Extended text w d free (.plus (.reg b) (.reg i)) s := by
  refine ⟨_,hread,?_,?_,rfl⟩
  · simp [run,Instr.step,Place.address,Address.value,Term.value]
  · intro r hr hfree
    simp [run,Instr.step,set_reg_of_ne _ hr]

theorem read_one {line : List Token} {i : Instr} (hline : .newline ∉ line) (hi : readLine line = some [i]) :
    read (line++[.newline]) = some [i] := read_line hline hi read_nil

/-- The lines of the sign-extending loads. -/
def offsetLine (t : ℕ) (k : Word) : List Token := [.op .mov,.reg t,.comma,.imm k]

def indexLine (o : Opcode) (d n t : ℕ) : List Token :=
  [.op o,.reg d,.comma,.opening,.reg n,.comma,.reg t,.closing]

def byteLine (d n : ℕ) (k : Word) : List Token :=
  [.op .ldrb,.reg d,.comma,.opening,.reg n,.comma,.imm k,.closing]

def shiftLine (o : Opcode) (d : ℕ) : List Token := [.op o,.reg d,.comma,.reg d,.comma,.imm 24]

/-- The two lines that load a halfword or a byte through an index. -/
theorem read_offset {o : Opcode} {w : Width} (n : ℕ) (k : Word)
    (ho : o = .ldrsh ∧ w = .half ∨ o = .ldrsb ∧ w = .byte) :
    read (offsetLine t k++Token.newline::(indexLine o d n t++[Token.newline])) =
      some [.movImm t k,.load w true d (.index n t)] := by
  have hline : .newline ∉ indexLine o d n t := by simp [indexLine]
  have hindex : readLine (indexLine o d n t) = some [.load w true d (.index n t)] := by
    obtain ⟨rfl,rfl⟩ | ⟨rfl,rfl⟩ := ho
    · rfl
    · rfl
  exact read_two (by simp [offsetLine]) hline rfl hindex

/-- The halfword comes out of every address of the mode, with a scratch that the address does not use. -/
theorem extendhisi2_extends (hx : legitimate ph 2 x = true) (htx : t ∉ x.registers) (s : State) :
    Extended (extendhisi2Insn d t x) .half d [t] x s := by
  obtain ⟨n,rfl⟩ | ⟨n,k,rfl⟩ | ⟨b,i,rfl⟩ := legitimate_narrow (by decide) hx
  · have htn : n ≠ t := fun e => htx (by simp [Address.registers,e])
    exact extended_offset htn (read_offset n 0 (.inl ⟨rfl,rfl⟩)) (BitVec.add_zero _).symm
  · have htn : n ≠ t := fun e => htx (by simp [Address.registers,Term.registers,e])
    exact extended_offset htn (read_offset n k (.inl ⟨rfl,rfl⟩)) rfl
  · have hread : read (indexLine .ldrsh d b i++[Token.newline]) = some [.load .half true d (.index b i)] :=
      read_one (by simp [indexLine]) rfl
    exact extended_index s hread

/-- The three lines that load a byte and shift it. -/
theorem read_shift (n : ℕ) (k : Word) :
    read (byteLine d n k++Token.newline::
      (shiftLine .lsl d++Token.newline::(shiftLine .asr d++[Token.newline]))) =
      some [.load .byte false d (.offset n k),.lsl d d 24,.asr d d 24] := by
  have hshifts : read (shiftLine .lsl d++Token.newline::(shiftLine .asr d++[Token.newline])) =
      some [.lsl d d 24,.asr d d 24] := read_two (by simp [shiftLine]) (by simp [shiftLine]) rfl rfl
  have hload : readLine (byteLine d n k) = some [.load .byte false d (.offset n k)] := rfl
  exact read_line (by simp [byteLine]) hload hshifts

/-- The byte comes out of every address of the mode, with no register to spare. -/
theorem extendqisi2_extends (hx : legitimate ph 1 x = true) (s : State) :
    Extended (extendqisi2Insn ph d x) .byte d [d] x s := by
  have hoff : ¬offsettable ph 1 x = false := by simp [offsettable_byte hx]
  unfold extendqisi2Insn
  rw [if_neg hoff]
  obtain ⟨n,rfl⟩ | ⟨n,k,rfl⟩ | ⟨b,i,rfl⟩ := legitimate_narrow (by decide) hx
  · by_cases hn : n = d
    · have htext : (Address.reg n).operand = .reg d := by rw [Address.operand,hn]
      simp only [if_pos htext]
      rw [hn]
      exact extended_shift (read_shift d 0) (BitVec.add_zero _)
    · have htext : (Address.reg n).operand ≠ .reg d := by simpa [Address.operand] using hn
      simp only [if_neg htext]
      exact extended_offset hn (read_offset n 0 (.inr ⟨rfl,rfl⟩)) (BitVec.add_zero _).symm
  · by_cases hn : n = d
    · simp only [if_pos hn]
      exact extended_shift (read_shift n k) rfl
    · simp only [if_neg hn]
      exact extended_offset hn (read_offset n k (.inr ⟨rfl,rfl⟩)) rfl
  · have hread : read (indexLine .ldrsb d b i++[Token.newline]) = some [.load .byte true d (.index b i)] :=
      read_one (by simp [indexLine]) rfl
    exact extended_index s hread

end Extensions

section Results

/-- Whatever registers overlap: the double-word load leaves the two words in the pair exactly for the
addresses that are printed as they are, pair moves copy the pair, and the sign-extending loads extend
what was addressed. -/
theorem overlapping_loads (ph : Phase) (d r t : ℕ) (x : Address) :
    (∀ text, thumbLoadDoubleFromAddress d x = some text →
      ((∀ s, DoubleLoaded text d x s) ↔ x.printed = true)) ∧
      (∀ s, PairMoved (movdiLow d r) d r s ∧ PairMoved (movdiAny d r) d r s ∧
        PairMoved (movdfLow d r) d r s ∧ PairMoved (movdfAny d r) d r s) ∧
      (∀ s, legitimate ph 2 x = true → t ∉ x.registers →
        Extended (extendhisi2Insn d t x) .half d [t] x s) ∧
      ∀ s, legitimate ph 1 x = true → Extended (extendqisi2Insn ph d x) .byte d [d] x s := by
  refine ⟨?_,?_,?_,?_⟩
  · intro text h
    exact loadDouble_iff h
  · intro s
    exact ⟨addPair_moves d r s,movPair_moves d r s,addPair_moves d r s,movPair_moves d r s⟩
  · intro s hx ht
    exact extendhisi2_extends hx ht s
  · intro s hx
    exact extendqisi2_extends hx s

/-- The state after reload in which output happens. -/
def output : Phase where
  strict := true
  reloadInProgress := false
  reloadCompleted := true
  renumber := fun n => if n < firstPseudo then n else -1
  hard := fun _ h => .inr (if_pos h)

/-- A base that is also the destination. -/
theorem overlapping_loads_base :
    (∀ s, DoubleLoaded (loadLine 2 (.plus (.reg 1) (.int 8))++.newline::
      (loadLine 1 (.plus (.reg 1) (.int 4))++[.newline])) 1 (.plus (.reg 1) (.int 4)) s) ∧
      (∀ s, Extended (extendhisi2Insn 1 3 (.plus (.reg 1) (.int 2))) .half 1 [3] (.plus (.reg 1) (.int 2)) s) ∧
      ∀ s, Extended (extendqisi2Insn output 1 (.plus (.reg 1) (.int 2))) .byte 1 [1]
        (.plus (.reg 1) (.int 2)) s := by
  refine ⟨?_,?_,?_⟩
  · exact ((overlapping_loads output 1 0 0 (.plus (.reg 1) (.int 4))).1 _ rfl).mpr rfl
  · intro s
    exact (overlapping_loads output 1 0 3 _).2.2.1 s (by decide) (by decide)
  · intro s
    exact (overlapping_loads output 1 0 0 _).2.2.2 s (by decide)

/-- The sum of two registers, whose loads stand in a comment. -/
theorem sum_in_comment :
    thumbLoadDoubleFromAddress 0 (.plus (.reg 2) (.reg 3)) = some (sumText 0 2 3) ∧
      read (sumText 0 2 3) = some [.add 1 2 3] ∧
      ¬DoubleLoaded (sumText 0 2 3) 0 (.plus (.reg 2) (.reg 3)) (marked 0 0) :=
  ⟨rfl,read_sumText 2 3,sum_fails 2 3⟩

end Results

end Loads
end Thumb
end AgbTools
