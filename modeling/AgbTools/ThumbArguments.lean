import AgbTools.ThumbElimination

/-! How a call passes its arguments, as the caller decides it and as the function called decides it
again, and the arguments without a name that `va_arg` walks. -/
namespace AgbTools
namespace Thumb
namespace Arguments

section Words

/-- The words of a list, written from a place on. -/
def put (f : ℕ → Word) (k : ℕ) (ws : List Word) : ℕ → Word :=
  fun i => if k ≤ i then ws[i-k]?.getD (f i) else f i

def read (f : ℕ → Word) (k n : ℕ) : List Word := (List.range n).map fun i => f (k+i)

variable {f g : ℕ → Word} {k n i : ℕ} {ws us vs : List Word}

theorem put_below (h : i < k) : put f k ws i = f i := if_neg (by omega)

theorem put_above (h : k+ws.length ≤ i) : put f k ws i = f i := by
  simp [put,List.getElem?_eq_none (show ws.length ≤ i-k by omega)]

theorem read_congr (h : ∀ i, k ≤ i → i < k+n → f i = g i) : read f k n = read g k n := by
  refine List.map_congr_left fun i hi => h _ (by omega) ?_
  have := List.mem_range.mp hi
  omega

theorem read_put (h : ws.length = n) : read (put f k ws) k n = ws := by
  refine List.ext_getElem (by simp [read,h]) fun i hi hi' => ?_
  simp [read,put,hi']

theorem put_append : put (put f k us) (k+us.length) vs = put f k (us++vs) := by
  funext i
  rcases Nat.lt_or_ge i k with hk | hk
  · rw [put_below (by omega),put_below hk,put_below hk]
  · rcases Nat.lt_or_ge i (k+us.length) with hu | hu
    · rw [put_below hu]
      simp [put,hk,List.getElem?_append_left (show i-k < us.length by omega)]
    · have hsub : i-(k+us.length) = i-k-us.length := by omega
      simp [put,hk,hu,hsub,List.getElem?_append_right (show us.length ≤ i-k by omega),
        List.getElem?_eq_none (show us.length ≤ i-k by omega)]

/-- Reading a place that holds what another one holds. -/
theorem read_shift {j : ℕ} (h : ∀ i, f (j+i) = g (k+i)) : read f j n = read g k n :=
  List.map_congr_left fun i _ => h i

end Words

/-- What the macros read of the type of an argument: whether its mode is `BLKmode`, and its size in
bytes. -/
structure ArgType where
  blk : Bool
  size : ℕ
deriving DecidableEq, Repr

/-- An argument, as the words that its bytes fill. -/
structure Arg extends ArgType where
  words : List Word
  words_length : words.length = (size+3)/4

section Macros

variable (cum : ℕ) (t : ArgType)

/-- `HARD_REGNO_NREGS` for `r0`. -/
def hardRegnoNregs : ℕ := (t.size+3)/4

def initCumulativeArgs (aggregate : Bool) : ℕ := if aggregate then 4 else 0

def functionArg (named : Bool) : Option ℕ :=
  if named then (if cum ≥ 16 then none else some (cum/4)) else none

def functionArgPartialNregs : ℕ :=
  if cum < 16 ∧ cum+(if t.blk then t.size else hardRegnoNregs t*4) > 16 then 4-cum/4 else 0

def functionArgAdvance : ℕ := cum+(t.size+3)/4*4

def setupIncomingVarargs (pretendSize : ℕ) : ℕ := if cum < 16 then 16-cum else pretendSize

/-- The size that `locate_and_pad_parm` gives to a place on the stack: arguments are padded upwards,
and every boundary is a word. -/
def locateAndPadParm : ℕ := (t.size+3)/4*4

end Macros

section Caller

/-- What `expand_call` has used so far, in bytes, of the argument registers and of the argument
block, and what both hold. -/
structure Call where
  argsSoFar : ℕ
  argsSize : ℕ
  regs : ℕ → Word
  block : ℕ → Word

/-- The loop of `expand_call` over one argument, and the moves to the place it decides on. Every
argument counts as named. -/
def Call.pass (c : Call) (a : Arg) : Call :=
  let reg := functionArg c.argsSoFar true
  let inRegs := if reg.isSome then functionArgPartialNregs c.argsSoFar a.toArgType else 0
  let onStack := reg.isNone || inRegs != 0
  let size := (if onStack then locateAndPadParm a.toArgType else 0)-inRegs*4
  { argsSoFar := functionArgAdvance c.argsSoFar a.toArgType
    argsSize := c.argsSize+size
    regs := match reg with
      | some r => put c.regs r (if inRegs = 0 then a.words else a.words.take inRegs)
      | none => c.regs
    block := if onStack then put c.block (c.argsSize/4) (a.words.drop inRegs) else c.block }

/-- A call of a function that returns its value in memory keeps `r0` for the address. -/
def Call.start (aggregate : Bool) (regs block : ℕ → Word) : Call :=
  ⟨initCumulativeArgs aggregate,0,regs,block⟩

/-- The argument registers, by number. -/
def argReg (s : Machine) (r : ℕ) : Word := s.reg (Fin.ofNat 16 r)

/-- The machine at the call: its argument registers, and its stack from the stack pointer up, are as
the caller has filled them. -/
structure Call.Reached (c : Call) (s : Machine) : Prop where
  fits : c.argsSize+16 < 2^32
  regs : ∀ r < 4, argReg s r = c.regs r
  block : ∀ i < c.argsSize/4, s.mem (up (s.reg sp) i) = c.block i

end Caller

section Callee

/-- Where a parameter is on entry: in registers, or at an offset from the argument pointer. -/
inductive Entry
  | reg (r : ℕ)
  | stack (offset : ℕ)
deriving DecidableEq, Repr

/-- A block that `move_block_from_reg` stores below the stack arguments. -/
structure Save where
  regno : ℕ
  offset : ℕ
  nregs : ℕ
deriving DecidableEq, Repr

structure Parms where
  argsSoFar : ℕ
  stackArgsSize : ℕ
  pretendArgsSize : ℕ
  anonymousArgs : Bool
  entries : List (ArgType × Entry)
  saves : List Save
deriving DecidableEq, Repr

/-- The loop of `assign_parms` over one parameter. The last one before anonymous arguments counts as
anonymous itself. -/
def Parms.assign (p : Parms) (lastNamed : Bool) (t : ArgType) : Parms :=
  let reg := functionArg p.argsSoFar (!lastNamed)
  let pretend :=
    if lastNamed then setupIncomingVarargs p.argsSoFar p.pretendArgsSize else p.pretendArgsSize
  let inRegs := if reg.isSome then functionArgPartialNregs p.argsSoFar t else 0
  let entry := match reg with
    | some r => if inRegs = 0 then .reg r else .stack p.stackArgsSize
    | none => .stack p.stackArgsSize
  { argsSoFar := functionArgAdvance p.argsSoFar t
    stackArgsSize := match entry with
      | .reg _ => p.stackArgsSize
      | .stack _ => p.stackArgsSize+locateAndPadParm t
    pretendArgsSize := if inRegs = 0 then pretend else (inRegs*4+3)/4*4
    anonymousArgs := p.anonymousArgs || lastNamed
    entries := p.entries++[(t,entry)]
    saves := match reg with
      | some r => if inRegs = 0 then p.saves else p.saves++[⟨r,p.stackArgsSize,inRegs⟩]
      | none => p.saves }

def Parms.start (aggregate : Bool) : Parms := ⟨initCumulativeArgs aggregate,0,0,false,[],[]⟩

/-- `assign_parms` over the parameters of a function, `stdarg` if its type ends in an ellipsis. -/
def assignParms (stdarg : Bool) (p : Parms) : List ArgType → Parms
  | [] => p
  | t::ts => assignParms stdarg (p.assign (stdarg && ts.isEmpty) t) ts

/-- The words from the argument pointer up, after the blocks that came in registers are stored. -/
def Parms.stored (p : Parms) (regs frame : ℕ → Word) : ℕ → Word :=
  p.saves.foldl (fun g s => put g (s.offset/4) (read regs s.regno s.nregs)) frame

/-- The frame that the prologue makes for these parameters. -/
structure Parms.Frames (p : Parms) (f : Frame) : Prop where
  pretend : 4*(f.pretend : ℕ) = p.pretendArgsSize
  anonymous : f.anonymousArgs = p.anonymousArgs

def Entry.read (regs frame : ℕ → Word) (t : ArgType) : Entry → List Word
  | .reg r => Arguments.read regs r (hardRegnoNregs t)
  | .stack offset => Arguments.read frame (offset/4) (hardRegnoNregs t)

/-- `__va_rounded_size`. -/
def vaRoundedSize (t : ArgType) : ℕ := (t.size+4-1)/4*4

/-- `va_arg`, for one type after another. -/
def vaArgs (frame : ℕ → Word) : ℕ → List ArgType → List (List Word)
  | _, [] => []
  | ap, t::ts => Arguments.read frame (ap/4) (hardRegnoNregs t)::vaArgs frame (ap+vaRoundedSize t) ts

end Callee

section Passing

/-- The words that a call passes: those of the four registers and, after them, of the block. -/
def joined (regs block : ℕ → Word) (i : ℕ) : Word := if i < 4 then regs i else block (i-4)

variable {regs block f : ℕ → Word} {k : ℕ} {ws : List Word}

theorem joined_put_regs (h : k+ws.length ≤ 4) :
    joined (put regs k ws) block = put (joined regs block) k ws := by
  funext i
  rcases Nat.lt_or_ge i 4 with hi | hi
  · simp [joined,put,hi]
  · rw [put_above (by omega)]
    simp [joined,show ¬i < 4 by omega]

theorem joined_put_block : joined regs (put block k ws) = put (joined regs block) (k+4) ws := by
  funext i
  rcases Nat.lt_or_ge i 4 with hi | hi
  · rw [put_below (by omega)]
    simp [joined,hi]
  · have hsub : i-4-k = i-(k+4) := by omega
    simp [joined,put,show ¬i < 4 by omega,hsub,Nat.le_sub_iff_add_le hi]

/-- An argument is split exactly if it starts in a register and goes beyond the last one. -/
theorem partialNregs_eq {cum : ℕ} {t : ArgType} (hd : cum%4 = 0) : functionArgPartialNregs cum t =
    if cum < 16 ∧ 4 < cum/4+(t.size+3)/4 then 4-cum/4 else 0 := by
  unfold functionArgPartialNregs hardRegnoNregs
  refine if_congr ?_ rfl rfl
  split <;> omega

/-- Registers are used before the stack. -/
structure Call.Packed (c : Call) : Prop where
  dvd : c.argsSoFar%4 = 0
  size : c.argsSize = c.argsSoFar-16

variable {c : Call} {a : Arg}

theorem packed_start (aggregate : Bool) (regs block : ℕ → Word) :
    (Call.start aggregate regs block).Packed := by
  cases aggregate <;> constructor <;> simp [Call.start,initCumulativeArgs]

theorem pass_inRegs (hd : c.argsSoFar%4 = 0) (hc : c.argsSoFar < 16)
    (hl : c.argsSoFar/4+(a.size+3)/4 ≤ 4) :
    c.pass a =
      ⟨c.argsSoFar+(a.size+3)/4*4,c.argsSize,put c.regs (c.argsSoFar/4) a.words,c.block⟩ := by
  have hreg : functionArg c.argsSoFar true = some (c.argsSoFar/4) := by
    simp [functionArg,show ¬16 ≤ c.argsSoFar by omega]
  have hnone : functionArgPartialNregs c.argsSoFar a.toArgType = 0 := by
    rw [partialNregs_eq hd,if_neg (by omega)]
  simp [Call.pass,hreg,hnone,functionArgAdvance]

theorem pass_split (hd : c.argsSoFar%4 = 0) (hc : c.argsSoFar < 16)
    (hl : 4 < c.argsSoFar/4+(a.size+3)/4) :
    c.pass a = ⟨c.argsSoFar+(a.size+3)/4*4,
      c.argsSize+((a.size+3)/4*4-(4-c.argsSoFar/4)*4),
      put c.regs (c.argsSoFar/4) (a.words.take (4-c.argsSoFar/4)),
      put c.block (c.argsSize/4) (a.words.drop (4-c.argsSoFar/4))⟩ := by
  have hreg : functionArg c.argsSoFar true = some (c.argsSoFar/4) := by
    simp [functionArg,show ¬16 ≤ c.argsSoFar by omega]
  have hsome : functionArgPartialNregs c.argsSoFar a.toArgType = 4-c.argsSoFar/4 := by
    rw [partialNregs_eq hd,if_pos ⟨hc,hl⟩]
  have hne : 4-c.argsSoFar/4 ≠ 0 := by omega
  simp [Call.pass,hreg,hsome,hne,functionArgAdvance,locateAndPadParm]

theorem pass_onStack (hc : 16 ≤ c.argsSoFar) : c.pass a = ⟨c.argsSoFar+(a.size+3)/4*4,
    c.argsSize+(a.size+3)/4*4,c.regs,put c.block (c.argsSize/4) a.words⟩ := by
  simp [Call.pass,functionArg,hc,functionArgAdvance,locateAndPadParm]

/-- An argument takes the next words of the call, wherever they lie. -/
theorem Call.Packed.pass (h : c.Packed) : (c.pass a).Packed ∧
    (c.pass a).argsSoFar/4 = c.argsSoFar/4+a.words.length ∧
    joined (c.pass a).regs (c.pass a).block =
      put (joined c.regs c.block) (c.argsSoFar/4) a.words := by
  have hd := h.dvd
  have hs := h.size
  have hn := a.words_length
  rcases Nat.lt_or_ge c.argsSoFar 16 with hc | hc
  · rcases Nat.lt_or_ge 4 (c.argsSoFar/4+(a.size+3)/4) with hl | hl
    · rw [pass_split hd hc hl]
      have hlen : (a.words.take (4-c.argsSoFar/4)).length = 4-c.argsSoFar/4 := by
        rw [List.length_take]
        omega
      refine ⟨⟨by simp only; omega,by simp only; omega⟩,by simp only; omega,?_⟩
      rw [joined_put_block,joined_put_regs (by omega)]
      -- the part on the stack follows the part in registers
      have hcut : c.argsSize/4+4 =
          c.argsSoFar/4+(a.words.take (4-c.argsSoFar/4)).length := by omega
      rw [hcut,put_append,List.take_append_drop]
    · rw [pass_inRegs hd hc hl]
      refine ⟨⟨by simp only; omega,by simp only; omega⟩,by simp only; omega,?_⟩
      exact joined_put_regs (by omega)
  · rw [pass_onStack hc]
    refine ⟨⟨by simp only; omega,by simp only; omega⟩,by simp only; omega,?_⟩
    have hcut : c.argsSize/4+4 = c.argsSoFar/4 := by omega
    rw [joined_put_block,hcut]

/-- Words that hold the arguments one after another. -/
def Carries (f : ℕ → Word) : ℕ → List Arg → Prop
  | _, [] => True
  | k, a::as => read f k a.words.length = a.words ∧ Carries f (k+a.words.length) as

theorem passed (h : c.Packed) (args : List Arg) :
    let d := args.foldl Call.pass c
    d.Packed ∧ c.argsSoFar/4 ≤ d.argsSoFar/4 ∧
      (∀ i < c.argsSoFar/4, joined d.regs d.block i = joined c.regs c.block i) ∧
      ∀ f : ℕ → Word, (∀ i < d.argsSoFar/4, f i = joined d.regs d.block i) →
        Carries f (c.argsSoFar/4) args := by
  induction args generalizing c with
  | nil => exact ⟨h,le_rfl,fun _ _ => rfl,fun _ _ => trivial⟩
  | cons a args ih =>
    obtain ⟨hp,hcum,hw⟩ := @Call.Packed.pass _ a h
    obtain ⟨hd,hle,hkeep,hcarry⟩ := ih hp
    rw [hcum] at hle hkeep hcarry
    simp only [List.foldl_cons]
    refine ⟨hd,by omega,fun i hi => ?_,fun f hf => ⟨?_,hcarry f hf⟩⟩
    · rw [hkeep i (by omega),hw,put_below hi]
    · rw [read_congr fun i _ hi => (hf i (by omega)).trans (hkeep i hi),hw]
      exact read_put rfl

end Passing

section Receiving

variable {regs f : ℕ → Word} {p : Parms} {done : List Arg} {a : Arg}

/-- What the words of the call hold for an entry, if `pretend` bytes of registers lie below the
stack arguments. -/
def Entry.value (f : ℕ → Word) (pretend : ℕ) (t : ArgType) : Entry → List Word
  | .reg r => Arguments.read f r ((t.size+3)/4)
  | .stack offset => Arguments.read f (4-pretend/4+offset/4) ((t.size+3)/4)

/-- The parameters so far are where the call has put the arguments `done`. Once one of them is on the
stack, so are all the words that follow. -/
structure Parms.Agrees (f : ℕ → Word) (p : Parms) (done : List Arg) : Prop where
  dvd : p.argsSoFar%4 = 0
  pretend : p.pretendArgsSize%4 = 0 ∧ p.pretendArgsSize ≤ 16
  early : p.argsSoFar < 16 → p.anonymousArgs = false → p.stackArgsSize = 0 ∧
    p.pretendArgsSize = 0 ∧ ∀ e ∈ p.entries, ∃ r, e.2 = .reg r
  late : 16 ≤ p.argsSoFar ∨ p.anonymousArgs = true →
    p.argsSoFar+p.pretendArgsSize = 16+p.stackArgsSize
  saved : p.saves = [] ∧ (p.pretendArgsSize = 0 ∨ p.anonymousArgs = true) ∨
    p.pretendArgsSize ≠ 0 ∧ p.saves = [⟨4-p.pretendArgsSize/4,0,p.pretendArgsSize/4⟩]
  inRegs : ∀ e ∈ p.entries, ∀ r, e.2 = .reg r → r+(e.1.size+3)/4 ≤ 4
  values : p.entries.map (fun e => e.2.value f p.pretendArgsSize e.1) = done.map Arg.words

theorem agrees_start (aggregate : Bool) : (Parms.start aggregate).Agrees f [] := by
  cases aggregate <;> constructor <;> simp [Parms.start,initCumulativeArgs]

/-- What lies in registers does not depend on how much is pushed. -/
theorem value_kept {es : List (ArgType × Entry)} {m n : ℕ}
    (h : m = n ∨ ∀ e ∈ es, ∃ r, e.2 = .reg r) :
    es.map (fun e => e.2.value f m e.1) = es.map (fun e => e.2.value f n e.1) := by
  rcases h with rfl | h
  · rfl
  · refine List.map_congr_left fun e he => ?_
    obtain ⟨r,hr⟩ := h e he
    rw [hr]
    rfl

theorem Parms.Agrees.unsaved (h : p.Agrees f done) (hpretend : p.pretendArgsSize = 0) :
    p.saves = [] := by
  rcases h.saved with ⟨hs,-⟩ | ⟨hne,-⟩
  · exact hs
  · exact absurd hpretend hne

/-- A parameter that is on the stack, with `q` bytes of registers below the stack arguments. -/
theorem Parms.Agrees.onStack (h : p.Agrees f done) {q : ℕ} {b : Bool} {saves : List Save}
    (hq : p.argsSoFar+q = 16+p.stackArgsSize) (hd : q%4 = 0) (hle : q ≤ 16)
    (hkeep : q = p.pretendArgsSize ∨ ∀ e ∈ p.entries, ∃ r, e.2 = .reg r)
    (hb : b = true ∨ 16 ≤ p.argsSoFar+(a.size+3)/4*4)
    (hs : saves = [] ∧ (q = 0 ∨ b = true) ∨ q ≠ 0 ∧ saves = [⟨4-q/4,0,q/4⟩])
    (hread : read f (p.argsSoFar/4) a.words.length = a.words) :
    Parms.Agrees f ⟨p.argsSoFar+(a.size+3)/4*4,p.stackArgsSize+(a.size+3)/4*4,q,b,
      p.entries++[(a.toArgType,.stack p.stackArgsSize)],saves⟩ (done++[a]) where
  dvd := by
    have := h.dvd
    simp only
    omega
  pretend := ⟨hd,hle⟩
  early hc hb' := by
    rcases hb with hb | hb
    · exact absurd (hb.symm.trans hb') (by decide)
    · exact absurd hc (by simpa using hb)
  late _ := by
    simp only
    omega
  saved := hs
  inRegs e he r hr := by
    rcases List.mem_append.mp he with he | he
    · exact h.inRegs e he r hr
    · rw [List.mem_singleton.mp he] at hr
      cases hr
  values := by
    have := h.dvd
    rw [List.map_append,List.map_append,value_kept hkeep,h.values]
    congr 1
    simp only [List.map_cons,List.map_nil,Entry.value]
    rw [← a.words_length,show 4-q/4+p.stackArgsSize/4 = p.argsSoFar/4 by omega,hread]

/-- A parameter that its registers hold. -/
theorem Parms.Agrees.inRegister (h : p.Agrees f done) (hp : p.anonymousArgs = false)
    (hc : p.argsSoFar < 16) (hl : p.argsSoFar/4+(a.size+3)/4 ≤ 4)
    (hread : read f (p.argsSoFar/4) a.words.length = a.words) :
    Parms.Agrees f ⟨p.argsSoFar+(a.size+3)/4*4,p.stackArgsSize,p.pretendArgsSize,false,
      p.entries++[(a.toArgType,.reg (p.argsSoFar/4))],p.saves⟩ (done++[a]) where
  dvd := by
    have := h.dvd
    simp only
    omega
  pretend := h.pretend
  early _ _ := by
    obtain ⟨hstack,hpretend,hregs⟩ := h.early hc hp
    refine ⟨hstack,hpretend,fun e he => ?_⟩
    rcases List.mem_append.mp he with he | he
    · exact hregs e he
    · rw [List.mem_singleton.mp he]
      exact ⟨_,rfl⟩
  late hor := by
    have hd := h.dvd
    obtain ⟨hstack,hpretend,-⟩ := h.early hc hp
    simp only [Bool.false_eq_true,or_false] at hor
    simp only
    omega
  saved := h.saved.imp_left fun hs => ⟨hs.1,Or.inl (h.early hc hp).2.1⟩
  inRegs e he r hr := by
    rcases List.mem_append.mp he with he | he
    · exact h.inRegs e he r hr
    · rw [List.mem_singleton.mp he] at hr ⊢
      cases hr
      exact hl
  values := by
    rw [List.map_append,List.map_append,h.values]
    congr 1
    simp only [List.map_cons,List.map_nil,Entry.value]
    rw [← a.words_length,hread]

/-- The last parameter with a name lies on the stack, and the registers left are pushed below it. -/
theorem Parms.Agrees.lastNamed (h : p.Agrees f done) (hp : p.anonymousArgs = false)
    (hread : read f (p.argsSoFar/4) a.words.length = a.words) :
    (p.assign true a.toArgType).Agrees f (done++[a]) := by
  have hd := h.dvd
  have heq : p.assign true a.toArgType = ⟨p.argsSoFar+(a.size+3)/4*4,
      p.stackArgsSize+(a.size+3)/4*4,setupIncomingVarargs p.argsSoFar p.pretendArgsSize,true,
      p.entries++[(a.toArgType,.stack p.stackArgsSize)],p.saves⟩ := by
    simp [Parms.assign,functionArg,functionArgAdvance,locateAndPadParm]
  rw [heq]
  rcases Nat.lt_or_ge p.argsSoFar 16 with hc | hc
  · obtain ⟨hstack,hpretend,hregs⟩ := h.early hc hp
    have hset : setupIncomingVarargs p.argsSoFar p.pretendArgsSize = 16-p.argsSoFar := if_pos hc
    rw [hset]
    exact h.onStack (by omega) (by omega) (by omega) (Or.inr hregs) (Or.inl rfl)
      (Or.inl ⟨h.unsaved hpretend,Or.inr rfl⟩) hread
  · have hset : setupIncomingVarargs p.argsSoFar p.pretendArgsSize = p.pretendArgsSize :=
      if_neg (by omega)
    rw [hset]
    exact h.onStack (h.late (Or.inl hc)) h.pretend.1 h.pretend.2 (Or.inl rfl) (Or.inl rfl)
      (h.saved.imp_left fun hs => ⟨hs.1,Or.inr rfl⟩) hread

theorem Parms.Agrees.assign (h : p.Agrees f done) (hp : p.anonymousArgs = false) (lastNamed : Bool)
    (hread : read f (p.argsSoFar/4) a.words.length = a.words) :
    (p.assign lastNamed a.toArgType).Agrees f (done++[a]) := by
  cases lastNamed with
  | true => exact h.lastNamed hp hread
  | false =>
    have hd := h.dvd
    rcases Nat.lt_or_ge p.argsSoFar 16 with hc | hc
    · obtain ⟨hstack,hpretend,hregs⟩ := h.early hc hp
      have hreg : functionArg p.argsSoFar true = some (p.argsSoFar/4) := by
        simp [functionArg,show ¬16 ≤ p.argsSoFar by omega]
      rcases Nat.lt_or_ge 4 (p.argsSoFar/4+(a.size+3)/4) with hl | hl
      · -- split: the registers are stored below the stack arguments
        have hsome : functionArgPartialNregs p.argsSoFar a.toArgType = 4-p.argsSoFar/4 := by
          rw [partialNregs_eq hd,if_pos ⟨hc,hl⟩]
        have hne : 4-p.argsSoFar/4 ≠ 0 := by omega
        have hround : ((4-p.argsSoFar/4)*4+3)/4*4 = 16-p.argsSoFar := by omega
        have heq : p.assign false a.toArgType = ⟨p.argsSoFar+(a.size+3)/4*4,
            p.stackArgsSize+(a.size+3)/4*4,16-p.argsSoFar,false,
            p.entries++[(a.toArgType,.stack p.stackArgsSize)],
            [⟨p.argsSoFar/4,p.stackArgsSize,4-p.argsSoFar/4⟩]⟩ := by
          simp [Parms.assign,hreg,hsome,hne,hround,h.unsaved hpretend,hp,functionArgAdvance,
            locateAndPadParm]
        rw [heq]
        refine h.onStack (by omega) (by omega) (by omega) (Or.inr hregs) (Or.inr (by omega))
          (Or.inr ⟨by omega,?_⟩) hread
        rw [hstack,show 4-(16-p.argsSoFar)/4 = p.argsSoFar/4 by omega,
          show (16-p.argsSoFar)/4 = 4-p.argsSoFar/4 by omega]
      · have hnone : functionArgPartialNregs p.argsSoFar a.toArgType = 0 := by
          rw [partialNregs_eq hd,if_neg (by omega)]
        have heq : p.assign false a.toArgType = ⟨p.argsSoFar+(a.size+3)/4*4,p.stackArgsSize,
            p.pretendArgsSize,false,p.entries++[(a.toArgType,.reg (p.argsSoFar/4))],p.saves⟩ := by
          simp [Parms.assign,hreg,hnone,hp,functionArgAdvance]
        rw [heq]
        exact h.inRegister hp hc hl hread
    · have heq : p.assign false a.toArgType = ⟨p.argsSoFar+(a.size+3)/4*4,
          p.stackArgsSize+(a.size+3)/4*4,p.pretendArgsSize,false,
          p.entries++[(a.toArgType,.stack p.stackArgsSize)],p.saves⟩ := by
        simp [Parms.assign,functionArg,hc,hp,functionArgAdvance,locateAndPadParm]
      rw [heq]
      refine h.onStack (h.late (Or.inl hc)) h.pretend.1 h.pretend.2 (Or.inl rfl)
        (Or.inr (by omega)) ?_ hread
      exact h.saved.imp_left fun hs =>
        ⟨hs.1,hs.2.imp_right fun hb => absurd (hp.symm.trans hb) (by decide)⟩

/-- The words from the argument pointer up are those of the call, from the first one that was
pushed. -/
theorem Parms.Agrees.stored {g : ℕ → Word} (h : p.Agrees f done)
    (hg : p.anonymousArgs = true → ∀ i < p.pretendArgsSize/4, g i = regs (4-p.pretendArgsSize/4+i))
    (i : ℕ) : p.stored regs g i =
      joined regs (fun j => g (j+p.pretendArgsSize/4)) (4-p.pretendArgsSize/4+i) := by
  have hle := h.pretend.2
  have hhigh : ∀ i, p.pretendArgsSize/4 ≤ i →
      g i = joined regs (fun j => g (j+p.pretendArgsSize/4)) (4-p.pretendArgsSize/4+i) := by
    intro i hi
    rw [joined,if_neg (by omega)]
    congr 1
    omega
  have hlow : ∀ i < p.pretendArgsSize/4, regs (4-p.pretendArgsSize/4+i) =
      joined regs (fun j => g (j+p.pretendArgsSize/4)) (4-p.pretendArgsSize/4+i) := by
    intro i hi
    rw [joined,if_pos (by omega)]
  rcases h.saved with ⟨hs,hpretend⟩ | ⟨-,hs⟩
  · rw [Parms.stored,hs,List.foldl_nil]
    rcases Nat.lt_or_ge i (p.pretendArgsSize/4) with hi | hi
    · rcases hpretend with hpretend | hpretend
      · omega
      · rw [hg hpretend i hi,hlow i hi]
    · exact hhigh i hi
  · rw [Parms.stored,hs,List.foldl_cons,List.foldl_nil]
    rcases Nat.lt_or_ge i (p.pretendArgsSize/4) with hi | hi
    · rw [← hlow i hi]
      simp [put,Arguments.read,hi]
    · rw [put_above (by simpa [Arguments.read] using hi),hhigh i hi]

/-- A parameter is read from its place as the call has passed it. -/
theorem Parms.Agrees.read {g : ℕ → Word}
    (h : p.Agrees (joined regs fun j => g (j+p.pretendArgsSize/4)) done)
    (hg : p.anonymousArgs = true →
      ∀ i < p.pretendArgsSize/4, g i = regs (4-p.pretendArgsSize/4+i)) :
    p.entries.map (fun e => e.2.read regs (p.stored regs g) e.1) = done.map Arg.words := by
  rw [← h.values]
  refine List.map_congr_left fun e he => ?_
  have hin := h.inRegs e he
  obtain ⟨t,e⟩ := e
  cases e with
  | reg r =>
    refine read_congr fun i _ hi => ?_
    rw [joined,if_pos (Nat.lt_of_lt_of_le hi (hin r rfl))]
  | stack offset =>
    refine read_shift fun i => ?_
    rw [h.stored hg]
    congr 1
    omega

/-- `va_arg` yields the anonymous arguments. -/
theorem vaArgs_carries {g : ℕ → Word} {d : ℕ} (hg : ∀ i, g i = f (d+i)) {args : List Arg}
    {ap : ℕ} (hap : ap%4 = 0) (h : Carries f (d+ap/4) args) :
    vaArgs g ap (args.map Arg.toArgType) = args.map Arg.words := by
  induction args generalizing ap with
  | nil => rfl
  | cons a args ih =>
    obtain ⟨ha,hrest⟩ := h
    have hlen := a.words_length
    rw [List.map_cons,vaArgs,List.map_cons,ih]
    · congr 1
      rw [← ha]
      refine (read_shift (k := d+ap/4) fun i => ?_).trans (congrArg _ hlen.symm)
      rw [hg]
      congr 1
      omega
    · unfold vaRoundedSize
      omega
    · convert hrest using 1
      unfold vaRoundedSize
      omega

theorem assign_anonymous (lastNamed : Bool) (t : ArgType) (hp : p.anonymousArgs = false) :
    (p.assign lastNamed t).anonymousArgs = lastNamed := by
  simp [Parms.assign,hp]

theorem assigned (stdarg : Bool) {args rest : List Arg} (h : p.Agrees f done)
    (hp : p.anonymousArgs = false) (hcarry : Carries f (p.argsSoFar/4) (args++rest)) :
    let q := assignParms stdarg p (args.map Arg.toArgType)
    q.Agrees f (done++args) ∧ Carries f (q.argsSoFar/4) rest ∧
      q.anonymousArgs = (stdarg && !args.isEmpty) := by
  induction args generalizing p done with
  | nil => exact ⟨by simpa [assignParms] using h,hcarry,by simpa [assignParms] using hp⟩
  | cons a args ih =>
    obtain ⟨ha,hrest⟩ := hcarry
    have hnext := h.assign hp (stdarg && args.isEmpty) ha
    have hanon := assign_anonymous (stdarg && args.isEmpty) a.toArgType hp
    have hcum : p.argsSoFar/4+a.words.length =
        (p.assign (stdarg && args.isEmpty) a.toArgType).argsSoFar/4 := by
      have := a.words_length
      simp only [Parms.assign,functionArgAdvance]
      omega
    rw [hcum] at hrest
    have hempty : (args.map Arg.toArgType).isEmpty = args.isEmpty := by cases args <;> rfl
    simp only [List.map_cons,assignParms,hempty]
    cases args with
    | nil => exact ⟨hnext,hrest,by simpa [assignParms] using hanon⟩
    | cons b args =>
      obtain ⟨hq,hc,hb⟩ := ih hnext (by simpa using hanon) hrest
      exact ⟨by simpa using hq,hc,by simpa using hb⟩

end Receiving

section Entering

variable {f : Frame} {s : Machine} {i : ℕ}

theorem argPointer_up : up (f.argPointer s) (i+f.pretend) = up (s.reg sp) i := by
  rw [Nat.add_comm,← up_up,Frame.argPointer,up_sub]

theorem pretendArgs_reg {r : ℕ} (hr : r < 4) : argReg (exec f.pretendArgs s).1 r = argReg s r := by
  obtain ⟨t,ht,-,hreg⟩ := @Frame.pretendArgs_through f s
  rw [ht.exec]
  have hsp : ∀ r < 4, Fin.ofNat 16 r ≠ sp := by decide
  exact hreg _ (hsp r hr)

/-- What the caller has put on the stack stays above what the prologue pushes. -/
theorem pretendArgs_block (hi : i+4 < 2^30) :
    (exec f.pretendArgs s).1.mem (up (s.reg sp) i) = s.mem (up (s.reg sp) i) := by
  unfold Frame.pretendArgs
  split
  · rfl
  · split
    · obtain ⟨rs,hrs⟩ : ∃ rs : List Reg, rs = [0,1,2,3].drop (4-f.pretend) := ⟨_,rfl⟩
      have hlen : rs.length ≤ 4 := by
        rw [hrs,List.length_drop]
        exact Nat.sub_le ..
      have haddr : up (s.reg sp) i = up (s.reg sp-BitVec.ofNat 32 (4*rs.length)) (rs.length+i) := by
        rw [← up_up,up_sub]
      rw [← hrs,haddr]
      exact store_of_above (rs.map s.reg) (by simp) (by omega)
    · rfl

theorem stack_get {mem : Word → Word} {a : Word} {ws : List Word} {k : ℕ} (h : Stack mem a ws)
    (hk : k < ws.length) : ws[k]? = some (mem (up a k)) := by
  induction ws generalizing a k with
  | nil => simp at hk
  | cons w ws ih =>
    cases k with
    | zero => simp [h.1]
    | succ k =>
      rw [List.getElem?_cons_succ,ih h.2 (by simpa using hk),up_up,Nat.add_comm 1 k]

theorem pretendArgs_pushed (ha : f.anonymousArgs = true) (hi : i < f.pretend) :
    (exec f.pretendArgs s).1.mem (up (f.argPointer s) i) = argReg s (4-f.pretend+i) := by
  have hne : f.pretend ≠ 0 := by
    intro h
    simp [h] at hi
  have hlen : ∀ n : Fin 5, ([0,1,2,3].drop (4-n) : List Reg).length = n := by decide
  have hget : ∀ n : Fin 5, ∀ j : Fin 4, (j : ℕ) < n →
      ([0,1,2,3].drop (4-n) : List Reg)[(j : ℕ)]? = some (Fin.ofNat 16 (4-n+j)) := by decide
  have hstack : Stack (exec f.pretendArgs s).1.mem (f.argPointer s)
      (([0,1,2,3].drop (4-f.pretend) : List Reg).map s.reg) := by
    have hmem : (exec [Instr.push ([0,1,2,3].drop (4-f.pretend))] s).1.mem =
        store s.mem (f.argPointer s) (([0,1,2,3].drop (4-f.pretend) : List Reg).map s.reg) := by
      simp only [exec,Instr.step,Machine.push,Frame.argPointer,hlen]
    rw [Frame.pretendArgs,if_neg hne,if_pos ha,hmem]
    refine store_stack ?_
    rw [List.length_map,hlen]
    omega
  have hword := stack_get hstack (by rwa [List.length_map,hlen])
  rw [List.getElem?_map,hget f.pretend ⟨i,by omega⟩ hi] at hword
  exact (Option.some.inj hword).symm

end Entering

/-- The caller and the function it calls agree on the place of every argument: a function reads the
arguments it has names for as they were passed, and with `va_arg` those after them, one by one; the
address of a value returned in memory stays in `r0`. -/
theorem arguments_received (aggregate stdarg : Bool) (named anonymous : List Arg)
    (regs block : ℕ → Word) (hnamed : stdarg = true → named ≠ [])
    (hanonymous : stdarg = false → anonymous = []) (f : Frame) (s : Machine)
    (hs : ((named++anonymous).foldl Call.pass (Call.start aggregate regs block)).Reached s)
    (hf : (assignParms stdarg (Parms.start aggregate) (named.map Arg.toArgType)).Frames f) :
    let p := assignParms stdarg (Parms.start aggregate) (named.map Arg.toArgType)
    let t := (exec f.pretendArgs s).1
    let frame := p.stored (argReg t) fun i => t.mem (up (f.argPointer s) i)
    p.entries.map (fun e => e.2.read (argReg t) frame e.1) = named.map Arg.words ∧
      vaArgs frame p.stackArgsSize (anonymous.map Arg.toArgType) = anonymous.map Arg.words ∧
      (aggregate = true → argReg t 0 = regs 0) := by
  intro p t frame
  obtain ⟨hpacked,-,hkeep,hcarry⟩ := passed (packed_start aggregate regs block) (named++anonymous)
  have hpretend : p.pretendArgsSize/4 = f.pretend := by
    have : 4*(f.pretend : ℕ) = p.pretendArgsSize := hf.pretend
    omega
  have hwords : ∀ i < ((named++anonymous).foldl Call.pass
      (Call.start aggregate regs block)).argsSoFar/4,
      joined (argReg t) (fun j => t.mem (up (f.argPointer s) (j+p.pretendArgsSize/4))) i =
      joined ((named++anonymous).foldl Call.pass (Call.start aggregate regs block)).regs
        ((named++anonymous).foldl Call.pass (Call.start aggregate regs block)).block i := by
    intro i hi
    have hsize := hpacked.size
    have hdvd := hpacked.dvd
    have hfits := hs.fits
    rcases Nat.lt_or_ge i 4 with h4 | h4
    · rw [joined,joined,if_pos h4,if_pos h4,pretendArgs_reg h4,hs.regs i h4]
    · rw [joined,joined,if_neg (by omega),if_neg (by omega),hpretend,argPointer_up,
        pretendArgs_block (by omega),hs.block _ (by omega)]
  obtain ⟨hp,hrest,hanon⟩ := assigned stdarg (agrees_start aggregate) rfl (hcarry _ hwords)
  have hpushed : p.anonymousArgs = true → ∀ i < p.pretendArgsSize/4,
      t.mem (up (f.argPointer s) i) = argReg t (4-p.pretendArgsSize/4+i) := by
    intro ha i hi
    have := f.pretend.isLt
    rw [hpretend] at hi ⊢
    rw [pretendArgs_pushed (hf.anonymous.trans ha) hi,pretendArgs_reg (by omega)]
  refine ⟨hp.read hpushed,?_,fun ha => ?_⟩
  · cases stdarg with
    | false =>
      rw [hanonymous rfl]
      rfl
    | true =>
      have hnext : p.anonymousArgs = true := by
        rw [hanon]
        simpa using hnamed rfl
      have hlate : p.argsSoFar+p.pretendArgsSize = 16+p.stackArgsSize := hp.late (Or.inr hnext)
      have hdvd : p.argsSoFar%4 = 0 := hp.dvd
      have hle : p.pretendArgsSize%4 = 0 ∧ p.pretendArgsSize ≤ 16 := hp.pretend
      have hplace : 4-p.pretendArgsSize/4+p.stackArgsSize/4 = p.argsSoFar/4 := by omega
      refine vaArgs_carries (fun i => hp.stored hpushed i) (by omega) ?_
      rw [← hplace] at hrest
      exact hrest
  · rw [pretendArgs_reg (by omega),hs.regs 0 (by omega)]
    exact hkeep 0 (by simp [Call.start,initCumulativeArgs,ha])

/-- A machine at a call, with the argument block at an address in work RAM. -/
def atCall (c : Call) : Machine where
  reg r := if r = sp then 0x3007e00 else c.regs r
  mem a := c.block ((a-0x3007e00).toNat/4)

theorem atCall_reached {c : Call} (h : c.argsSize+16 < 2^32) : c.Reached (atCall c) where
  fits := h
  regs r hr := by
    have hne : ∀ r < 4, Fin.ofNat 16 r ≠ sp ∧ (Fin.ofNat 16 r : ℕ) = r := by decide
    simp only [argReg,atCall,if_neg (hne r hr).1,(hne r hr).2]
  block i hi := by
    have hoffset : (up 0x3007e00 i-0x3007e00).toNat/4 = i := by
      unfold up
      bv_omega
    have hsp : (atCall c).reg sp = 0x3007e00 := by simp [atCall]
    rw [hsp]
    simp only [atCall,hoffset]

/-- A structure of six bytes and an `int`, the parameters of a function with an ellipsis. -/
def logNamed : List Arg := [⟨⟨true,6⟩,[1,2],rfl⟩,⟨⟨false,4⟩,[3],rfl⟩]

/-- A `long long` and an `int` after them. -/
def logAnonymous : List Arg := [⟨⟨false,8⟩,[5,6],rfl⟩,⟨⟨false,4⟩,[7],rfl⟩]

def logFrame : Frame where
  live r := decide (r = 4)
  leaf := false
  farJump := false
  pretend := 1
  anonymousArgs := true
  frameSize := 2
  outgoingArgs := 1
  framePointer := false
  interwork := false
  ret := .block
  amount_lt := by decide
  framePointer_live := by decide

theorem arguments_received_variadic :
    let s := atCall ((logNamed++logAnonymous).foldl Call.pass
      (Call.start true (fun _ => 9) fun _ => 0))
    let p := assignParms true (Parms.start true) (logNamed.map Arg.toArgType)
    let t := (exec logFrame.pretendArgs s).1
    let frame := p.stored (argReg t) fun i => t.mem (up (logFrame.argPointer s) i)
    p.entries.map Prod.snd = [.reg 1,.stack 0] ∧
      p.entries.map (fun e => e.2.read (argReg t) frame e.1) = [[1,2],[3]] ∧
      vaArgs frame p.stackArgsSize (logAnonymous.map Arg.toArgType) = [[5,6],[7]] ∧
      argReg t 0 = 9 := by
  obtain ⟨hn,ha,hr⟩ := arguments_received true true logNamed logAnonymous (fun _ => 9) (fun _ => 0)
    (fun _ => by simp [logNamed]) (fun h => by cases h) logFrame _ (atCall_reached (by decide))
    ⟨by decide,by decide⟩
  exact ⟨by decide,hn,ha,hr rfl⟩

end Arguments
end Thumb
end AgbTools
