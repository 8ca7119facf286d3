import Mathlib.Data.List.TakeWhile
import AgbTools.ShortenBranches

/-! `thumb_reorg` of thumb.c: constants that an instruction cannot hold are loaded from pools, which
are dumped behind a barrier in the instruction stream, and the range of these loads. -/
namespace AgbTools
namespace LiteralPool

section Model

/-- The modes of a move that may need the pool. -/
inductive Mode
  | hi | si | sf | di | df
deriving DecidableEq, Repr

/-- A half word is loaded as a word. -/
def Mode.promote : Mode → Mode
  | .hi => .si
  | m => m

/-- The bytes of a pool entry. -/
def Mode.size : Mode → ℕ
  | .di => 8
  | .df => 8
  | _ => 4

variable {α : Type} [DecidableEq α]

/-- A constant: an integer, or a symbol, label or floating-point number. -/
inductive Value (α : Type)
  | int (v : BitVec 32)
  | other (c : α)
deriving DecidableEq, Repr

/-- The source of a move: a constant, a word of the constant pool of the compiler, or neither. -/
inductive Src (α : Type)
  | const (v : Value α)
  | poolMem (v : Value α)
  | operand
deriving DecidableEq, Repr

inductive Insn (α : Type)
  | move (mode : Mode) (src : Src α) (length : ℕ)
  | insn (length : ℕ)
  | jump (length : ℕ)
  | label
  | note
  | barrier
deriving DecidableEq, Repr

def shiftableConst (v : BitVec 32) : Bool :=
  (List.range 25).any fun i => v &&& ((0xff : BitVec 32) <<< i) == v

/-- `CONST_OK_FOR_LETTER_P` for the letters I, J and K. -/
def constOkI (v : BitVec 32) : Bool := decide (v.toNat < 256)
def constOkJ (v : BitVec 32) : Bool := decide (-256 < v.toInt ∧ v.toInt ≤ 0)
def constOkK (v : BitVec 32) : Bool := shiftableConst v

def fixit (src : Src α) (mode : Mode) : Bool :=
  match src with
  | .const (.int v) => !(constOkI v || constOkJ v || (decide (mode ≠ .di) && constOkK v))
  | .const (.other _) => true
  | .poolMem _ => decide (mode = .si)
  | .operand => false

/-- The constant and the mode in which a broken move loads it from the pool. -/
def brokenMove : Insn α → Option (Mode × Value α)
  | .move mode src _ =>
    if fixit src mode then
      match src with
      | .const v => some (mode.promote,v)
      | .poolMem v => some (mode.promote,v)
      | .operand => none
    else none
  | _ => none

/-- `get_attr_length` before the lengths are settled: a move from the pool counts two bytes, or six
for a double word. -/
def Insn.attrLength (x : Insn α) : ℕ :=
  match brokenMove x with
  | some (mode,_) => if mode.size = 4 then 2 else 6
  | none =>
    match x with
    | .move _ _ length => length
    | .insn length => length
    | .jump length => length
    | _ => 0

structure PoolNode (α : Type) where
  value : Value α
  nextOffset : ℕ
  mode : Mode
deriving DecidableEq, Repr

def maxPoolSize : ℕ := 1020/4

def maxCount : ℕ := 1000

/-- The insns in front of the barrier, whether the barrier had to be made, and what follows it. -/
structure Barrier (α : Type) where
  segment : List (Insn α)
  created : Bool
  rest : List (Insn α)

/-- What the walk back from a new barrier passes over. -/
def Insn.skipped : Insn α → Bool
  | .jump _ => true
  | .note => true
  | .label => true
  | _ => false

/-- A new barrier, just before any jump; the insns seen so far are in reverse order. -/
def makeBarrier (seen rest : List (Insn α)) : Barrier α :=
  { segment := (seen.dropWhile Insn.skipped).reverse
    created := true
    rest := (seen.takeWhile Insn.skipped).reverse++rest }

/-- `find_barrier`. -/
def findBarrier : ℕ → List (Insn α) → List (Insn α) → Barrier α
  | _, seen, [] => makeBarrier seen []
  | count, seen, x::xs =>
    if count < maxCount then
      if x = .barrier then { segment := seen.reverse, created := false, rest := xs }
      else findBarrier (count+x.attrLength) (x::seen) xs
    else makeBarrier seen (x::xs)

/-- The stream that is left: insns of the source, moves whose source is now a place in a pool, the
jumps made around pools, and the insns of the pools. -/
inductive Out (α : Type)
  | kept (x : Insn α)
  | load (mode : Mode) (was : Insn α) (pool offset : ℕ)
  | jumpOver (size : ℕ)
  | barrier
  | label
  | align4
  | target
  | poolLabel (pool : ℕ)
  | entry (mode : Mode) (v : Value α)
  | tableEnd
deriving DecidableEq, Repr

def entries (nodes : List (PoolNode α)) : List (Out α) := nodes.map fun p => .entry p.mode p.value

def poolBytes (nodes : List (PoolNode α)) : ℕ := (nodes.map fun p => p.mode.size).sum

end Model

section Layout

variable {α : Type} [DecidableEq α]

/-- The bytes at an address; a load of a double word is two instructions. -/
def Out.size (a : ℕ) : Out α → ℕ
  | .kept x => x.attrLength
  | .load mode _ _ _ => mode.size/2
  | .jumpOver size => size
  | .align4 => (4-a%4)%4
  | .entry mode _ => mode.size
  | _ => 0

/-- The address of a pool behind an address, and what follows its label. -/
def lookup (pool : ℕ) : ℕ → List (Out α) → Option (ℕ × List (Out α))
  | _, [] => none
  | a, x::xs => if x = .poolLabel pool then some (a,xs) else lookup pool (a+x.size a) xs

/-- The entry at an offset of a table. -/
def entryAt : List (Out α) → ℕ → Option (Mode × Value α)
  | .entry mode v::xs, o => if o = 0 then some (mode,v)
    else if mode.size ≤ o then entryAt xs (o-mode.size) else none
  | _, _ => none

/-- The program counter that a load at an address counts from. -/
def alignedPc (a : ℕ) : ℕ := (a+4)/4*4

/-- A load finds the constant of the move it replaces behind it, at a distance of at most 1020. -/
def Loads (a : ℕ) (mode : Mode) (was : Insn α) (pool offset : ℕ) (behind : List (Out α)) : Prop :=
  ∃ v p table, brokenMove was = some (mode,v) ∧
    lookup pool (a+mode.size/2) behind = some (p,table) ∧ entryAt table offset = some (mode,v) ∧
    a < p+offset ∧ alignedPc a ≤ p+offset ∧ p+offset ≤ alignedPc a+1020

def Served : ℕ → List (Out α) → Prop
  | _, [] => True
  | a, x::xs =>
    (match x with
    | .load mode was pool offset => Loads a mode was pool offset xs
    | _ => True) ∧ Served (a+x.size a) xs

/-- Whether control can run on behind an insn when it can reach it. The label of a table is nobody's
target. -/
def Out.falls (reached : Bool) : Out α → Bool
  | .kept .barrier => false
  | .barrier => false
  | .kept _ => true
  | .load _ _ _ _ => true
  | .jumpOver _ => true
  | .target => true
  | _ => reached

/-- No entry of a pool is run into. -/
def Unreached : Bool → List (Out α) → Prop
  | _, [] => True
  | reached, x::xs =>
    (match x with
    | .entry _ _ => reached = false
    | _ => True) ∧ Unreached (x.falls reached) xs

def countEntries : List (Out α) → ℕ
  | .entry _ _::xs => countEntries xs+1
  | _ => 0

/-- No pool outgrows the vector in which it is collected. -/
def Bounded : List (Out α) → Prop
  | [] => True
  | x::xs =>
    (match x with
    | .poolLabel _ => countEntries xs ≤ maxPoolSize
    | _ => True) ∧ Bounded xs

structure InRange (start : ℕ) (out : List (Out α)) : Prop where
  served : Served start out
  unreached : Unreached true out
  bounded : Bounded out

end Layout

section Fits

variable {α : Type} [DecidableEq α]

/-- The bytes that an insn of a segment takes in the end. -/
def Insn.bytes (x : Insn α) : ℕ :=
  match brokenMove x with
  | some (mode,_) => mode.size/2
  | none => x.attrLength

def segmentBytes (xs : List (Insn α)) : ℕ := (xs.map Insn.bytes).sum

/-- A constant of the pool with its mode. -/
def constantBytes (cs : List (Mode × Value α)) : ℕ := (cs.map fun c => c.1.size).sum

/-- The bytes of the different constants in front of a constant. -/
def bytesBefore (c : Mode × Value α) (cs : List (Mode × Value α)) : ℕ :=
  constantBytes (cs.eraseDups.takeWhile fun d => decide (d ≠ c))

/-- The different constants that a segment needs, in the order in which it needs them. -/
def constants (xs : List (Insn α)) : List (Mode × Value α) := (xs.filterMap brokenMove).eraseDups

/-- For every move of a segment: from its aligned pc to the table at `p`, and past the constants
needed before its own, it is at most 1020 bytes. -/
def segmentFits (p : ℕ) : ℕ → List (Mode × Value α) → List (Insn α) → Bool
  | _, _, [] => true
  | a, cs, x::xs =>
    match brokenMove x with
    | some c =>
      decide (p+bytesBefore c cs ≤ alignedPc a+1020) && segmentFits p (a+x.bytes) (cs++[c]) xs
    | none => segmentFits p (a+x.bytes) cs xs

/-- The jump over the constants of a segment. -/
def skipBytes (created : Bool) (cs : List (Mode × Value α)) : ℕ :=
  if created then ShortenBranches.Kind.jump.length (2+constantBytes cs+2 : ℕ) else 0

/-- Where the table of a segment starts. -/
def tableAddress (a : ℕ) (b : Barrier α) : ℕ :=
  let e := a+segmentBytes b.segment+skipBytes b.created (constants b.segment)
  e+(4-e%4)%4

/-- Every stretch from a broken move to its barrier has few enough constants, and close enough. -/
def fitsFrom : ℕ → ℕ → List (Insn α) → Bool
  | 0, _, _ => true
  | _+1, _, [] => true
  | f+1, a, x::xs =>
    if (brokenMove x).isSome then
      let b := findBarrier 0 [] (x::xs)
      let cs := constants b.segment
      decide (cs.length ≤ maxPoolSize) && segmentFits (tableAddress a b) a [] b.segment &&
        fitsFrom f (tableAddress a b+constantBytes cs) b.rest
    else fitsFrom f (a+x.attrLength) xs

def fits (start : ℕ) (code : List (Insn α)) : Bool := fitsFrom code.length start code

end Fits

section Pool

variable {α : Type} {nodes : List (PoolNode α)} {p : PoolNode α} {o : ℕ}

/-- Every node knows the offset behind it. -/
def Offsets : ℕ → List (PoolNode α) → Prop
  | _, [] => True
  | o, p::ps => p.nextOffset = o+p.mode.size ∧ Offsets (o+p.mode.size) ps

theorem Mode.size_pos (mode : Mode) : 0 < mode.size := by cases mode <;> decide

theorem Offsets.append {nodes' : List (PoolNode α)} (h : Offsets o nodes)
    (h' : Offsets (o+poolBytes nodes) nodes') : Offsets o (nodes++nodes') := by
  induction nodes generalizing o with
  | nil => simpa [poolBytes] using h'
  | cons p ps ih =>
    refine ⟨h.1,ih h.2 ?_⟩
    rw [poolBytes,List.map_cons,List.sum_cons,← Nat.add_assoc] at h'
    exact h'

theorem Offsets.last (h : Offsets o nodes) :
    (nodes.getLast?.map PoolNode.nextOffset).getD o = o+poolBytes nodes := by
  induction nodes generalizing o with
  | nil => rfl
  | cons p ps ih =>
    rw [poolBytes,List.map_cons,List.sum_cons,← Nat.add_assoc]
    cases ps with
    | nil => exact h.1
    | cons q qs =>
      have hrest := ih h.2
      rw [List.getLast?_cons_cons]
      rw [List.getLast?_eq_some_getLast (List.cons_ne_nil q qs)] at hrest ⊢
      exact hrest

/-- The constants of a pool. -/
def keys (nodes : List (PoolNode α)) : List (Mode × Value α) := nodes.map fun p => (p.mode,p.value)

variable [DecidableEq α]

end Pool

section Segment

variable {α : Type} {pool : ℕ} {nodes : List (PoolNode α)}

variable [DecidableEq α]

end Segment

section Chunk

variable {α : Type} {pool : ℕ} {nodes : List (PoolNode α)} {t : List (Out α)}

variable [DecidableEq α]

end Chunk

section Barrier

variable {α : Type}

variable [DecidableEq α]

end Barrier

section Range

variable {α : Type} [DecidableEq α]

end Range

end LiteralPool
end AgbTools
