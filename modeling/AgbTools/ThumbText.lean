import AgbTools.ThumbAddress

/-! The text that output routines print and what it does: it is read line by line, `@` starts a
comment, and the instructions that remain run on registers and bytes of memory. -/
namespace AgbTools
namespace Thumb
namespace Loads

section Machine

structure State where
  reg : ℕ → Word
  mem : Word → BitVec 8
  label : ℕ → Word

inductive Width
  | byte | half | word
deriving DecidableEq, Repr

/-- What a load or store names in memory. -/
inductive Place
  | offset (b : ℕ) (k : Word)
  | index (b i : ℕ)
  | label (l : ℕ) (k : Word)
deriving DecidableEq, Repr

inductive Instr
  | add (d a b : ℕ)
  | addImm (d a : ℕ) (k : Word)
  | mov (d r : ℕ)
  | movImm (d : ℕ) (k : Word)
  | lsl (d r : ℕ) (k : Word)
  | asr (d r : ℕ) (k : Word)
  | load (w : Width) (signed : Bool) (d : ℕ) (p : Place)
  | store (w : Width) (r : ℕ) (p : Place)
deriving DecidableEq, Repr

def State.set (s : State) (d : ℕ) (w : Word) : State := { s with reg := Function.update s.reg d w }

def Place.address (s : State) : Place → Word
  | .offset b k => s.reg b+k
  | .index b i => s.reg b+s.reg i
  | .label l k => s.label l+k

/-- What a load of a width brings into a register, least significant byte first in memory. -/
def fetch (mem : Word → BitVec 8) (a : Word) (signed : Bool) : Width → Word
  | .byte => if signed then (mem a).signExtend 32 else (mem a).zeroExtend 32
  | .half => if signed then (mem (a+1)++mem a).signExtend 32 else (mem (a+1)++mem a).zeroExtend 32
  | .word => mem (a+3)++mem (a+2)++mem (a+1)++mem a

/-- A byte of a word, counted from the low end. -/
def byteAt (w : Word) (i : ℕ) : BitVec 8 := (w >>> (8*i)).setWidth 8

def put (mem : Word → BitVec 8) (a w : Word) : Width → Word → BitVec 8
  | .byte => Function.update mem a (byteAt w 0)
  | .half => Function.update (Function.update mem a (byteAt w 0)) (a+1) (byteAt w 1)
  | .word =>
    Function.update (Function.update (Function.update (Function.update mem a (byteAt w 0))
      (a+1) (byteAt w 1)) (a+2) (byteAt w 2)) (a+3) (byteAt w 3)

def Instr.step (s : State) : Instr → State
  | .add d a b => s.set d (s.reg a+s.reg b)
  | .addImm d a k => s.set d (s.reg a+k)
  | .mov d r => s.set d (s.reg r)
  | .movImm d k => s.set d k
  | .lsl d r k => s.set d (s.reg r <<< k.toNat)
  | .asr d r k => s.set d ((s.reg r).sshiftRight k.toNat)
  | .load w signed d p => s.set d (fetch s.mem (p.address s) signed w)
  | .store w r p => { s with mem := put s.mem (p.address s) (s.reg r) w }

def run (code : List Instr) (s : State) : State := code.foldl Instr.step s

end Machine

section Reader

inductive Opcode
  | add | mov | lsl | asr | ldr | ldrh | ldrb | ldrsh | ldrsb | str | strh | strb
deriving DecidableEq, Repr

/-- The words of the text; `note` is what a comment says, and `junk` what no line may hold. -/
inductive Token
  | op (o : Opcode)
  | reg (n : ℕ)
  | imm (k : Word)
  | label (l : ℕ) (k : Word)
  | comma | opening | closing | bang | comment | note | newline | junk
deriving DecidableEq, Repr

def place : List Token → Option Place
  | [.opening,.reg b,.closing] => some (.offset b 0)
  | [.opening,.reg b,.comma,.imm k,.closing] => some (.offset b k)
  | [.opening,.reg b,.comma,.reg i,.closing] => some (.index b i)
  | [.label l k] => some (.label l k)
  | _ => none

/-- Sign-extending loads have the form with an index only. -/
def indexed : Option Place → Option Place
  | some (.index b i) => some (.index b i)
  | _ => none

/-- The instruction of a memory opcode. -/
def memory (d : ℕ) (rest : List Token) : Opcode → Option Instr
  | .ldr => (place rest).map (.load .word false d)
  | .ldrh => (place rest).map (.load .half false d)
  | .ldrb => (place rest).map (.load .byte false d)
  | .ldrsh => (indexed (place rest)).map (.load .half true d)
  | .ldrsb => (indexed (place rest)).map (.load .byte true d)
  | .str => (place rest).map (.store .word d)
  | .strh => (place rest).map (.store .half d)
  | .strb => (place rest).map (.store .byte d)
  | _ => none

/-- The instruction of a line without its comment. -/
def instruction : List Token → Option Instr
  | [.op .add,.reg d,.comma,.reg a,.comma,.reg b] => some (.add d a b)
  | [.op .add,.reg d,.comma,.reg a,.comma,.imm k] => some (.addImm d a k)
  | [.op .mov,.reg d,.comma,.reg r] => some (.mov d r)
  | [.op .mov,.reg d,.comma,.imm k] => some (.movImm d k)
  | [.op .lsl,.reg d,.comma,.reg r,.comma,.imm k] => some (.lsl d r k)
  | [.op .asr,.reg d,.comma,.reg r,.comma,.imm k] => some (.asr d r k)
  | .op o::.reg d::.comma::rest => memory d rest o
  | _ => none

/-- A line: what stands before a comment is an instruction or nothing. -/
def readLine (line : List Token) : Option (List Instr) :=
  match line.takeWhile (fun t => t != .comment) with
  | [] => some []
  | ts => (instruction ts).map (fun i => [i])

/-- The text, with the part of a line that has been read so far. -/
def readFrom (line : List Token) : List Token → Option (List Instr)
  | [] => readLine line
  | .newline::ts => (readLine line).bind (fun is => (readFrom [] ts).map (is++·))
  | t::ts => readFrom (line++[t]) ts

def read (text : List Token) : Option (List Instr) := readFrom [] text

end Reader

section Printer

inductive Operand
  | reg (n : ℕ)
  | int (k : Word)
  | mem (x : Address)
  | other
deriving DecidableEq, Repr

/-- What `reg_names[REGNO (x)]` prints: the number of an integer is the integer. -/
def Term.name : Term → Token
  | .reg n => .reg n
  | .int k => if k.toNat < 17 then .reg k.toNat else .junk
  | .symbol _ _ => .junk

/-- `output_address`. -/
def outputAddress : Address → List Token
  | .reg n => [.opening,.reg n,.closing]
  | .postInc n => [.reg n,.bang]
  | .plus a (.int k) => [.opening,a.name,.comma,.imm k,.closing]
  | .plus a b => [.opening,a.name,.comma,b.name,.closing]
  | .symbol l _ | .label l => [.label l 0]
  | .const l k => [.label l k]

/-- `thumb_print_operand` without a letter; it aborts on other operands. -/
def printOperand : Operand → List Token
  | .reg n => [.reg n]
  | .mem x => outputAddress x
  | .int k => [.imm k]
  | .other => [.junk]

/-- `thumb_print_operand` with the letter `H`. -/
def printHigh : Operand → List Token
  | .reg n => [.reg (n+1)]
  | _ => [.junk]

/-- A piece of a template. -/
inductive Piece
  | tok (t : Token)
  | arg (i : ℕ)
  | high (i : ℕ)

def Piece.print (ops : List Operand) : Piece → List Token
  | .tok t => [t]
  | .arg i => printOperand (ops.getD i .other)
  | .high i => printHigh (ops.getD i .other)

/-- `output_asm_insn`. -/
def outputAsmInsn (template : List Piece) (ops : List Operand) : List Token :=
  template.flatMap (Piece.print ops)++[.newline]

end Printer

section Reading

theorem readFrom_cons {t : Token} (ht : t ≠ .newline) (start ts : List Token) :
    readFrom start (t::ts) = readFrom (start++[t]) ts := by
  cases t <;> first | rfl | exact absurd rfl ht

theorem readFrom_line {line rest : List Token} (hline : .newline ∉ line) (start : List Token) :
    readFrom start (line++.newline::rest) =
      (readLine (start++line)).bind (fun is => (read rest).map (is++·)) := by
  induction line generalizing start with
  | nil => simp [readFrom,read]
  | cons t ts ih =>
    have ht : t ≠ .newline := fun h => hline (h ▸ List.mem_cons_self)
    have hts : .newline ∉ ts := fun h => hline (List.mem_cons_of_mem _ h)
    rw [List.cons_append,readFrom_cons ht,ih hts,List.append_assoc,List.singleton_append]

/-- One line and the text that follows it. -/
theorem read_line {line rest : List Token} {is js : List Instr} (hline : .newline ∉ line)
    (h : readLine line = some is) (hrest : read rest = some js) :
    read (line++.newline::rest) = some (is++js) := by
  rw [read,readFrom_line hline,List.nil_append,h,hrest]
  rfl

/-- Text without the end of a line is one line. -/
theorem read_unended {line : List Token} (hline : .newline ∉ line) : read line = readLine line := by
  have hfrom : ∀ start, readFrom start line = readLine (start++line) := by
    intro start
    induction line generalizing start with
    | nil => rw [readFrom,List.append_nil]
    | cons t ts ih =>
      have ht : t ≠ .newline := fun h => hline (h ▸ List.mem_cons_self)
      have hts : .newline ∉ ts := fun h => hline (List.mem_cons_of_mem _ h)
      rw [readFrom_cons ht,ih hts,List.append_assoc,List.singleton_append]
  exact hfrom []

theorem read_line_none {line rest : List Token} (hline : .newline ∉ line) (h : readLine line = none) :
    read (line++.newline::rest) = none := by
  rw [read,readFrom_line hline,List.nil_append,h]
  rfl

@[simp] theorem read_nil : read [] = some [] := rfl

theorem newline_notMem_outputAddress (x : Address) : .newline ∉ outputAddress x := by
  have hname : ∀ a : Term, .newline ≠ a.name := by
    intro a
    cases a with
    | reg n => exact nofun
    | int k =>
      rw [Term.name]
      split <;> exact nofun
    | symbol l k => exact nofun
  cases x with
  | plus a b =>
    have ha := hname a
    have hb := hname b
    cases b <;> simp [outputAddress,ha] <;> exact hb
  | _ => simp [outputAddress]

end Reading

end Loads
end Thumb
end AgbTools
