import Mathlib.Data.BitVec
import Mathlib.Logic.Function.Basic
import Mathlib.Tactic.Common

/-! The flash library and the chip it talks to: a chip of two banks behind a 64 KiB window, the
command sequences of `SwitchFlashBank`, `EraseFlashSector_MX`, `ProgramFlashByte_MX` and
`ProgramFlashSector_MX`, the wait for a running operation, and verification. -/
namespace AgbTools
namespace Flash

abbrev Byte := BitVec 8
abbrev Half := BitVec 16

section Chip

/-- How far a command sequence has come. `read` is the state between sequences. -/
inductive Cycle
  | read
  | unlock1
  | unlock2
  | bank
  | program
  | erase
  | eraseUnlock1
  | eraseUnlock2
deriving DecidableEq, Repr

/-- A running operation. -/
inductive Operation
  | program (data : Byte)
  | erase
deriving DecidableEq, Repr

/-- The chip takes commands, or an operation is running, or one has exceeded the time limit of
the chip and waits for a reset. -/
inductive Mode
  | idle (cycle : Cycle)
  | busy (op : Operation)
  | exceeded (op : Operation)
deriving DecidableEq, Repr

/-- The chip. `content` is the whole array, bank 1 from 0x10000 on; a running operation has left
its mark there already, since no read sees the array before it ends. `accepted` counts the
program and erase commands taken, `clock` the accesses. -/
structure Chip where
  content : ℕ → Byte
  bank : ℕ
  mode : Mode
  accepted : ℕ
  clock : ℕ

/-- Everything the library has no hold on, access by access: when an operation ends or exceeds
its limit, the free bits of a status read, what a failing erase leaves behind, which bits a
failing program does not clear, and whether the timer has run out. `memory` is what is read
outside the window of the chip. -/
structure Env where
  done : ℕ → Bool
  exceeds : ℕ → Bool
  status : ℕ → Byte
  eraseFails : ℕ → Bool
  eraseLeaves : ℕ → ℕ → Byte
  programKeeps : ℕ → Byte
  timeout : ℕ → Bool
  memory : ℕ → Byte

def sectorBytes : ℕ := 0x1000
def bankBytes : ℕ := 0x10000

/-- What one write does to an idle chip. -/
inductive Effect
  | next (cycle : Cycle)
  | selectBank
  | programByte
  | eraseSector
  | eraseChip
deriving DecidableEq, Repr

/-- The command decoder. A write out of sequence ends the sequence. -/
def Cycle.write (k : Cycle) (a : ℕ) (v : Byte) : Effect :=
  match k with
  | .read => .next (if a = 0x5555 ∧ v = 0xAA then .unlock1 else .read)
  | .unlock1 => .next (if a = 0x2AAA ∧ v = 0x55 then .unlock2 else .read)
  | .unlock2 => .next <|
    if a = 0x5555 then
      if v = 0xA0 then .program else if v = 0x80 then .erase else if v = 0xB0 then .bank else .read
    else .read
  | .bank => if a = 0 then .selectBank else .next .read
  | .program => .programByte
  | .erase => .next (if a = 0x5555 ∧ v = 0xAA then .eraseUnlock1 else .read)
  | .eraseUnlock1 => .next (if a = 0x2AAA ∧ v = 0x55 then .eraseUnlock2 else .read)
  | .eraseUnlock2 =>
    if v = 0x30 then .eraseSector else if a = 0x5555 ∧ v = 0x10 then .eraseChip else .next .read

/-- The array after the bytes at the addresses of `p` are erased. -/
def erased (env : Env) (c : Chip) (p : ℕ → Prop) [DecidablePred p] : ℕ → Byte :=
  fun x => if p x then
    if env.eraseFails c.clock then env.eraseLeaves c.clock x else 0xFF
  else c.content x

/-- A program only clears bits, and not all of them when it fails. -/
def programmed (env : Env) (c : Chip) (x : ℕ) (v : Byte) : ℕ → Byte :=
  Function.update c.content x (c.content x &&& (v ||| env.programKeeps c.clock))

/-- Time passes up to the next access: a running operation may end or exceed its limit. -/
def Chip.settle (env : Env) (c : Chip) : Chip :=
  match c.mode with
  | .busy op =>
    if env.done c.clock then { c with mode := .idle .read, clock := c.clock+1 }
    else if env.exceeds c.clock then { c with mode := .exceeded op, clock := c.clock+1 }
    else { c with clock := c.clock+1 }
  | _ => { c with clock := c.clock+1 }

/-- The place of a window address in the array. -/
def Chip.place (c : Chip) (a : ℕ) : ℕ := c.bank*bankBytes+a

/-- The effect of a write on a chip that takes commands. -/
def Chip.perform (env : Env) (c : Chip) (a : ℕ) (v : Byte) : Effect → Chip
  | .next k => { c with mode := .idle k }
  | .selectBank => { c with mode := .idle .read, bank := v.toNat % 2 }
  | .programByte =>
    { c with mode := .busy (.program v), content := programmed env c (c.place a) v,
             accepted := c.accepted+1 }
  | .eraseSector =>
    { c with mode := .busy .erase, accepted := c.accepted+1,
             content := erased env c fun x => x / sectorBytes = c.place a / sectorBytes }
  | .eraseChip =>
    { c with mode := .busy .erase, accepted := c.accepted+1, content := erased env c fun _ => True }

/-- A write in the window. While an operation is running it is ignored; after an exceeded limit
only a reset is taken. -/
def Chip.write (env : Env) (a : ℕ) (v : Byte) (c : Chip) : Chip :=
  let c := c.settle env
  match c.mode with
  | .idle k => c.perform env a v (k.write a v)
  | .busy _ => c
  | .exceeded _ => if v = 0xF0 then { c with mode := .idle .read } else c

/-- The status byte: bit 7 is the complement of the bit being programmed (0 in an erase), bit 5
tells an exceeded limit, bit 3 is 0 in a program; the other bits are free. -/
def statusByte (op : Operation) (exceeded : Bool) (free : Byte) : Byte :=
  let limit : Byte := if exceeded then 0x20 else 0
  match op with
  | .program data => (free &&& 0x57) ||| (~~~data &&& 0x80) ||| limit
  | .erase => (free &&& 0x5F) ||| limit

/-- A read in the window. -/
def Chip.read (env : Env) (a : ℕ) (c : Chip) : Byte × Chip :=
  let c := c.settle env
  match c.mode with
  | .idle _ => (c.content (c.place a),c)
  | .busy op => (statusByte op false (env.status c.clock),c)
  | .exceeded op => (statusByte op true (env.status c.clock),c)

end Chip

section Library

/-- `struct FlashType`, as far as it is used. -/
structure FlashType where
  romSize : ℕ
  size : ℕ
  shift : ℕ
  count : ℕ
deriving DecidableEq, Repr

/-- The entries of `sSetupInfos`. -/
inductive Setup
  | mx29L010
  | le26FV10N1TS
  | defaultFlash
deriving DecidableEq, Repr

def Setup.type : Setup → FlashType
  | .mx29L010 => ⟨131072,4096,12,32⟩
  | .le26FV10N1TS => ⟨131072,4096,12,32⟩
  | .defaultFlash => ⟨131072,4096,12,32⟩

@[simp] theorem Setup.romSize_type (g : Setup) : g.type.romSize = 131072 := by cases g <;> rfl
def flashBase : ℕ := 0xE000000
def flashRomSize1M : ℕ := 131072
def sectorsPerBank : ℕ := 16

variable (env : Env) (g : Setup)

def switchFlashBank (bankNum : Byte) (c : Chip) : Chip :=
  let c := c.write env 0x5555 0xAA
  let c := c.write env 0x2AAA 0x55
  let c := c.write env 0x5555 0xB0
  c.write env 0x0000 bankNum

/-- The bank argument of a sector number, cut to a byte. -/
def bankNum (sectorNum : Half) : Byte := BitVec.ofNat 8 (sectorNum.toNat / sectorsPerBank)

/-- Window address of a sector. -/
def sectorAddr (sectorNum : Half) : ℕ := (sectorNum.toNat % sectorsPerBank) <<< g.type.shift

/-- What is left to do when the chip or the timer says that time is up: one more poll decides. -/
def giveUp (addr : ℕ) (lastData : Byte) (code : Half) (c : Chip) : Half × Chip :=
  let (status,c) := c.read env addr
  if status = lastData then (0,c) else (code,c.write env 0x5555 0xF0)

/-- `WaitForFlashWrite_Common`, for at most `fuel` rounds of its loop. -/
def waitForFlashWrite (phase : Half) (addr : ℕ) (lastData : Byte) : ℕ → Chip → Option (Half × Chip)
  | 0, _ => none
  | fuel+1, c =>
    let (status,c) := c.read env addr
    if status = lastData then some (0,c)
    else if status &&& 0x20 ≠ 0 then some (giveUp env addr lastData (phase ||| 0xA000) c)
    else if env.timeout c.clock then some (giveUp env addr lastData (phase ||| 0xC000) c)
    else waitForFlashWrite phase addr lastData fuel c

/-- One round of the erase loop of `EraseFlashSector_MX`. -/
def eraseAttempt (fuel addr : ℕ) (c : Chip) : Option (Half × Chip) :=
  let c := c.write env 0x5555 0xAA
  let c := c.write env 0x2AAA 0x55
  let c := c.write env 0x5555 0x80
  let c := c.write env 0x5555 0xAA
  let c := c.write env 0x2AAA 0x55
  let c := c.write env addr 0x30
  waitForFlashWrite env 2 addr 0xFF fuel c

/-- The erase loop, with the number of rounds that may still follow. -/
def tryErase (fuel addr : ℕ) : ℕ → Chip → Option (Half × Chip)
  | 0, c => eraseAttempt env fuel addr c
  | n+1, c => do
    let (result,c) ← eraseAttempt env fuel addr c
    if result &&& 0xA000 = 0 then some (result,c) else tryErase fuel addr n c

/-- `numTries > 3` ends the loop in its fifth round. -/
def eraseFlashSector (fuel : ℕ) (sectorNum : Half) (c : Chip) : Option (Half × Chip) :=
  if sectorNum.toNat ≥ g.type.count then some (0x80FF,c)
  else
    let c := switchFlashBank env (bankNum sectorNum) c
    tryErase env fuel (sectorAddr g sectorNum) 4 c

/-- `ProgramByte`. -/
def programByte (fuel addr : ℕ) (data : Byte) (c : Chip) : Option (Half × Chip) :=
  let c := c.write env 0x5555 0xAA
  let c := c.write env 0x2AAA 0x55
  let c := c.write env 0x5555 0xA0
  let c := c.write env addr data
  waitForFlashWrite env 1 addr data fuel c

/-- `ProgramFlashByte_MX`: only the offset is checked. -/
def programFlashByte (fuel : ℕ) (sectorNum : Half) (offset : BitVec 32) (data : Byte) (c : Chip) :
    Option (Half × Chip) :=
  if offset.toNat ≥ g.type.size then some (0x8000,c)
  else
    let c := switchFlashBank env (bankNum sectorNum) c
    programByte env fuel (sectorAddr g sectorNum+offset.toNat) data c

/-- The loop of `ProgramFlashSector_MX`; the argument is `gFlashNumRemainingBytes`. -/
def programBytes (fuel dest size : ℕ) (src : ℕ → Byte) : ℕ → Chip → Option (Half × Chip)
  | 0, c => some (0,c)
  | n+1, c => do
    let (result,c) ← programByte env fuel (dest+(size-(n+1))) (src (size-(n+1))) c
    if result ≠ 0 then some (result,c) else programBytes fuel dest size src n c

def programFlashSector (fuel : ℕ) (sectorNum : Half) (src : ℕ → Byte) (c : Chip) :
    Option (Half × Chip) :=
  if sectorNum.toNat ≥ g.type.count then some (0x80FF,c)
  else do
    let (result,c) ← eraseFlashSector env g fuel sectorNum c
    if result ≠ 0 then some (result,c)
    else
      let c := switchFlashBank env (bankNum sectorNum) c
      programBytes env fuel (sectorAddr g sectorNum) g.type.size src g.type.size c

/-- A byte read by the CPU: the chip answers in its window, other memory elsewhere. -/
def busRead (addr : ℕ) (c : Chip) : Byte × Chip :=
  let addr := addr % 2^32
  if addr / 2^25 = 7 then c.read env (addr % bankBytes) else (env.memory addr,c)

/-- `ReadFlash_Core`. -/
def readFlashCore (src : ℕ) : ℕ → Chip → List Byte × Chip
  | 0, c => ([],c)
  | n+1, c =>
    let (v,c) := busRead env src c
    let (vs,c) := readFlashCore (src+1) n c
    (v::vs,c)

/-- The bank selection of the reading entry points. -/
def selectForRead (sectorNum : Half) (c : Chip) : Chip × ℕ :=
  if g.type.romSize = flashRomSize1M then
    (switchFlashBank env (bankNum sectorNum) c,sectorNum.toNat % sectorsPerBank)
  else (c,sectorNum.toNat)

def readFlash (sectorNum : Half) (offset size : BitVec 32) (c : Chip) : List Byte × Chip :=
  let (c,sector) := selectForRead env g sectorNum c
  readFlashCore env (flashBase+(sector <<< g.type.shift)+offset.toNat) size.toNat c

/-- `VerifyFlashSector_Core`: the address of the first difference, or 0. -/
def verifyFlashSectorCore (src : ℕ → Byte) (tgt : ℕ) : ℕ → Chip → ℕ × Chip
  | 0, c => (0,c)
  | n+1, c =>
    let (v,c) := busRead env tgt c
    if v ≠ src 0 then (tgt % 2^32,c) else verifyFlashSectorCore (fun i => src (i+1)) (tgt+1) n c

def verifyFlashSectorNBytes (sectorNum : Half) (src : ℕ → Byte) (n : ℕ) (c : Chip) : ℕ × Chip :=
  let (c,sector) := selectForRead env g sectorNum c
  verifyFlashSectorCore env src (flashBase+(sector <<< g.type.shift)) n c

def verifyFlashSector (sectorNum : Half) (src : ℕ → Byte) (c : Chip) : ℕ × Chip :=
  verifyFlashSectorNBytes env g sectorNum src g.type.size c

end Library

end Flash
end AgbTools
