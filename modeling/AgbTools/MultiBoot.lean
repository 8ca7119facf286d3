import Mathlib.Data.BitVec
import Mathlib.Logic.Function.Basic
import AgbTools.Runs

/-! The GameCube multiboot receiver: its control structure, the serial interrupt
handler with its chain of continuation handlers, `GameCubeMultiBoot_Init` and
`GameCubeMultiBoot_Main`. Main and each interrupt are single steps here. -/
namespace AgbTools
namespace MultiBoot

abbrev Word := BitVec 32

/-- The code pointers stored in `GCMB_STRUCT_SERIAL_INTR_HANDLER`. -/
inductive Handler
  | null | stop | checkGameCodeSent | checkHandshakeResponse | receiveKeyA | checkKeyBSent
  | checkImageSizeResponse | checkImageResponse | checkCounter2Sent | checkKeyCDerivationSent
  | checkBootKeyResponse | stopUnconditionally
  deriving DecidableEq, Repr

/-- What the handler finds in the JOY Bus registers when it is entered. -/
structure Interrupt where
  joyCnt : BitVec 16
  joyRecv : Word
  joyTrans : Word
  deriving DecidableEq, Repr

def Interrupt.reset (i : Interrupt) : Bool := i.joyCnt.getLsbD 0
def Interrupt.received (i : Interrupt) : Bool := i.joyCnt.getLsbD 1
def Interrupt.sent (i : Interrupt) : Bool := i.joyCnt.getLsbD 2

/-- A store into the image area, by the interrupt handler or by the decrypt loop. -/
inductive Store
  | received (dest : Word) | decrypted (dest : Word)
  deriving DecidableEq, Repr

def Store.dest : Store → Word
  | .received a => a
  | .decrypted a => a

/-- The struct of the library, the registers it writes and the memory behind its image
pointers. `seen` and `stores` are history: the interrupts handled since the last
`GameCubeMultiBoot_Init`, and the image words stored since the history was started. -/
structure Machine where
  counter1 : BitVec 8
  counter2 : BitVec 8
  mbProgress : BitVec 8
  savedVCount : BitVec 8
  keyA : Word
  keyB : Word
  keyC : Word
  bootKey : BitVec 16
  imageSize : BitVec 16
  sessionKey : Word
  hashVal : Word
  keyCDerivation : Word
  baseDestPtr : Word
  curDestPtr : Word
  serialIntrHandler : Handler
  mem : Word → Word
  rcnt : BitVec 16
  joyCnt : BitVec 16
  joyStat : BitVec 16
  joyTrans : Word
  ie : BitVec 16
  seen : List Interrupt
  stores : List Store

def ewramStart : Word := 0x02000000
def logoEnd : Word := 0xA0
/-- `pool_RubyUSAGameCode`, the characters AXVE. -/
def gameCode : Word := 0x45565841
/-- `pool_Kawa`. -/
def kawa : Word := 0x6177614B
def maximumImageSizeUInt32s : Word := 0x4000
def intrFlagSerial : BitVec 16 := 0x80

/-- One round of the checksum loop: shift right and fold the dropped bit back. -/
def hashRound (r3 : Word) : Word :=
  if r3.getLsbD 0 then (r3 >>> 1) ^^^ 0xA1C1 else r3 >>> 1

def hashLoop (r3 : Word) : Word := hashRound^[32] r3

/-- `GameCubeMultiBoot_Hash` on its two register arguments. -/
def hash (r1 r3 : Word) : Word := hashLoop (r3 ^^^ r1)

/-- Store a byte into a little-endian word. -/
def setByte (w : Word) (i : ℕ) (b : BitVec 8) : Word :=
  (w &&& ~~~((0xFF : Word) <<< (8*i))) ||| (b.setWidth 32 <<< (8*i))

/-- The struct up to the destination pointers is cleared; the two counters that feed
KeyB survive with changed places. -/
def init (s : Machine) : Machine :=
  { s with
    counter1 := 0, counter2 := s.savedVCount, mbProgress := 0, savedVCount := s.counter2 >>> 1
    keyA := 0, keyB := 0, keyC := 0, bootKey := 0, imageSize := 0
    sessionKey := 0, hashVal := 0, keyCDerivation := 0
    serialIntrHandler := .stop
    rcnt := 0xC000, joyCnt := 0x47, joyStat := 0, ie := s.ie ||| intrFlagSerial
    seen := [] }

/-- `GameCubeMultiBoot_ReadVCount`. -/
def readVCount (s : Machine) (vcount : BitVec 16) : Machine :=
  { s with savedVCount := vcount.setWidth 8 }

def setInterruptHandler (s : Machine) (h : Handler) (vcount : BitVec 16) : Machine :=
  readVCount { s with serialIntrHandler := h } vcount

/-- `GcMbIntrHandler_Stop`: no command is processed until the next Init. -/
def intrStop (s : Machine) (vcount : BitVec 16) : Machine :=
  setInterruptHandler { s with joyStat := 0 } .null vcount

def beginHandshake (s : Machine) (vcount : BitVec 16) : Machine :=
  let s := { s with joyTrans := gameCode, joyStat := 0x10, keyB := setByte s.keyB 1 s.savedVCount }
  if s.mbProgress ≠ 0 then intrStop s vcount
  else setInterruptHandler { s with baseDestPtr := ewramStart, curDestPtr := ewramStart }
    .checkGameCodeSent vcount

/-- The tail `GameCubeMultiBoot_CheckHandshakeResponse`. -/
def handshakeResponse (s : Machine) (recv : Word) (vcount : BitVec 16) : Machine :=
  if recv ≠ gameCode then intrStop s vcount
  else setInterruptHandler { s with keyB := setByte s.keyB 3 s.savedVCount } .receiveKeyA vcount

/-- Ones counted by `GameCubeMultiBoot_KeyBCheckLoop`. -/
def keyBCheckLoop : ℕ → Word → ℕ → ℕ
  | 0, _, r2 => r2
  | n+1, r1, r2 =>
    let r2' := r2 + (r1.getLsbD 0).toNat
    if r1 >>> 1 = 0 then r2' else keyBCheckLoop n (r1 >>> 1) r2'

/-- Replace the middle byte when KeyB has too many or too few ones. -/
def fixKeyB (keyB : Word) : Word :=
  let r2 := keyBCheckLoop 32 (keyB >>> 8) 0
  if 0xE < r2 then setByte keyB 2 0
  else if 7 ≤ r2 then keyB
  else setByte keyB 2 0xFF

def receiveKeyA (s : Machine) (recv : Word) (vcount : BitVec 16) : Machine :=
  if recv >>> 24 ≠ 0xDD then intrStop s vcount
  else
    let keyB := fixKeyB (setByte s.keyB 2 s.counter2)
    setInterruptHandler
      { s with keyA := recv, keyB := keyB, joyTrans := keyB + 0xEE, joyStat := 0x30 }
      .checkKeyBSent vcount

/-- The tail `GameCubeMultiBoot_CheckImageSizeResponse`. -/
def imageSizeResponse (s : Machine) (recv : Word) (vcount : BitVec 16) : Machine :=
  if maximumImageSizeUInt32s ≤ recv then intrStop s vcount
  else
    let s := { s with imageSize := ((recv + 1) + (recv + 1)).setWidth 16 }
    if s.mbProgress ≠ 0 then intrStop s vcount
    else setInterruptHandler { s with baseDestPtr := ewramStart, curDestPtr := ewramStart }
      .checkImageResponse vcount

def sendCounter2 (s : Machine) (vcount : BitVec 16) : Machine :=
  setInterruptHandler { s with joyTrans := (s.counter2.setWidth 32 <<< 8) + 0xCC }
    .checkCounter2Sent vcount

def imageResponse (s : Machine) (recv : Word) (vcount : BitVec 16) : Machine :=
  let s' := { s with
    joyStat := (((s.curDestPtr &&& 4) + 8) <<< 2).setWidth 16
    mem := Function.update s.mem s.curDestPtr recv
    stores := s.stores ++ [.received s.curDestPtr]
    curDestPtr := s.curDestPtr + 4
    imageSize := s.imageSize - 1 }
  if s'.imageSize ≠ 0 then readVCount s' vcount else sendCounter2 s' vcount

/-- The tail of `GcMbIntrHandler_CheckCounter2Sent` once the send succeeded. -/
def counter2Sent (s : Machine) (vcount : BitVec 16) : Machine :=
  if s.keyCDerivation = 0 then sendCounter2 s vcount
  else setInterruptHandler { s with joyTrans := s.keyCDerivation } .checkKeyCDerivationSent vcount

/-- The tail `GameCubeMultiBoot_CheckBootKeyResponse`. -/
def bootKeyResponse (s : Machine) (recv : Word) (vcount : BitVec 16) : Machine :=
  if recv >>> 24 ≠ 0xBB then intrStop s vcount
  else setInterruptHandler { s with bootKey := recv.setWidth 16 } .stopUnconditionally vcount

/-- The continuation handlers; a handler that waits for a send also takes a reply that is
already there, otherwise it leaves the reply to its second half. -/
def runHandler (s : Machine) (i : Interrupt) (vcount : BitVec 16) : Machine :=
  match s.serialIntrHandler with
  | .null => s
  | .stop => intrStop s vcount
  | .checkGameCodeSent =>
    if !i.sent then intrStop s vcount
    else if i.received then handshakeResponse s i.joyRecv vcount
    else setInterruptHandler s .checkHandshakeResponse vcount
  | .checkHandshakeResponse =>
    if !i.received then intrStop s vcount else handshakeResponse s i.joyRecv vcount
  | .receiveKeyA =>
    if !i.received then intrStop s vcount else receiveKeyA s i.joyRecv vcount
  | .checkKeyBSent =>
    if !i.sent then intrStop s vcount
    else if i.received then imageSizeResponse s i.joyRecv vcount
    else setInterruptHandler s .checkImageSizeResponse vcount
  | .checkImageSizeResponse =>
    if !i.received then intrStop s vcount else imageSizeResponse s i.joyRecv vcount
  | .checkImageResponse =>
    if !i.received then intrStop s vcount else imageResponse s i.joyRecv vcount
  | .checkCounter2Sent =>
    if !i.sent then intrStop s vcount else counter2Sent s vcount
  | .checkKeyCDerivationSent =>
    if !i.sent then intrStop s vcount
    else if i.received then bootKeyResponse s i.joyRecv vcount
    else setInterruptHandler s .checkBootKeyResponse vcount
  | .checkBootKeyResponse =>
    if !i.received then intrStop s vcount else bootKeyResponse s i.joyRecv vcount
  | .stopUnconditionally => intrStop s vcount

/-- `GameCubeMultiBoot_HandleSerialInterrupt`. -/
def handleSerialInterrupt (s : Machine) (joyCnt : BitVec 16) (joyRecv : Word)
    (vcount : BitVec 16) : Machine :=
  let i : Interrupt := ⟨joyCnt,joyRecv,s.joyTrans⟩
  let s := { s with joyCnt := joyCnt, counter1 := 0, seen := s.seen ++ [i] }
  if s.serialIntrHandler = .null then s
  else if i.reset then beginHandshake s vcount
  else runHandler s i vcount

/-- Comparison of the received header with the logo in the cartridge: 38 whole words,
then the word at 0x9C without its lowest byte. -/
def logoWordsMatch (logo : ℕ → Word) (mem : Word → Word) (base : Word) : Bool :=
  (List.range 38).all fun n => mem (base + 4 + BitVec.ofNat 32 (4*n)) == logo n

def logoLastMatch (logo : ℕ → Word) (mem : Word → Word) (base : Word) : Bool :=
  (mem (base + 0x9C) ^^^ logo 38) >>> 8 == 0

def sessionKeyNext (k : Word) : Word := kawa*k + 1

/-- The part of Main before the first logo match. The pointer moves as soon as the 38
words agree, also when the last one then does not. -/
def logoCheck (logo : ℕ → Word) (s : Machine) : Machine :=
  let r1 := s.curDestPtr - s.baseDestPtr
  if r1 = 0 then s
  else if r1 < logoEnd then s
  else if !logoWordsMatch logo s.mem s.baseDestPtr then init s
  else
    let s' := { s with baseDestPtr := s.baseDestPtr + logoEnd }
    if !logoLastMatch logo s.mem s.baseDestPtr then init s'
    else { s' with
      mbProgress := 1, hashVal := s.keyA ^^^ s.keyB, sessionKey := sessionKeyNext (s.keyA ^^^ s.keyB) }

/-- One turn of `GameCubeMultiBoot_Main_ImageDecryptHashLoop`. -/
def decryptStep (s : Machine) : Machine :=
  let plain := (s.mem s.baseDestPtr ^^^ s.sessionKey) + s.hashVal
  { s with
    mem := Function.update s.mem s.baseDestPtr plain
    stores := s.stores ++ [.decrypted s.baseDestPtr]
    baseDestPtr := s.baseDestPtr + 4
    hashVal := hashLoop (s.hashVal ^^^ plain)
    sessionKey := sessionKeyNext s.sessionKey }

/-- The loop up to the end pointer read on entry. -/
def decryptLoop (r12 : Word) : ℕ → Machine → Machine
  | 0, s => s
  | n+1, s => if s.baseDestPtr < r12 then decryptLoop r12 n (decryptStep s) else s

def generateKeyC (s : Machine) : Machine :=
  let keyC := (s.savedVCount.setWidth 32 <<< 24) - 1
  { s with keyC := keyC, keyCDerivation := (hash keyC s.hashVal <<< 8) + 0xFF }

/-- The part of Main after the decrypt loop. -/
def finishImage (s : Machine) : Machine :=
  if s.imageSize ≠ 0 then s
  else if s.curDestPtr ≠ s.baseDestPtr then s
  else if s.keyC = 0 then generateKeyC s
  else if s.bootKey = 0 then s
  else if s.bootKey.setWidth 32 ≠ hash 0xBB s.keyC then init s
  else { s with mbProgress := 2 }

def decryptImage (s : Machine) : Machine :=
  finishImage (decryptLoop s.curDestPtr (s.curDestPtr.toNat - s.baseDestPtr.toNat) s)

/-- `GameCubeMultiBoot_Main`. Without a handler, or once eleven calls have passed without
an interrupt, it starts over. -/
def main (logo : ℕ → Word) (s : Machine) : Machine :=
  if s.serialIntrHandler = .null then init s
  else
    let s := { s with counter2 := s.counter2 + 1 }
    if s.mbProgress = 2 then s
    else if 0xA < s.counter1 then init s
    else
      let s := { s with counter1 := s.counter1 + 1 }
      if s.mbProgress = 0 then logoCheck logo s else decryptImage s

inductive Event
  | init | main
  | serial (joyCnt : BitVec 16) (joyRecv : Word) (vcount : BitVec 16)
  deriving DecidableEq, Repr

def step (logo : ℕ → Word) (s : Machine) : Event → Machine
  | .init => init s
  | .main => main logo s
  | .serial joyCnt joyRecv vcount => handleSerialInterrupt s joyCnt joyRecv vcount

/-- Zeroed static data. -/
def blank : Machine where
  counter1 := 0
  counter2 := 0
  mbProgress := 0
  savedVCount := 0
  keyA := 0
  keyB := 0
  keyC := 0
  bootKey := 0
  imageSize := 0
  sessionKey := 0
  hashVal := 0
  keyCDerivation := 0
  baseDestPtr := 0
  curDestPtr := 0
  serialIntrHandler := .null
  mem := fun _ => 0
  rcnt := 0
  joyCnt := 0
  joyStat := 0
  joyTrans := 0
  ie := 0
  seen := []
  stores := []

/-- The first Init on a struct with arbitrary contents; the history starts here. -/
def boot (s : Machine) : Machine := init { s with stores := [] }

end MultiBoot
end AgbTools
