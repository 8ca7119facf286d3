import Mathlib.Data.BitVec
import Mathlib.Data.Vector.Basic
import Mathlib.Logic.Function.Basic
import AgbTools.Runs

/-! The driver of the wireless adapter: its requests, the timer interrupt and the serial
interrupt in both clock modes. Every call and every interrupt is one step; what the timer
does inside `handshake_wait` is part of the serial interrupt. -/
namespace AgbTools
namespace Stwi

abbrev Word := BitVec 32

/-- What a call of `callbackM` reports. -/
inductive Report
  | rejection | outcome | clockReset
  deriving DecidableEq, Repr

/-- History of the driver: accepted requests, commands put on the wire, decided outcomes,
callbacks, accesses of the packet buffers and the messages that were read to their end. -/
inductive Note
  | accepted (request : BitVec 8)
  | wire (command : Word)
  | settled
  | callM (report : Report) (command : BitVec 8) (code : BitVec 16)
  | callS (arg : Word)
  | rxStore (index : ℕ)
  | txLoad (index : ℕ)
  | complete (words length : ℕ)
  deriving DecidableEq, Repr

/-- `struct RfuStruct` with the serial registers. The packet buffers are total functions
here; whether an index stays inside their 29 words is read off `notes`, newest first.
`msgWords` and `msgLength` are history as well: the words stored of the message being read,
and the length byte of its header. -/
structure Driver where
  unk0 : Word
  txParams : BitVec 8
  unk5 : BitVec 8
  activeCommand : BitVec 8
  unk7 : BitVec 8
  unk8 : BitVec 8
  unk9 : BitVec 8
  timerState : Word
  timerActive : BitVec 8
  unk12 : BitVec 16
  msMode : BitVec 8
  unk15 : BitVec 8
  callbackM : Bool
  callbackS : Bool
  txPacket : ℕ → Word
  rxPacket : ℕ → Word
  unk2c : BitVec 8
  sioData : Word
  sioCnt : BitVec 16
  msgWords : ℕ
  msgLength : ℕ
  notes : List Note

/-- The start bit of SIOCNT: a transfer has been started and has not ended. -/
def Driver.busy (s : Driver) : Bool := s.sioCnt.getLsbD 7

def note (s : Driver) (n : Note) : Driver := { s with notes := n :: s.notes }

def callM (s : Driver) (r : Report) (command : BitVec 8) (code : BitVec 16) : Driver :=
  if s.callbackM then note s (.callM r command code) else s

def callS (s : Driver) (arg : Word) : Driver := if s.callbackS then note s (.callS arg) else s

/-- `STWI_init_all`. -/
def initAll (s : Driver) : Driver :=
  { s with
    msMode := 1, unk0 := 0, txParams := 0, unk5 := 0, unk7 := 0, unk8 := 0, unk9 := 0
    timerState := 0, timerActive := 0, unk12 := 0, unk15 := 0, unk2c := 0
    sioCnt := 0x5003, callbackM := false, callbackS := false
    msgWords := 0, msgLength := 0, notes := [] }

/-- The requests, named after the `STWI_send_` functions. -/
inductive Request
  | reset | linkStatus | versionStatus | systemStatus | slotStatus | configStatus
  | gameConfig (unk1 : List.Vector (BitVec 8) 16) (data : List.Vector (BitVec 8) 8)
  | systemConfig (unk1 : BitVec 16) (unk2 unk3 : BitVec 8)
  | scStart | scPolling | scEnd | spStart | spPolling | spEnd
  | cpStart (unk1 : BitVec 16) | cpPolling | cpEnd
  | dataTx (input : ℕ → Word) (size : BitVec 8)
  | dataTxAndChange (input : ℕ → Word) (size : BitVec 8)
  | dataRx | msChange
  | dataReadyAndChange (unk : BitVec 8)
  | disconnectedAndChange (unk0 unk1 : BitVec 8)
  | resumeRetransmitAndChange
  | disconnect (unk : BitVec 8)
  | testMode (unk0 unk1 : BitVec 8)
  | cprStart (unk0 unk1 : BitVec 16) (unk2 : BitVec 8) | cprPolling | cprEnd
  | stopMode

def Request.command : Request → BitVec 8
  | .reset => 0x10
  | .linkStatus => 0x11
  | .versionStatus => 0x12
  | .systemStatus => 0x13
  | .slotStatus => 0x14
  | .configStatus => 0x15
  | .gameConfig _ _ => 0x16
  | .systemConfig _ _ _ => 0x17
  | .scStart => 0x19
  | .scPolling => 0x1A
  | .scEnd => 0x1B
  | .spStart => 0x1C
  | .spPolling => 0x1D
  | .spEnd => 0x1E
  | .cpStart _ => 0x1F
  | .cpPolling => 0x20
  | .cpEnd => 0x21
  | .dataTx _ _ => 0x24
  | .dataTxAndChange _ _ => 0x25
  | .dataRx => 0x26
  | .msChange => 0x27
  | .dataReadyAndChange _ => 0x28
  | .disconnectedAndChange _ _ => 0x29
  | .disconnect _ => 0x30
  | .testMode _ _ => 0x31
  | .cprStart _ _ _ => 0x32
  | .cprPolling => 0x33
  | .cprEnd => 0x34
  | .resumeRetransmitAndChange => 0x37
  | .stopMode => 0x3D

/-- Four bytes in memory order as a word. -/
def packBytes (b0 b1 b2 b3 : BitVec 8) : Word := b3 ++ b2 ++ b1 ++ b0

def packWords : List (BitVec 8) → List Word
  | b0::b1::b2::b3::rest => packBytes b0 b1 b2 b3 :: packWords rest
  | _ => []

/-- Words that hold `size` bytes. -/
def wordCount (size : BitVec 8) : ℕ := size.toNat / 4 + if size.toNat % 4 = 0 then 0 else 1

/-- The parameter words a request puts behind the command word. -/
def Request.params : Request → List Word
  | .gameConfig unk1 data => packWords (unk1.toList ++ data.toList)
  | .systemConfig unk1 unk2 unk3 =>
    [packBytes unk3 unk2 (unk1.extractLsb' 0 8) (unk1.extractLsb' 8 8)]
  | .cpStart unk1 => [unk1.setWidth 32]
  | .dataTx input size | .dataTxAndChange input size => (List.range (wordCount size)).map input
  | .dataReadyAndChange unk => if unk = 0 then [] else [packBytes unk 0 0 0]
  | .disconnectedAndChange unk0 unk1 => [packBytes unk0 unk1 0 0]
  | .disconnect unk => [unk.setWidth 32]
  | .testMode unk0 unk1 => [unk0.setWidth 32 ||| unk1.setWidth 32 <<< 8]
  | .cprStart unk0 unk1 unk2 => [unk1.setWidth 32 ||| unk0.setWidth 32 <<< 16, unk2.setWidth 32]
  | _ => []

/-- `STWI_init`, with IME as it finds it. It returns whether the request is refused. -/
def init (s : Driver) (ime : Bool) (request : BitVec 8) : Driver × Bool :=
  if !ime then (callM { s with unk12 := 6 } .rejection request 6,true)
  else if s.unk2c = 1 then (callM { s with unk12 := 2, unk2c := 0 } .rejection request 2,true)
  else if s.msMode = 0 then (callM { s with unk12 := 4 } .rejection request 4,true)
  else
    (note { s with
      unk2c := 1, activeCommand := request, unk0 := 0, txParams := 0, unk5 := 0
      unk7 := 0, unk8 := 0, unk9 := 0, timerState := 0, timerActive := 0
      unk12 := 0, unk15 := 0, sioCnt := 0x5003 } (.accepted request),false)

/-- `STWI_start_Command`. -/
def startCommand (s : Driver) : Driver :=
  let command : Word :=
    0x99660000 ||| s.txParams.setWidth 32 <<< 8 ||| s.activeCommand.setWidth 32
  note { s with
    txPacket := Function.update s.txPacket 0 command, sioData := command
    unk0 := 0, unk5 := 1, sioCnt := 0x5083 } (.wire command)

/-- Store parameters behind the command word. -/
def fill (packet : ℕ → Word) (words : List Word) : ℕ → Word :=
  fun i => if i = 0 then packet 0 else words.getD (i-1) (packet i)

/-- The `STWI_send_` functions. -/
def send (s : Driver) (ime : Bool) (r : Request) : Driver :=
  let (s,refused) := init s ime r.command
  if refused then s
  else startCommand { s with
    txParams := BitVec.ofNat 8 r.params.length, txPacket := fill s.txPacket r.params }

/-- The time-outs of `STWI_set_timer` and what `timerState` becomes for them. -/
inductive Timeout
  | t50 | t80 | t100 | t130

def setTimer (s : Driver) : Timeout → Driver
  | .t50 => { s with timerState := 1 }
  | .t80 => { s with timerState := 2 }
  | .t100 => { s with timerState := 3 }
  | .t130 => { s with timerState := 4 }

def stopTimer (s : Driver) : Driver := { s with timerState := 0 }

/-- The commands after which the adapter becomes the clock master. -/
def changesClock (command : BitVec 8) : Bool :=
  command == 0x27 || command == 0x25 || command == 0x35 || command == 0x37

/-- `STWI_restart_Command`: two retries, then the failure is reported. -/
def restartCommand (s : Driver) : Driver :=
  if s.unk15 ≤ 1 then startCommand { s with unk15 := s.unk15 + 1 }
  else
    let s := callM (note { s with unk12 := 1, unk2c := 0 } .settled) .outcome s.activeCommand 1
    if changesClock s.activeCommand then s else { s with unk0 := 4 }

def resetClockCounter (s : Driver) : Driver :=
  { s with unk0 := 5, txParams := 0, unk5 := 0, sioData := 0x80000000, sioCnt := 0x5082 }

/-- `STWI_intr_timer`. -/
def intrTimer (s : Driver) : Driver :=
  if s.timerState = 2 then setTimer { s with timerActive := 1 } .t50
  else if s.timerState = 1 ∨ s.timerState = 4 then restartCommand (stopTimer s)
  else if s.timerState = 3 then
    callM (resetClockCounter (stopTimer { s with timerActive := 1 })) .clockReset 255 0
  else s

/-- How the polling in `handshake_wait` ends: the terminal reaches its level, it reaches it
just after the timer went off between the two tests of the loop, or only the timer goes off. -/
inductive Wait
  | reached | late | timedOut
  deriving DecidableEq, Repr

/-- `handshake_wait`; the result tells whether it gave up. -/
def handshakeWait (s : Driver) (w : Wait) : Driver × Bool :=
  if s.timerActive = 1 then ({ s with timerActive := 0 },true)
  else match w with
    | .reached => (s,false)
    | .late => (intrTimer s,false)
    | .timedOut => ({ intrTimer s with timerActive := 0 },true)

def storeRx (s : Driver) (i : BitVec 8) (w : Word) : Driver :=
  note { s with rxPacket := Function.update s.rxPacket i.toNat w, msgWords := s.msgWords + 1 }
    (.rxStore i.toNat)

/-- A message starts with its header in word 0. -/
def storeHeader (s : Driver) (w : Word) : Driver :=
  storeRx { s with msgWords := 0, msgLength := (w.extractLsb' 8 8).toNat } 0 w

def complete (s : Driver) : Driver := note s (.complete s.msgWords s.msgLength)

/-- State 0 of the clock master: the next word of the request, or the wait for its
acknowledgement. No result stands for a word that does not fit. -/
def masterSend (s : Driver) (w : Word) : Option Driver :=
  if w ≠ 0x80000000 then none
  else if s.unk5 ≤ s.txParams then
    some (note { s with sioData := s.txPacket s.unk5.toNat, unk5 := s.unk5 + 1 }
      (.txLoad s.unk5.toNat))
  else some { s with unk0 := 1, sioData := w }

/-- Stop reading once the index has passed the length byte. -/
def masterContinue (s : Driver) : Driver :=
  if s.unk7 < s.unk8 then complete { s with unk0 := 3 }
  else { s with unk0 := 2, sioData := 0x80000000 }

/-- State 1: the header of the acknowledgement. -/
def masterHeader (s : Driver) (w : Word) : Option Driver :=
  if w.extractLsb' 16 16 ≠ 0x9966 then none
  else some (masterContinue { storeHeader s w with
    unk8 := 1, unk9 := w.extractLsb' 0 8, unk7 := w.extractLsb' 8 8 })

/-- State 2: a further word of it. -/
def masterWord (s : Driver) (w : Word) : Driver :=
  masterContinue { storeRx s s.unk8 w with unk8 := s.unk8 + 1 }

/-- The first part of `sio32intr_clock_master`. -/
def masterReceive (s : Driver) (w : Word) : Option Driver :=
  if s.unk0 = 0 then masterSend s w
  else if s.unk0 = 1 then masterHeader s w
  else if s.unk0 = 2 then some (masterWord s w)
  else some s

/-- The acknowledgement is complete: the command has its outcome. -/
def masterFinish (s : Driver) : Driver :=
  let s :=
    if s.unk9 = 0xA5 ∨ s.unk9 = 0xA7 ∨ s.unk9 = 0xB5 ∨ s.unk9 = 0xB7 then
      { s with msMode := 0, sioData := 0x80000000, sioCnt := 0x5082, unk0 := 5 }
    else if s.unk9 = 0xEE then { s with sioCnt := 0x5003, unk0 := 4, unk12 := 3 }
    else { s with sioCnt := 0x5003, unk0 := 4 }
  callM (note { s with unk2c := 0 } .settled) .outcome s.activeCommand s.unk12

/-- `sio32intr_clock_master`. -/
def clockMaster (s : Driver) (w : Word) (w1 w2 : Wait) : Driver :=
  let s := setTimer s .t80
  match masterReceive s w with
  | none => setTimer (stopTimer s) .t130
  | some s =>
    let (s,gaveUp) := handshakeWait s w1
    if gaveUp then s
    else
      let (s,gaveUp) := handshakeWait { s with sioCnt := 0x500B } w2
      if gaveUp then s
      else
        let s := stopTimer s
        if s.unk0 = 3 then masterFinish s else { s with sioCnt := 0x5083 }

/-- `STWI_init_slave`. -/
def initSlave (s : Driver) : Driver :=
  { s with
    unk0 := 5, msMode := 0, txParams := 0, unk5 := 0, activeCommand := 0, unk7 := 0
    unk8 := 0, unk9 := 0, timerState := 0, timerActive := 0, unk12 := 0, unk15 := 0
    sioCnt := 0x5082 }

/-- Send back the word in the transmit packet. -/
def slaveReply (s : Driver) : Driver :=
  note { s with sioData := s.txPacket 0, unk8 := 1, unk0 := 7 } (.txLoad 0)

def slaveAccept (s : Driver) : Driver :=
  let s := { s with unk9 := s.activeCommand + 0x80 }
  slaveReply { s with
    txPacket := Function.update s.txPacket 0 (0x99660000 ||| s.unk9.setWidth 32), unk7 := 0 }

/-- An error reply of one word. -/
def slaveRefuse (s : Driver) : Driver :=
  let code : Word := if 0x10 ≤ s.activeCommand ∧ s.activeCommand ≤ 0x3D then 1 else 2
  slaveReply { s with
    txPacket := Function.update (Function.update s.txPacket 0 0x996601EE) 1 code
    unk7 := 1, unk12 := 3 }

/-- The adapter's request has been read to its end. The commands that may follow differ by
one between requests without and with parameters. -/
def slaveAnswer (s : Driver) (lowest : BitVec 8) : Driver :=
  if s.activeCommand = 0x36 ∨ (lowest ≤ s.activeCommand ∧ s.activeCommand ≤ 0x29) then
    slaveAccept (complete s)
  else slaveRefuse (complete s)

/-- State 5 of the clock slave: a header, stored before it is looked at. The result tells
whether the word fits. -/
def slaveHeader (s : Driver) (w : Word) : Driver × Bool :=
  let s := { storeHeader s w with unk5 := 1 }
  if w.extractLsb' 16 16 ≠ 0x9966 then (s,false)
  else
    let s := { s with txParams := w.extractLsb' 8 8, activeCommand := w.extractLsb' 0 8 }
    if s.txParams = 0 then (slaveAnswer s 0x27,true)
    else ({ s with sioData := 0x80000000, unk5 := 1, unk0 := 6 },true)

/-- State 6: a parameter. -/
def slaveWord (s : Driver) (w : Word) : Driver :=
  let s := { storeRx s s.unk5 w with unk5 := s.unk5 + 1 }
  if s.txParams < s.unk5 then slaveAnswer s 0x28 else { s with sioData := 0x80000000 }

/-- State 7: the reply goes out word by word. -/
def slaveSend (s : Driver) (w : Word) : Driver × Bool :=
  if w ≠ 0x80000000 then (s,false)
  else if s.unk7 < s.unk8 then ({ s with unk0 := 8 },true)
  else (note { s with sioData := s.txPacket s.unk8.toNat, unk8 := s.unk8 + 1 }
    (.txLoad s.unk8.toNat),true)

/-- The middle part of `sio32intr_clock_slave`. -/
def slaveReceive (s : Driver) (w : Word) : Driver × Bool :=
  if s.unk0 = 5 then slaveHeader s w
  else if s.unk0 = 6 then (slaveWord s w,true)
  else if s.unk0 = 7 then slaveSend s w
  else (s,true)

/-- The last part: a reply that was sent ends the exchange, otherwise the next transfer is
prepared. -/
def slaveFinish (s : Driver) : Driver :=
  if s.unk0 = 8 then
    let s := stopTimer { s with sioCnt := 0x5002 }
    if s.unk12 = 3 then callS (initSlave s) 0x1EE
    else
      let s := { s with sioData := 0, sioCnt := 0x5003, msMode := 1, unk0 := 0 }
      callS s (s.activeCommand.setWidth 32 ||| s.txParams.setWidth 32 <<< 8)
  else { s with sioCnt := 0x5082 }

/-- `sio32intr_clock_slave`. -/
def clockSlave (s : Driver) (w : Word) (w1 w2 : Wait) : Driver :=
  let s := setTimer { s with timerActive := 0 } .t100
  let (s,gaveUp) := handshakeWait s w1
  if gaveUp then s
  else
    let (s,fits) := slaveReceive { s with sioCnt := 0x500A } w
    if !fits then setTimer (stopTimer s) .t100
    else
      let (s,gaveUp) := handshakeWait s w2
      if gaveUp then s else slaveFinish s

/-- `IntrSIO32`, when a transfer ends. State 10 belongs to the identification of the adapter
and is left to its own callback. -/
def intrSIO32 (s : Driver) (w : Word) (w1 w2 : Wait) : Driver :=
  let s := { s with sioCnt := s.sioCnt &&& ~~~0x80 }
  if s.unk0 = 10 then s
  else if s.msMode = 1 then clockMaster s w w1 w2
  else clockSlave s w w1 w2

inductive Event
  | request (ime : Bool) (r : Request)
  | timer
  | serial (w : Word) (w1 w2 : Wait)
  | setCallbackM (set : Bool)
  | setCallbackS (set : Bool)

/-- The serial unit raises its interrupt at the end of a started transfer only. -/
def step (s : Driver) : Event → Driver
  | .request ime r => send s ime r
  | .timer => intrTimer s
  | .serial w w1 w2 => if s.busy then intrSIO32 s w w1 w2 else s
  | .setCallbackM set => { s with callbackM := set }
  | .setCallbackS set => { s with callbackS := set }

/-- Zeroed static data. -/
def blank : Driver where
  unk0 := 0
  txParams := 0
  unk5 := 0
  activeCommand := 0
  unk7 := 0
  unk8 := 0
  unk9 := 0
  timerState := 0
  timerActive := 0
  unk12 := 0
  msMode := 0
  unk15 := 0
  callbackM := false
  callbackS := false
  txPacket := fun _ => 0
  rxPacket := fun _ => 0
  unk2c := 0
  sioData := 0
  sioCnt := 0
  msgWords := 0
  msgLength := 0
  notes := []

end Stwi
end AgbTools
