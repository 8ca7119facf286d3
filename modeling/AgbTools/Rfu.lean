import Mathlib.Data.BitVec
import Mathlib.Data.Fintype.Basic
import Mathlib.Logic.Function.Basic
import AgbTools.CellMemory

/-! The slots of the wireless library: link status, slot tables, and the calls that set,
change and clear sends and receives. A call with interrupts off is one step. -/
namespace AgbTools
namespace Rfu

abbrev Byte := BitVec 8

/-- Numerals of slots share one proof that there are any. -/
scoped instance slot_neZero : NeZero 4 := ⟨by decide⟩

/-- Likewise for the bytes of a game name. -/
scoped instance name_neZero : NeZero 13 := ⟨by decide⟩

/-- Byte 0 of the link status: 1, 0 or 0xFF. -/
inductive Mode
  | parent | child | off
  deriving DecidableEq, Repr

/-- A row of `_Str_RfuHeader`: header size, the shifts of the fields and their masks. -/
structure RfuHeader where
  size : ℕ
  frameShift : ℕ
  slotShift : ℕ
  stateShift : ℕ
  ackShift : ℕ
  phaseShift : ℕ
  nShift : ℕ
  frameMask : ℕ
  slotMask : ℕ
  stateMask : ℕ
  ackMask : ℕ
  phaseMask : ℕ
  nMask : ℕ
  sizeMask : ℕ

def childHeader : RfuHeader := ⟨2,14,0,10,9,5,7,2,0,15,1,3,3,31⟩
def parentHeader : RfuHeader := ⟨3,22,18,14,13,9,11,3,15,15,1,3,3,0x7F⟩

/-- The row the sending side uses. Nothing is sent in mode 0xFF. -/
def Mode.header : Mode → RfuHeader
  | .parent => parentHeader
  | .child => childHeader
  | .off => childHeader

/-- A sub-frame pointer: into the seven bytes of control data of the slot itself (+0x2D),
or to an address outside the slot. -/
inductive Ptr
  | control (offset : ℕ)
  | data (address : ℕ)
  deriving DecidableEq, Repr

def Ptr.add : Ptr → ℕ → Ptr
  | .control o, k => .control (o+k)
  | .data a, k => .data (a+k)

/-- One half (send or receive) of an NI slot. `bmSlot` is the mask at +0x1A, `origSlot` the
one at +0x2C, `acks`, `n` and `ptr` hold one entry for each of the four phases. -/
structure NiSlot where
  state : BitVec 16
  failCounter : BitVec 16
  ptr : Fin 4 → Ptr
  remain : ℤ
  errorCode : BitVec 16
  bmSlot : Byte
  acks : Fin 4 → Byte
  ack : Bool
  phase : Fin 4
  n : Fin 4 → Fin 4
  src : ℕ
  origSlot : Byte
  dataType : Byte
  payloadSize : ℕ
  dataSize : ℕ

/-- Send half of a UNI slot. -/
structure UniSlot where
  state : BitVec 16
  ready : Bool
  bmSlot : Byte
  payloadSize : ℕ
  src : ℕ

/-- Receive half of a UNI slot. -/
structure UniRecv where
  state : BitVec 16
  errorCode : BitVec 16
  dataSize : ℕ
  newData : Bool
  protect : Bool

structure RecvBuffer where
  address : ℕ
  size : ℕ

/-- Slots filled with zero bytes. -/
def NiSlot.zero : NiSlot :=
  ⟨0,0,fun _ => .data 0,0,0,0,fun _ => 0,false,0,fun _ => 0,0,0,0,0,0⟩
def UniSlot.zero : UniSlot := ⟨0,false,0,0,0⟩
def UniRecv.zero : UniRecv := ⟨0,0,0,false,false⟩

/-- One console. The first fields are the bytes 0, 2, 3, 4, 5, 6, 7, 0xE, 0xF and 0x10 to
0x13 of the link status; `child` is bit 0x80 of the fixed data, `recvEnd`, `commAck` and
`recvErr` are its bytes 1, 2 and 4. -/
structure Station where
  mode : Mode
  connSlot : Byte
  linkLoss : Byte
  niSendFlag : Byte
  niRecvFlag : Byte
  uniSendFlag : Byte
  nameFlag : Byte
  frameReady : Byte
  parentFrame : ℕ
  childFrame : Fin 4 → ℕ
  child : Bool
  recvEnd : Byte
  commAck : Byte
  recvErr : Byte
  niSend : Fin 4 → NiSlot
  niRecv : Fin 4 → NiSlot
  niBuffer : Fin 4 → RecvBuffer
  uniSend : Fin 4 → UniSlot
  uniRecv : Fin 4 → UniRecv
  uniBuffer : Fin 4 → RecvBuffer
  linkAddress : ℕ
  mem : ℕ → Byte

/-- Bit 0x8000 of a slot state. -/
def NiSlot.active (x : NiSlot) : Bool := x.state.getLsbD 15
def UniSlot.active (x : UniSlot) : Bool := x.state.getLsbD 15

@[simp] theorem NiSlot.active_zero : NiSlot.zero.active = false := rfl
@[simp] theorem UniSlot.active_zero : UniSlot.zero.active = false := rfl

/-- The mask of one slot. -/
def bit (i : Fin 4) : Byte := 1#8 <<< (i : ℕ)

@[simp] theorem getLsbD_bit (i : Fin 4) (b : ℕ) : (bit i).getLsbD b = decide (b = i) := by
  have hi := i.isLt
  simp only [bit,BitVec.getLsbD_shiftLeft,BitVec.getLsbD_one]
  by_cases hb : b = i
  · subst hb
    simp
    omega
  · simp [hb]
    omega

/-- `rfu_clearAllSlot`. -/
def clearAllSlot (s : Station) : Station :=
  { s with
    niSend := fun _ => .zero, niRecv := fun _ => .zero
    uniSend := fun _ => .zero, uniRecv := fun _ => .zero
    childFrame := fun _ => 0x10, parentFrame := 0x57
    niSendFlag := 0, niRecvFlag := 0, uniSendFlag := 0, commAck := 0 }

/-- `rfu_initializeAPI` on memory that holds `mem`, with its work area at `address`. -/
def initializeAPI (address : ℕ) (mem : ℕ → Byte) : Station where
  mode := .off
  connSlot := 0
  linkLoss := 0
  niSendFlag := 0
  niRecvFlag := 0
  uniSendFlag := 0
  nameFlag := 0
  frameReady := 0
  parentFrame := 0x57
  childFrame := fun _ => 0x10
  child := false
  recvEnd := 0
  commAck := 0
  recvErr := 0
  niSend := fun _ => .zero
  niRecv := fun _ => .zero
  niBuffer := fun _ => ⟨0,0⟩
  uniSend := fun _ => .zero
  uniRecv := fun _ => .zero
  uniBuffer := fun _ => ⟨0,0⟩
  linkAddress := address
  mem := mem

/-- `rfu_STC_releaseFrame`: a send gives back its payload and a header, a receive only the
header. -/
def releaseFrame (s : Station) (slot : Fin 4) (recv : Bool) (x : NiSlot) : Station :=
  let payload := if recv then 0 else x.payloadSize
  if s.child then
    let v := (s.childFrame slot + payload + 2) % 256
    { s with childFrame := Function.update s.childFrame slot v }
  else
    { s with parentFrame := (s.parentFrame + payload + 3) % 256 }

/-- The budget byte a call takes from. -/
def frameSize (s : Station) (slot : Fin 4) : ℕ :=
  if s.mode = .parent then s.parentFrame else s.childFrame slot

def setFrameSize (s : Station) (slot : Fin 4) (v : ℕ) : Station :=
  if s.mode = .parent then { s with parentFrame := v }
  else { s with childFrame := Function.update s.childFrame slot v }

section Frames
variable (s : Station) (i : Fin 4) (recv : Bool) (x : NiSlot) (v : ℕ)

/-- Only the budget bytes change. -/
theorem releaseFrame_eq : ∃ p c, releaseFrame s i recv x =
    { s with parentFrame := p, childFrame := c } := by
  unfold releaseFrame
  dsimp only
  split_ifs
  all_goals exact ⟨_,_,rfl⟩

theorem setFrameSize_eq : ∃ p c, setFrameSize s i v =
    { s with parentFrame := p, childFrame := c } := by
  unfold setFrameSize
  split_ifs
  all_goals exact ⟨_,_,rfl⟩

@[simp] theorem releaseFrame_niSend : (releaseFrame s i recv x).niSend = s.niSend := by
  obtain ⟨p,c,h⟩ := releaseFrame_eq s i recv x
  rw [h]

@[simp] theorem releaseFrame_niRecv : (releaseFrame s i recv x).niRecv = s.niRecv := by
  obtain ⟨p,c,h⟩ := releaseFrame_eq s i recv x
  rw [h]

@[simp] theorem releaseFrame_uniSend : (releaseFrame s i recv x).uniSend = s.uniSend := by
  obtain ⟨p,c,h⟩ := releaseFrame_eq s i recv x
  rw [h]

@[simp] theorem releaseFrame_flags :
    (releaseFrame s i recv x).niSendFlag = s.niSendFlag ∧
      (releaseFrame s i recv x).niRecvFlag = s.niRecvFlag ∧
      (releaseFrame s i recv x).uniSendFlag = s.uniSendFlag := by
  obtain ⟨p,c,h⟩ := releaseFrame_eq s i recv x
  rw [h]
  exact ⟨rfl,rfl,rfl⟩

@[simp] theorem releaseFrame_role :
    (releaseFrame s i recv x).mode = s.mode ∧ (releaseFrame s i recv x).child = s.child := by
  obtain ⟨p,c,h⟩ := releaseFrame_eq s i recv x
  rw [h]
  exact ⟨rfl,rfl⟩

@[simp] theorem setFrameSize_niSend : (setFrameSize s i v).niSend = s.niSend := by
  obtain ⟨p,c,h⟩ := setFrameSize_eq s i v
  rw [h]

@[simp] theorem setFrameSize_niRecv : (setFrameSize s i v).niRecv = s.niRecv := by
  obtain ⟨p,c,h⟩ := setFrameSize_eq s i v
  rw [h]

@[simp] theorem setFrameSize_uniSend : (setFrameSize s i v).uniSend = s.uniSend := by
  obtain ⟨p,c,h⟩ := setFrameSize_eq s i v
  rw [h]

@[simp] theorem setFrameSize_flags :
    (setFrameSize s i v).niSendFlag = s.niSendFlag ∧
      (setFrameSize s i v).niRecvFlag = s.niRecvFlag ∧
      (setFrameSize s i v).uniSendFlag = s.uniSendFlag := by
  obtain ⟨p,c,h⟩ := setFrameSize_eq s i v
  rw [h]
  exact ⟨rfl,rfl,rfl⟩

@[simp] theorem setFrameSize_role :
    (setFrameSize s i v).mode = s.mode ∧ (setFrameSize s i v).child = s.child := by
  obtain ⟨p,c,h⟩ := setFrameSize_eq s i v
  rw [h]
  exact ⟨rfl,rfl⟩

end Frames

section ClearSlot

/-- The NI send half: the flags of the original targets go, whatever the state is. -/
def clearNiSend (s : Station) (slot : Fin 4) : Station :=
  let x := s.niSend slot
  let s := { s with niSendFlag := s.niSendFlag &&& ~~~x.origSlot }
  let s := if x.active then releaseFrame s slot false x else s
  { s with niSend := Function.update s.niSend slot .zero }

def clearNiRecv (s : Station) (slot : Fin 4) : Station :=
  let x := s.niRecv slot
  let s := { s with niRecvFlag := s.niRecvFlag &&& ~~~bit slot }
  let s := if x.active then releaseFrame s slot true x else s
  { s with niRecv := Function.update s.niRecv slot .zero }

def releaseUni (s : Station) (slot : Fin 4) (x : UniSlot) : Station :=
  let v := (s.childFrame slot + 2 + x.payloadSize) % 256
  let s := if s.child then { s with childFrame := Function.update s.childFrame slot v }
    else { s with parentFrame := (s.parentFrame + 3 + x.payloadSize) % 256 }
  { s with uniSendFlag := s.uniSendFlag &&& ~~~x.bmSlot }

def clearUniSend (s : Station) (slot : Fin 4) : Station :=
  let x := s.uniSend slot
  let s := if x.active then releaseUni s slot x else s
  { s with uniSend := Function.update s.uniSend slot .zero }

def clearUniRecv (s : Station) (slot : Fin 4) : Station :=
  { s with uniRecv := Function.update s.uniRecv slot .zero }

/-- `rfu_clearSlot`. Bits 4, 8, 1 and 2 of `kinds` name the halves. -/
def clearSlot (s : Station) (kinds slot : Byte) : BitVec 16 × Station :=
  if h : slot.toNat < 4 then
    if kinds &&& 0xF = 0 then (0x600,s)
    else
      let i : Fin 4 := ⟨slot.toNat,h⟩
      let s := if kinds.getLsbD 2 then clearNiSend s i else s
      let s := if kinds.getLsbD 3 then clearNiRecv s i else s
      let s := if kinds.getLsbD 0 then clearUniSend s i else s
      let s := if kinds.getLsbD 1 then clearUniRecv s i else s
      (0,s)
  else (0x400,s)

end ClearSlot

/-- `rfu_setRecvBuffer`. -/
def setRecvBuffer (s : Station) (kind slot : Byte) (address size : ℕ) : BitVec 16 × Station :=
  if h : slot.toNat < 4 then
    let i : Fin 4 := ⟨slot.toNat,h⟩
    if kind.getLsbD 5 then (0,{ s with niBuffer := Function.update s.niBuffer i ⟨address,size⟩ })
    else if kind.getLsbD 4 then
      (0,{ s with uniBuffer := Function.update s.uniBuffer i ⟨address,size⟩ })
    else (0x600,s)
  else (0x400,s)

section SetSendData

/-- The kinds 0x20, 0x40 and 0x10 the callers of `rfu_STC_setSendData_org` pass. -/
inductive SendKind
  | ni | gameName | uni
  deriving DecidableEq, Repr

/-- The flag byte a request is checked against. -/
def sendFlag (s : Station) : SendKind → Byte
  | .uni => s.uniSendFlag
  | .ni | .gameName => s.niSendFlag

/-- The slot of a request: its lowest target. -/
def lowestSlot (bm : Byte) : Fin 4 :=
  if bm.getLsbD 0 then 0 else if bm.getLsbD 1 then 1 else if bm.getLsbD 2 then 2 else 3

/-- The checks of `rfu_STC_setSendData_org`, in its order; 0 when all pass. -/
def sendError (s : Station) (k : SendKind) (bm size : Byte) : BitVec 16 :=
  if s.mode = .off then 0x301
  else if bm &&& 0xF = 0 then 0x400
  else if (s.connSlot ||| s.linkLoss) &&& bm ≠ bm then 0x401
  else if sendFlag s k &&& bm ≠ 0 then 0x402
  else if frameSize s (lowestSlot bm) < size.toNat ∨ size.toNat ≤ s.mode.header.size then 0x500
  else 0

def clearFailCounters (slots : Fin 4 → NiSlot) (bm : Byte) : Fin 4 → NiSlot :=
  fun i => if bm.getLsbD i then { slots i with failCounter := 0 } else slots i

/-- The slot of an accepted NI send, on top of what was left in it. -/
def NiSlot.startSend (x : NiSlot) (bm dataType : Byte) (payload src dataSize : ℕ) : NiSlot :=
  { x with
    errorCode := 0, ptr := Function.update x.ptr 0 (.control 0), remain := 7
    origSlot := bm, bmSlot := bm, payloadSize := payload, dataType := dataType
    dataSize := dataSize, src := src, ack := false, phase := 0
    acks := fun _ => 0, n := fun _ => 1, state := 0x8021 }

def startNi (s : Station) (bm size dataType : Byte) (src dataSize : ℕ) : Station :=
  let slot := lowestSlot bm
  let payload := size.toNat - s.mode.header.size
  let x := (s.niSend slot).startSend bm dataType payload src dataSize
  let free := (frameSize s slot + 256 - size.toNat) % 256
  setFrameSize
    { s with
      niSend := clearFailCounters (Function.update s.niSend slot x) bm
      niSendFlag := bm ||| s.niSendFlag }
    slot free

def startUni (s : Station) (bm size : Byte) (src : ℕ) : Station :=
  let slot := lowestSlot bm
  let payload := size.toNat - s.mode.header.size
  let x := { s.uniSend slot with bmSlot := bm, src := src, payloadSize := payload, state := 0x8024 }
  let free := (frameSize s slot + 256 - size.toNat) % 256
  setFrameSize
    { s with
      uniSend := Function.update s.uniSend slot x
      uniSendFlag := bm ||| s.uniSendFlag }
    slot free

/-- `rfu_STC_setSendData_org`. -/
def setSendDataOrg (s : Station) (k : SendKind) (bm size : Byte) (src dataSize : ℕ) :
    BitVec 16 × Station :=
  let e := sendError s k bm size
  if e ≠ 0 then (e,s)
  else match k with
    | .ni => (0,startNi s bm size 0 src dataSize)
    | .gameName => (0,startNi s bm size 1 src dataSize)
    | .uni => (0,startUni s bm size src)

/-- `rfu_NI_setSendData`. -/
def niSetSendData (s : Station) (bm size : Byte) (src dataSize : ℕ) : BitVec 16 × Station :=
  setSendDataOrg s .ni bm size src dataSize

/-- The size byte `rfu_UNI_setSendData` asks for. -/
def uniSize (s : Station) (size : Byte) : Byte :=
  if s.mode = .parent then size+3 else size+2

/-- `rfu_UNI_setSendData`. -/
def uniSetSendData (s : Station) (bm : Byte) (src : ℕ) (size : Byte) : BitVec 16 × Station :=
  setSendDataOrg s .uni bm (uniSize s size) src 0

/-- `rfu_NI_CHILD_setSendGameName`. A slot number above 7 shifts the target out. -/
def niChildSetSendGameName (s : Station) (slot size : Byte) : BitVec 16 × Station :=
  setSendDataOrg s .gameName (1#8 <<< slot.toNat) size (s.linkAddress + 0x98) 0x1A

end SetSendData

section ChangeSendTarget

/-- The OR of the masks of the other UNI slots. -/
def otherUniSlots (s : Station) (slot : Fin 4) : Byte :=
  (List.finRange 4).foldl (fun m i => if i = slot then m else m ||| (s.uniSend i).bmSlot) 0

def shrinkNi (s : Station) (slot : Fin 4) (bm : Byte) : Station :=
  let x := s.niSend slot
  let diff := bm ^^^ x.bmSlot
  let s := { s with
    niSend := clearFailCounters s.niSend diff
    niSendFlag := ~~~diff &&& s.niSendFlag }
  let s := { s with niSend := Function.update s.niSend slot { s.niSend slot with bmSlot := bm } }
  if bm = 0 then
    let s := releaseFrame s slot false (s.niSend slot)
    { s with niSend := Function.update s.niSend slot { s.niSend slot with state := 0x27 } }
  else s

def changeNi (s : Station) (slot : Fin 4) (bm : Byte) : BitVec 16 × Station :=
  let x := s.niSend slot
  let diff := bm ^^^ x.bmSlot
  if x.state &&& 0x8020 ≠ 0x8020 then (0x403,s)
  else if diff &&& bm ≠ 0 then (0x404,s)
  else if diff = 0 then (0,s)
  else (0,shrinkNi s slot bm)

def changeUni (s : Station) (slot : Fin 4) (bm : Byte) : BitVec 16 × Station :=
  let x := s.uniSend slot
  if x.state ≠ 0x8024 then (0x403,s)
  else if bm &&& otherUniSlots s slot ≠ 0 then (0x404,s)
  else
    (0,{ s with
      uniSendFlag := bm ||| (s.uniSendFlag &&& ~~~x.bmSlot)
      uniSend := Function.update s.uniSend slot { x with bmSlot := bm } })

/-- `rfu_changeSendTarget`. -/
def changeSendTarget (s : Station) (kind slot bm : Byte) : BitVec 16 × Station :=
  if h : slot.toNat < 4 then
    if kind = 0x20 then changeNi s ⟨slot.toNat,h⟩ bm
    else if kind = 0x10 then changeUni s ⟨slot.toNat,h⟩ bm
    else (0x600,s)
  else (0x400,s)

end ChangeSendTarget

/-- `rfu_NI_stopReceivingData`. -/
def niStopReceivingData (s : Station) (slot : Byte) : BitVec 16 × Station :=
  if h : slot.toNat < 4 then
    let i : Fin 4 := ⟨slot.toNat,h⟩
    let x := s.niRecv i
    if x.active then
      let x' := { x with state := if x.state = 0x8043 then 0x48 else 0x47 }
      let s := { s with
        niRecv := Function.update s.niRecv i x'
        niRecvFlag := s.niRecvFlag &&& ~~~bit i }
      (0,releaseFrame s i true x')
    else (0,s)
  else (0x400,s)

/-- `rfu_UNI_changeAndReadySendData`. -/
def uniChangeAndReadySendData (s : Station) (slot : Byte) (src : ℕ) (size : Byte) :
    BitVec 16 × Station :=
  if h : slot.toNat < 4 then
    let i : Fin 4 := ⟨slot.toNat,h⟩
    let x := s.uniSend i
    let free := (x.payloadSize + frameSize s i) % 256
    if x.state ≠ 0x8024 then (0x403,s)
    else if free < size.toNat then (0x500,s)
    else
      let x' := { x with src := src, payloadSize := size.toNat, ready := true }
      (0,setFrameSize { s with uniSend := Function.update s.uniSend i x' } i (free - size.toNat))
  else (0x400,s)

/-- `rfu_UNI_readySendData`. -/
def uniReadySendData (s : Station) (slot : Byte) : Station :=
  if h : slot.toNat < 4 then
    let i : Fin 4 := ⟨slot.toNat,h⟩
    let x := s.uniSend i
    if x.state = 0x8024 then
      { s with uniSend := Function.update s.uniSend i { x with ready := true } }
    else s
  else s

/-- `rfu_UNI_clearRecvNewDataFlag`. -/
def uniClearRecvNewDataFlag (s : Station) (slot : Byte) : Station :=
  if h : slot.toNat < 4 then
    let i : Fin 4 := ⟨slot.toNat,h⟩
    { s with uniRecv := Function.update s.uniRecv i { s.uniRecv i with newData := false } }
  else s

section Completion

/-- An NI send in state 0x8020 has been acknowledged to its end. -/
def finishSend (s : Station) (i : Fin 4) : Station :=
  let x := s.niSend i
  if x.state = 0x8020 then
    let s := releaseFrame s i false x
    { s with
      niSendFlag := s.niSendFlag &&& ~~~x.bmSlot
      nameFlag := if x.dataType = 1 then bit i ||| s.nameFlag else s.nameFlag
      niSend := Function.update s.niSend i { x with state := 0x26 } }
  else s

def cbSendDataSlot (s : Station) (i : Fin 4) : Station :=
  finishSend { s with
    uniSend := Function.update s.uniSend i { s.uniSend i with ready := false } } i

/-- `rfu_CB_sendData` with the result of the request; the callback it ends in is not part of
the slots. -/
def cbSendData (s : Station) (result : BitVec 16) : Station :=
  let s := if result = 0 then (List.finRange 4).foldl cbSendDataSlot s else s
  { s with frameReady := 0 }

end Completion

section LinkChanges

/-- An entry of the child list in `rfu_STC_readChildList`. -/
def readChild (s : Station) (i : Fin 4) : Station :=
  if s.connSlot.getLsbD i ∨ s.linkLoss.getLsbD i then s
  else { s with connSlot := bit i ||| s.connSlot, mode := .parent, child := false }

/-- `rfu_CB_pollConnectParent` when the adapter reports the connection. -/
def connectParent (s : Station) (i : Fin 4) : Station :=
  if s.connSlot.getLsbD i then s
  else
    { s with
      connSlot := bit i ||| s.connSlot, linkLoss := s.linkLoss &&& ~~~bit i
      mode := .child, child := true }

/-- `rfu_STC_removeLinkData`. -/
def removeLinkData (s : Station) (i : Fin 4) (forget : Bool) : Station :=
  let conn := ~~~bit i &&& s.connSlot
  let s := { s with
    connSlot := conn, linkLoss := bit i ||| s.linkLoss
    mode := if s.mode = .child ∧ conn = 0 then .off else s.mode }
  if forget then
    { s with
      linkLoss := ~~~bit i &&& s.linkLoss, nameFlag := ~~~bit i &&& s.nameFlag
      mem := CellMemory.write s.mem (s.linkAddress + 0x14 + 0x20*i) (List.replicate 0x20 0) }
  else s

end LinkChanges

end Rfu
end AgbTools
