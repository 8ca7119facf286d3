import AgbTools.RfuSlots

/-! Where the bytes of received sub-frames go: the copies the receive routines make, and when
they stay inside the areas that are meant for them. -/
namespace AgbTools
namespace Rfu

open Framing

section Copies

/-- What a copy may write to: the seven bytes of control data of the slot, or a piece of
memory. -/
inductive Area
  | control
  | memory (b : RecvBuffer)

/-- The byte at a pointer is part of the area. -/
def Area.Holds : Area → Ptr → Prop
  | .control, .control o => o < 7
  | .memory b, .data a => b.address ≤ a ∧ a < b.address + b.size
  | _, _ => False

instance : (area : Area) → (q : Ptr) → Decidable (area.Holds q)
  | .control, .control o => inferInstanceAs (Decidable (o < 7))
  | .memory b, .data a => inferInstanceAs (Decidable (b.address ≤ a ∧ a < b.address + b.size))
  | .control, .data _ => .isFalse id
  | .memory _, .control _ => .isFalse id

/-- A copy of received bytes. -/
structure Copy where
  dest : Ptr
  length : ℕ
  area : Area

/-- Every byte it writes lands inside its area. -/
def Copy.Inside (c : Copy) : Prop := ∀ j < c.length, c.area.Holds (c.dest.add j)

instance (c : Copy) : Decidable c.Inside :=
  inferInstanceAs (Decidable (∀ j < c.length, c.area.Holds (c.dest.add j)))

/-- The record of slot `i` in the link status behind its first four bytes. -/
def nameRecord (s : Station) (i : Fin 4) : RecvBuffer := ⟨s.linkAddress + 0x14 + 0x20*i + 4,0x1C⟩

/-- The area of the data stage: a name goes to its record, other data to the registered
buffer. -/
def dataArea (s : Station) (i : Fin 4) : RecvBuffer :=
  if (s.niRecv i).dataType = 1 then nameRecord s i else s.niBuffer i

def recvArea (s : Station) (i : Fin 4) : Area :=
  if (s.niRecv i).state = 0x8041 then .control else .memory (dataArea s i)

/-- The copy of `receiveData`. -/
def dataCopies (s : Station) (i : Fin 4) (f : SubFrame) : List Copy :=
  if f.n = (s.niRecv i).n f.phase + 1 then
    [⟨(s.niRecv i).ptr f.phase,f.payload.length,recvArea s i⟩]
  else []

/-- The copy `rfu_STC_NI_receive_Receiver` makes, after the change of the stage. -/
def niCopies (s : Station) (i : Fin 4) (f : SubFrame) : List Copy :=
  match receiverStage s i f with
  | (s,some true) => dataCopies s i f
  | _ => []

/-- The copy `rfu_STC_UNI_receive` makes. -/
def uniCopies (s : Station) (i : Fin 4) (f : SubFrame) : List Copy :=
  let c : Copy := ⟨.data (s.uniBuffer i).address,f.payload.length,.memory (s.uniBuffer i)⟩
  if (s.uniBuffer i).size < f.payload.length then []
  else if (s.uniRecv i).newData ∧ (s.uniRecv i).protect then []
  else [c]

def parentCopies (s : Station) (r : Fin 4 × SubFrame) : List Copy :=
  if r.2.frame ≠ 0 ∨ s.connSlot.getLsbD r.1 = false then []
  else if r.2.state = 4 then uniCopies s r.1 r.2
  else if r.2.ack = false then niCopies s r.1 r.2
  else []

def childSlotCopies (f : SubFrame) (bm : Byte) (s : Station) (i : Fin 4) : List Copy :=
  if bm.getLsbD i = false then []
  else if f.state = 4 then uniCopies s i f
  else if f.ack = false then niCopies s i f
  else []

def childCopies (s : Station) (f : SubFrame) : List Copy :=
  let bm := s.connSlot &&& BitVec.ofNat 8 f.bmSlot
  if f.frame ≠ 0 then []
  else Runs.trace (childDispatchSlot f bm) (childSlotCopies f bm) s (List.finRange 4)

/-- The stations the two analyses start from. -/
def parentStart (s : Station) (word : ℕ) : Station :=
  let ended := (List.finRange 4).foldl
    (fun m i => if slotLength word i = 0 then bit i ||| m else m) 0
  { s with recvEnd := ended }

def childStart (s : Station) (word : ℕ) : Station :=
  { s with recvEnd := if word &&& 0x7F = 0 then 0xF else 0 }

def parentStep (s : Station) (r : Fin 4 × SubFrame) : Station := parentDispatch s r.1 r.2

/-- The copies of one event, in order. -/
def copies (s : Station) : Event → List Copy
  | .cbRecvData word buf =>
    if s.mode = .parent then
      Runs.trace parentStep parentCopies (parentStart s word) (parentReadPacket word buf).1.records
    else Runs.trace childDispatch childCopies (childStart s word) (childReadPacket word buf).records
  | _ => []

theorem cbRecvData_eq (s : Station) (word : ℕ) (buf : ℕ → Byte) :
    cbRecvData s word buf = (List.finRange 4).foldl finishRecv
      (if s.mode = .parent then
        Runs.run parentStep (parentStart s word) (parentReadPacket word buf).1.records
      else Runs.run childDispatch (childStart s word) (childReadPacket word buf).records) := rfl

end Copies

section Guard

/-- The slot takes control data: it is in the control stage, or unused with room for a header
in the budget. -/
def TakesControl (s : Station) (i : Fin 4) : Prop :=
  (s.niRecv i).state = 0x8041 ∨
    (s.niRecv i).state = 0 ∧ (if s.mode = .parent then 3 else 2) ≤ frameSize s i

instance (s : Station) (i : Fin 4) : Decidable (TakesControl s i) :=
  inferInstanceAs (Decidable (_ ∨ _ ∧ _))

/-- What is missing of the seven bytes of control data. -/
def NiSlot.controlLeft (x : NiSlot) : ℤ := if x.state = 0x8041 then x.remain else 7

/-- A data sub-frame finds the slot with complete control data that it accepts. -/
def StartsData (s : Station) (i : Fin 4) : Prop :=
  (s.niRecv i).state = 0x8041 ∧ (s.niRecv i).remain = 0 ∧
    ((s.niRecv i).dataType = 1 ∨ (s.niRecv i).dataSize ≤ (s.niBuffer i).size)

instance (s : Station) (i : Fin 4) : Decidable (StartsData s i) :=
  inferInstanceAs (Decidable (_ ∧ _ ∧ _))

/-- Control data come in phase 0 and are seven bytes in all. -/
def ControlFits (s : Station) (i : Fin 4) (f : SubFrame) : Prop :=
  f.state = 1 → TakesControl s i → f.n = (s.niRecv i).n f.phase + 1 → f.payload ≠ [] →
    f.phase = 0 ∧ (f.payload.length : ℤ) ≤ (s.niRecv i).controlLeft

/-- An announced name fits its record. -/
def NameFits (s : Station) (i : Fin 4) (f : SubFrame) : Prop :=
  f.state = 2 → StartsData s i → (s.niRecv i).dataType = 1 → (s.niRecv i).dataSize ≤ 0x1C

/-- The first chunks end within the announced size. -/
def FirstFits (s : Station) (i : Fin 4) (f : SubFrame) : Prop :=
  f.state = 2 → StartsData s i → f.n = 1 → f.payload ≠ [] →
    (s.niRecv i).payloadSize*f.phase + f.payload.length ≤ (s.niRecv i).dataSize

/-- The pointer of a phase is `size` bytes or more before the end of the announced data. -/
def Ptr.Leaves (q : Ptr) (stop size : ℕ) : Prop :=
  match q with
  | .control _ => True
  | .data a => a + size ≤ stop

instance : (q : Ptr) → (stop size : ℕ) → Decidable (q.Leaves stop size)
  | .control _, _, _ => .isTrue trivial
  | .data a, stop, size => inferInstanceAs (Decidable (a + size ≤ stop))

/-- So do all later chunks. -/
def NextFits (s : Station) (i : Fin 4) (f : SubFrame) : Prop :=
  f.state = 2 → (s.niRecv i).state = 0x8042 → f.n = (s.niRecv i).n f.phase + 1 → f.payload ≠ [] →
    ((s.niRecv i).ptr f.phase).Leaves ((dataArea s i).address + (s.niRecv i).dataSize)
      f.payload.length

/-- The sub-frame does not run past what its transfer announced. -/
def PayloadFits (s : Station) (i : Fin 4) (f : SubFrame) : Prop :=
  ControlFits s i f ∧ NameFits s i f ∧ FirstFits s i f ∧ NextFits s i f

instance (s : Station) (i : Fin 4) (f : SubFrame) : Decidable (ControlFits s i f) :=
  inferInstanceAs (Decidable (_ → _ → _ → _ → _ ∧ _))

instance (s : Station) (i : Fin 4) (f : SubFrame) : Decidable (NameFits s i f) :=
  inferInstanceAs (Decidable (_ → _ → _ → _))

instance (s : Station) (i : Fin 4) (f : SubFrame) : Decidable (FirstFits s i f) :=
  inferInstanceAs (Decidable (_ → _ → _ → _ → _))

instance (s : Station) (i : Fin 4) (f : SubFrame) : Decidable (NextFits s i f) :=
  inferInstanceAs (Decidable (_ → _ → _ → _ → _))

instance (s : Station) (i : Fin 4) (f : SubFrame) : Decidable (PayloadFits s i f) :=
  inferInstanceAs (Decidable (_ ∧ _ ∧ _ ∧ _))

def parentFits (s : Station) (r : Fin 4 × SubFrame) : Prop :=
  r.2.frame = 0 → s.connSlot.getLsbD r.1 = true → r.2.ack = false → PayloadFits s r.1 r.2

def childSlotFits (f : SubFrame) (bm : Byte) (s : Station) (i : Fin 4) : Prop :=
  bm.getLsbD i = true → f.ack = false → PayloadFits s i f

def childFits (s : Station) (f : SubFrame) : Prop :=
  let bm := s.connSlot &&& BitVec.ofNat 8 f.bmSlot
  f.frame = 0 → Runs.Along (childDispatchSlot f bm) (childSlotFits f bm) s (List.finRange 4)

/-- So do all sub-frames of a packet, each for the slots it meets. -/
def packetFits (s : Station) (word : ℕ) (buf : ℕ → Byte) : Prop :=
  if s.mode = .parent then
    Runs.Along parentStep parentFits (parentStart s word) (parentReadPacket word buf).1.records
  else Runs.Along childDispatch childFits (childStart s word) (childReadPacket word buf).records

/-- The buffer of a slot stays where it is while data are received into it. -/
def bufferFits (s : Station) (kind slot : Byte) : Prop :=
  kind.getLsbD 5 = true → ∀ i : Fin 4, slot.toNat = i → (s.niRecv i).state = 0x8042 →
    (s.niRecv i).dataType = 1

instance (s : Station) (r : Fin 4 × SubFrame) : Decidable (parentFits s r) :=
  inferInstanceAs (Decidable (_ → _ → _ → _))

instance (f : SubFrame) (bm : Byte) (s : Station) (i : Fin 4) :
    Decidable (childSlotFits f bm s i) :=
  inferInstanceAs (Decidable (_ → _ → _))

instance (s : Station) (f : SubFrame) : Decidable (childFits s f) :=
  inferInstanceAs (Decidable (_ → Runs.Along _ _ _ _))

instance (s : Station) (kind slot : Byte) : Decidable (bufferFits s kind slot) :=
  inferInstanceAs (Decidable (_ → ∀ _ : Fin 4, _ → _ → _))

instance (s : Station) (word : ℕ) (buf : ℕ → Byte) : Decidable (packetFits s word buf) :=
  inferInstanceAs (Decidable (if s.mode = .parent then Runs.Along parentStep _ _ _
    else Runs.Along childDispatch _ _ _))

/-- The condition on one event. -/
def WithinAnnounced (s : Station) : Event → Prop
  | .cbRecvData word buf => packetFits s word buf
  | .setRecvBuffer kind slot _ _ => bufferFits s kind slot
  | _ => True

instance (s : Station) : (e : Event) → Decidable (WithinAnnounced s e)
  | .cbRecvData word buf => inferInstanceAs (Decidable (packetFits s word buf))
  | .setRecvBuffer kind slot _ _ => inferInstanceAs (Decidable (bufferFits s kind slot))
  | .niSetSendData .. | .uniSetSendData .. | .niChildSetSendGameName ..
  | .uniChangeAndReadySendData .. | .uniReadySendData _ | .uniClearRecvNewDataFlag _
  | .changeSendTarget .. | .niStopReceivingData _ | .clearSlot .. | .clearAllSlot
  | .constructSendLLFrame | .cbSendData _ | .niCheckCommFailCounter | .connect ..
  | .removeLinkData .. => .isTrue trivial

end Guard

section Contained

/-- Between two sub-frames the pointers of a receiving slot are where its stage has them. -/
structure Contained (s : Station) (i : Fin 4) : Prop where
  control : (s.niRecv i).state = 0x8041 → ∃ o : ℕ, o ≤ 7 ∧ (s.niRecv i).remain = 7 - (o : ℤ) ∧
    (s.niRecv i).ptr 0 = .control o
  data : (s.niRecv i).state = 0x8042 → (s.niRecv i).dataSize ≤ (dataArea s i).size ∧
    ∀ k, ∃ a, (s.niRecv i).ptr k = .data a ∧ (dataArea s i).address ≤ a

/-- What the invariant reads of a slot. -/
def NiSlot.cursor (x : NiSlot) : BitVec 16 × (Fin 4 → Ptr) × ℤ × Byte × ℕ :=
  (x.state,x.ptr,x.remain,x.dataType,x.dataSize)

variable {s s' s'' : Station} {i : Fin 4} {f : SubFrame}

theorem Contained.congr (h : Contained s i) (hslot : (s'.niRecv i).cursor = (s.niRecv i).cursor)
    (hbuffer : s'.niBuffer i = s.niBuffer i) (hlink : s'.linkAddress = s.linkAddress) :
    Contained s' i := by
  simp only [NiSlot.cursor,Prod.mk.injEq] at hslot
  obtain ⟨hstate,hptr,hremain,htype,hsize⟩ := hslot
  have harea : dataArea s' i = dataArea s i := by
    rw [dataArea,dataArea,nameRecord,nameRecord,htype,hbuffer,hlink]
  constructor
  · rw [hstate,hptr,hremain]
    exact h.control
  · rw [hstate,hptr,hsize,harea]
    exact h.data

theorem Contained.idle (hcontrol : (s.niRecv i).state ≠ 0x8041)
    (hdata : (s.niRecv i).state ≠ 0x8042) : Contained s i :=
  ⟨fun h => absurd h hcontrol,fun h => absurd h hdata⟩

/-- Everything but the receive slot `i` is where it was. -/
structure Beside (i : Fin 4) (s s' : Station) : Prop where
  slots : ∀ j, j ≠ i → s'.niRecv j = s.niRecv j
  buffers : s'.niBuffer = s.niBuffer
  link : s'.linkAddress = s.linkAddress

theorem Beside.refl (i : Fin 4) (s : Station) : Beside i s s := ⟨fun _ _ => rfl,rfl,rfl⟩

theorem Beside.trans (h : Beside i s s') (h' : Beside i s' s'') : Beside i s s'' where
  slots j hj := (h'.slots j hj).trans (h.slots j hj)
  buffers := h'.buffers.trans h.buffers
  link := h'.link.trans h.link

theorem Beside.contained (h : Beside i s s') (hs : ∀ j, Contained s j) (hi : Contained s' i)
    (j : Fin 4) : Contained s' j := by
  by_cases hj : j = i
  · rw [hj]
    exact hi
  · exact (hs j).congr (by rw [h.slots j hj]) (by rw [h.buffers]) h.link

/-- A step that moves no pointer of a slot it leaves in its stage. -/
structure Calm (s s' : Station) : Prop where
  slots : ∀ i, (s'.niRecv i).cursor = (s.niRecv i).cursor ∨
    (s'.niRecv i).state ≠ 0x8041 ∧ (s'.niRecv i).state ≠ 0x8042
  buffers : s'.niBuffer = s.niBuffer
  link : s'.linkAddress = s.linkAddress

theorem Calm.contained (h : Calm s s') (hs : ∀ i, Contained s i) (i : Fin 4) : Contained s' i := by
  obtain hsame | hidle := h.slots i
  · exact (hs i).congr hsame (by rw [h.buffers]) h.link
  · exact .idle hidle.1 hidle.2

end Contained

section Receiver
variable {s s' : Station} {i : Fin 4} {f : SubFrame}

@[simp] theorem releaseFrame_areas (s : Station) (i : Fin 4) (recv : Bool) (x : NiSlot) :
    (releaseFrame s i recv x).niBuffer = s.niBuffer ∧
      (releaseFrame s i recv x).linkAddress = s.linkAddress := by
  obtain ⟨p,c,h⟩ := releaseFrame_eq s i recv x
  rw [h]
  exact ⟨rfl,rfl⟩

@[simp] theorem setFrameSize_areas (s : Station) (i : Fin 4) (v : ℕ) :
    (setFrameSize s i v).niBuffer = s.niBuffer ∧
      (setFrameSize s i v).linkAddress = s.linkAddress := by
  obtain ⟨p,c,h⟩ := setFrameSize_eq s i v
  rw [h]
  exact ⟨rfl,rfl⟩

theorem Beside.update {x : NiSlot} (hrecv : s'.niRecv = Function.update s.niRecv i x)
    (hbuffer : s'.niBuffer = s.niBuffer) (hlink : s'.linkAddress = s.linkAddress) :
    Beside i s s' :=
  ⟨fun j hj => by rw [hrecv,Function.update_of_ne hj],hbuffer,hlink⟩

theorem Beside.dataEntity (s : Station) (i : Fin 4) :
    Beside i s (niInitSlotAsRecvDataEntity s i) := by
  unfold niInitSlotAsRecvDataEntity
  dsimp only
  split_ifs
  · exact .update rfl rfl rfl
  · unfold refuseData
    exact .update (releaseFrame_niRecv ..) (releaseFrame_areas ..).1 (releaseFrame_areas ..).2
  · exact .update rfl rfl rfl

theorem Beside.controllData (s : Station) (i : Fin 4) :
    Beside i s (niInitSlotAsRecvControllData s i) := by
  unfold niInitSlotAsRecvControllData
  dsimp only
  generalize (if s.mode = .parent then 3 else 2) = header
  split_ifs
  · exact .refl i s
  · exact .update rfl rfl rfl
  · exact .update (setFrameSize_niRecv ..) (setFrameSize_areas ..).1 (setFrameSize_areas ..).2

theorem Beside.receiverStage (s : Station) (i : Fin 4) (f : SubFrame) :
    Beside i s (receiverStage s i f).1 := by
  unfold Rfu.receiverStage
  dsimp only
  split_ifs
  · unfold receiveLast
    dsimp only
    split_ifs
    · exact .update rfl rfl rfl
    · exact ⟨fun _ _ => rfl,rfl,rfl⟩
  · exact .dataEntity s i
  · exact .refl i s
  · exact .refl i s
  · exact .controllData s i
  · exact .controllData s i
  · exact .refl i s

theorem Beside.receiveData (s : Station) (i : Fin 4) (f : SubFrame) :
    Beside i s (receiveData s i f) := by
  have hstore : Beside i s (storePayload s i f.phase f.payload) := by
    unfold storePayload
    dsimp only
    split
    · exact .update rfl rfl rfl
    · exact .update rfl rfl rfl
  unfold Rfu.receiveData
  dsimp only
  split_ifs
  · exact hstore.trans (.update rfl rfl rfl)
  · exact .refl i s

theorem Beside.receiverEnd (s : Station) (i : Fin 4) (f : SubFrame) (x₀ : NiSlot) :
    Beside i s (receiverEnd s i f x₀) := by
  unfold Rfu.receiverEnd
  dsimp only
  split_ifs
  · exact .refl i s
  · exact .update rfl rfl rfl
  · exact .update rfl rfl rfl

theorem cursor_receiverEnd (s : Station) (i : Fin 4) (f : SubFrame) (x₀ : NiSlot) :
    ((receiverEnd s i f x₀).niRecv i).cursor = (s.niRecv i).cursor := by
  unfold receiverEnd
  dsimp only
  split_ifs
  · rfl
  · simp [NiSlot.cursor]
  · simp [NiSlot.cursor]

/-- The sub-frame fits the slot as the stage part leaves it. -/
structure Ready (s : Station) (i : Fin 4) (f : SubFrame) : Prop where
  stage : (s.niRecv i).state = 0x8041 ∨ (s.niRecv i).state = 0x8042
  control : (s.niRecv i).state = 0x8041 → f.n = (s.niRecv i).n f.phase + 1 → f.payload ≠ [] →
    f.phase = 0 ∧ (f.payload.length : ℤ) ≤ (s.niRecv i).remain
  data : (s.niRecv i).state = 0x8042 → f.n = (s.niRecv i).n f.phase + 1 → f.payload ≠ [] →
    ((s.niRecv i).ptr f.phase).Leaves ((dataArea s i).address + (s.niRecv i).dataSize)
      f.payload.length

/-- The data stage starts at the beginning of its area. -/
def beginData (s : Station) (i : Fin 4) : Station :=
  let x := (s.niRecv i).startData (dataArea s i).address
  { s with niRecv := Function.update s.niRecv i x }

theorem niInitSlotAsRecvDataEntity_eq (s : Station) (i : Fin 4) :
    niInitSlotAsRecvDataEntity s i =
      if (s.niRecv i).dataType = 1 ∨ (s.niRecv i).dataSize ≤ (s.niBuffer i).size then
        beginData s i
      else refuseData s i := by
  unfold niInitSlotAsRecvDataEntity beginData dataArea
  dsimp only
  by_cases hname : (s.niRecv i).dataType = 1
  · rw [if_pos hname,if_pos (.inl hname),if_pos hname,nameRecord]
  · rw [if_neg hname,if_neg hname]
    by_cases hsize : (s.niBuffer i).size < (s.niRecv i).dataSize
    · have hnot : ¬ ((s.niRecv i).dataType = 1 ∨ (s.niRecv i).dataSize ≤ (s.niBuffer i).size) := by
        rintro (h | h)
        · exact hname h
        · omega
      rw [if_pos hsize,if_neg hnot]
    · rw [if_neg hsize,if_pos (.inr (Nat.le_of_not_lt hsize))]

/-- A data sub-frame that ends the control stage. -/
theorem dataEntity_ready (hstate : (s.niRecv i).state = 0x8041) (hremain : (s.niRecv i).remain = 0)
    (hf : PayloadFits s i f) (hdata : f.state = 2) :
    Contained (niInitSlotAsRecvDataEntity s i) i ∧
      (((niInitSlotAsRecvDataEntity s i).niRecv i).state = 0x8042 →
        Ready (niInitSlotAsRecvDataEntity s i) i f) := by
  obtain ⟨-,hname,hfirst,-⟩ := hf
  rw [niInitSlotAsRecvDataEntity_eq]
  split_ifs with haccept
  · have hstart : StartsData s i := ⟨hstate,hremain,haccept⟩
    have hsize : (s.niRecv i).dataSize ≤ (dataArea s i).size := by
      rw [dataArea]
      split_ifs with htype
      · exact hname hdata hstart htype
      · exact haccept.resolve_left htype
    have harea : dataArea (beginData s i) i = dataArea s i := by
      simp [dataArea,nameRecord,beginData,NiSlot.startData]
    have hslot : (beginData s i).niRecv i = (s.niRecv i).startData (dataArea s i).address := by
      simp [beginData]
    rw [hslot]
    refine ⟨⟨fun h => ?_,fun _ => ?_⟩,fun _ => ⟨.inr ?_,fun h => ?_,fun _ hn hne => ?_⟩⟩
    · rw [hslot] at h
      exact absurd h (by simp [NiSlot.startData])
    · rw [hslot,harea]
      refine ⟨hsize,fun k => ⟨(dataArea s i).address + (s.niRecv i).payloadSize*k,rfl,?_⟩⟩
      exact Nat.le_add_right ..
    · rw [hslot,NiSlot.startData]
    · rw [hslot] at h
      exact absurd h (by simp [NiSlot.startData])
    · rw [hslot] at hn
      have hfits := hfirst hdata hstart hn hne
      rw [hslot,harea]
      simp only [NiSlot.startData,Ptr.Leaves]
      omega
  · have hstop : ((refuseData s i).niRecv i).state = 0x47 := by simp [refuseData]
    refine ⟨.idle ?_ ?_,fun h => ?_⟩
    · rw [hstop]
      decide
    · rw [hstop]
      decide
    · rw [hstop] at h
      exact absurd h (by decide)

/-- A control sub-frame that starts a transfer. -/
theorem controllData_ready (hs : Contained s i) (hstate : (s.niRecv i).state ≠ 0x8041)
    (hf : PayloadFits s i f) (hcontrol : f.state = 1) :
    Contained (niInitSlotAsRecvControllData s i) i ∧
      (((niInitSlotAsRecvControllData s i).niRecv i).state = 0x8041 →
        Ready (niInitSlotAsRecvControllData s i) i f) := by
  have hfits := hf.1 hcontrol
  unfold niInitSlotAsRecvControllData
  dsimp only
  by_cases hused : (s.niRecv i).state ≠ 0
  · rw [if_pos hused]
    exact ⟨hs,fun h => absurd h hstate⟩
  · have hzero : (s.niRecv i).state = 0 := not_not.mp hused
    rw [if_neg hused]
    by_cases hfull : frameSize s i < if s.mode = .parent then 3 else 2
    · rw [if_pos hfull]
      refine ⟨.idle ?_ ?_,fun h => ?_⟩
      · simp
      · simp
      · simp at h
    · rw [if_neg hfull]
      have htakes : TakesControl s i := .inr ⟨hzero,Nat.le_of_not_lt hfull⟩
      refine ⟨⟨fun _ => ⟨0,?_,?_,?_⟩,fun h => ?_⟩,fun _ => ⟨.inl ?_,fun _ hn hne => ?_,fun h => ?_⟩⟩
      · omega
      · simp
      · simp
      · simp at h
      · simp
      · have hold := hfits htakes (by simpa using hn) hne
        rw [NiSlot.controlLeft,if_neg hstate] at hold
        simpa using hold
      · simp at h

/-- The stage part leaves the slot contained, and ready for the payload it is to look at. -/
theorem receiverStage_ready (hs : Contained s i) (hf : PayloadFits s i f) :
    Contained (receiverStage s i f).1 i ∧
      ((receiverStage s i f).2 = some true → Ready (receiverStage s i f).1 i f) := by
  unfold receiverStage
  dsimp only
  by_cases hlast : f.state = 3
  · rw [if_pos hlast]
    refine ⟨?_,fun h => by cases h⟩
    unfold receiveLast
    dsimp only
    split_ifs
    · exact .idle (by simp) (by simp)
    · exact hs.congr rfl rfl rfl
  · rw [if_neg hlast]
    by_cases hdata : f.state = 2
    · rw [if_pos hdata]
      split_ifs with hready
      · obtain ⟨hcontained,hr⟩ := dataEntity_ready hready.1 hready.2 hf hdata
        exact ⟨hcontained,fun h => hr (by simpa using h)⟩
      · refine ⟨hs,fun h => ?_⟩
        have hstate : (s.niRecv i).state = 0x8042 := by simpa using h
        refine ⟨.inr hstate,fun h' => ?_,fun _ => hf.2.2.2 hdata hstate⟩
        rw [hstate] at h'
        exact absurd h' (by decide)
    · rw [if_neg hdata]
      by_cases hcontrol : f.state = 1
      · rw [if_pos hcontrol]
        by_cases hstate : (s.niRecv i).state = 0x8041
        · rw [if_pos hstate]
          refine ⟨hs,fun _ => ⟨.inl hstate,fun _ hn hne => ?_,fun h => ?_⟩⟩
          · have hfits := hf.1 hcontrol (.inl hstate) hn hne
            rw [NiSlot.controlLeft,if_pos hstate] at hfits
            exact hfits
          · rw [hstate] at h
            exact absurd h (by decide)
        · rw [if_neg hstate]
          obtain ⟨hcontained,hr⟩ := controllData_ready hs hstate hf hcontrol
          refine ⟨hcontained,fun h => hr ?_⟩
          by_contra hno
          rw [if_neg hno] at h
          cases h
      · rw [if_neg hcontrol]
        exact ⟨hs,fun h => by cases h⟩

/-- The slot behind an accepted payload of the control stage. -/
theorem receiveData_control (hstate : (s.niRecv i).state = 0x8041)
    (hn : f.n = (s.niRecv i).n f.phase + 1) :
    ((receiveData s i f).niRecv i).state = 0x8041 ∧
      ((receiveData s i f).niRecv i).remain = (s.niRecv i).remain - f.payload.length ∧
      ((receiveData s i f).niRecv i).ptr = Function.update (s.niRecv i).ptr f.phase
        (((s.niRecv i).ptr f.phase).add f.payload.length) := by
  unfold receiveData storePayload
  rw [if_pos hn]
  dsimp only
  split
  · simp [NiSlot.afterPayload,NiSlot.setControl,hstate]
  · simp [NiSlot.afterPayload,hstate]

/-- The slot behind an accepted payload of the data stage. -/
theorem receiveData_data {a : ℕ} (hstate : (s.niRecv i).state = 0x8042)
    (hptr : (s.niRecv i).ptr f.phase = .data a) (hn : f.n = (s.niRecv i).n f.phase + 1) :
    ((receiveData s i f).niRecv i).state = 0x8042 ∧
      ((receiveData s i f).niRecv i).dataType = (s.niRecv i).dataType ∧
      ((receiveData s i f).niRecv i).dataSize = (s.niRecv i).dataSize ∧
      ((receiveData s i f).niRecv i).ptr = Function.update (s.niRecv i).ptr f.phase
        (.data (a + f.payload.length + 3*(s.niRecv i).payloadSize)) := by
  unfold receiveData storePayload
  rw [if_pos hn]
  simp [NiSlot.afterPayload,Ptr.add,hstate,hptr]

theorem receiveData_contained (hs : Contained s i) (hf : Ready s i f) :
    Contained (receiveData s i f) i := by
  by_cases hn : f.n = (s.niRecv i).n f.phase + 1
  · obtain hstate | hstate := hf.stage
    · obtain ⟨hstate',hremain',hptr'⟩ := receiveData_control hstate hn
      obtain ⟨o,ho,hremain,hptr⟩ := hs.control hstate
      refine ⟨fun _ => ?_,fun h => absurd (hstate'.symm.trans h) (by decide)⟩
      rw [hremain',hptr']
      by_cases hempty : f.payload = []
      · refine ⟨o,ho,by simp [hempty,hremain],?_⟩
        by_cases hphase : f.phase = 0
        · simp [hphase,hptr,hempty,Ptr.add]
        · rw [Function.update_of_ne (Ne.symm hphase)]
          exact hptr
      · obtain ⟨hphase,hle⟩ := hf.control hstate hn hempty
        refine ⟨o + f.payload.length,by omega,by push_cast; omega,?_⟩
        simp [hphase,hptr,Ptr.add]
    · obtain ⟨hsize,hall⟩ := hs.data hstate
      obtain ⟨a,ha,hle⟩ := hall f.phase
      obtain ⟨hstate',htype',hsize',hptr'⟩ := receiveData_data hstate ha hn
      have hbeside := Beside.receiveData s i f
      have harea : dataArea (receiveData s i f) i = dataArea s i := by
        rw [dataArea,dataArea,nameRecord,nameRecord,htype',hbeside.buffers,hbeside.link]
      refine ⟨fun h => absurd (hstate'.symm.trans h) (by decide),fun _ => ?_⟩
      rw [hsize',hptr',harea]
      refine ⟨hsize,fun k => ?_⟩
      by_cases hk : k = f.phase
      · refine ⟨a + f.payload.length + 3*(s.niRecv i).payloadSize,?_,by omega⟩
        rw [hk,Function.update_self]
      · rw [Function.update_of_ne hk]
        exact hall k
  · rw [receiveData,if_neg hn]
    exact hs

theorem dataCopies_inside (hs : Contained s i) (hf : Ready s i f) :
    ∀ c ∈ dataCopies s i f, c.Inside := by
  intro c hc
  unfold dataCopies at hc
  split_ifs at hc with hn
  · rw [List.mem_singleton] at hc
    subst hc
    intro j hj
    have hne : f.payload ≠ [] := by
      intro hempty
      simp [hempty] at hj
    dsimp only at hj ⊢
    unfold recvArea
    obtain hstate | hstate := hf.stage
    · obtain ⟨hphase,hle⟩ := hf.control hstate hn hne
      obtain ⟨o,-,hremain,hptr⟩ := hs.control hstate
      rw [if_pos hstate,hphase,hptr]
      show o + j < 7
      omega
    · obtain ⟨hsize,hall⟩ := hs.data hstate
      obtain ⟨a,ha,hle⟩ := hall f.phase
      have hroom := hf.data hstate hn hne
      have hcontrol : (s.niRecv i).state ≠ 0x8041 := by
        rw [hstate]
        decide
      rw [ha] at hroom
      rw [if_neg hcontrol,ha]
      have hend : a + f.payload.length ≤ (dataArea s i).address + (s.niRecv i).dataSize := hroom
      show (dataArea s i).address ≤ a + j ∧ a + j < (dataArea s i).address + (dataArea s i).size
      omega
  · cases hc

/-- One sub-frame that reaches `rfu_STC_NI_receive_Receiver`. -/
theorem niReceiveReceiver_contained (hs : ∀ j, Contained s j) (hf : PayloadFits s i f) :
    (∀ j, Contained (niReceiveReceiver s i f) j) ∧ ∀ c ∈ niCopies s i f, c.Inside := by
  obtain ⟨hstage,hready⟩ := receiverStage_ready (hs i) hf
  have hbeside := Beside.receiverStage s i f
  unfold niReceiveReceiver niCopies
  dsimp only
  generalize receiverStage s i f = r at hstage hready hbeside ⊢
  obtain ⟨s',look⟩ := r
  have hall := hbeside.contained hs hstage
  have hend : ∀ s'' : Station, (∀ j, Contained s'' j) →
      ∀ j, Contained (receiverEnd s'' i f (s.niRecv i)) j := by
    intro s'' hs''
    have hlast := Beside.receiverEnd s'' i f (s.niRecv i)
    exact hlast.contained hs'' ((hs'' i).congr (cursor_receiverEnd ..)
      (by rw [hlast.buffers]) hlast.link)
  match look, hready with
  | none, _ => exact ⟨hall,fun c hc => by cases hc⟩
  | some false, _ => exact ⟨hend s' hall,fun c hc => by cases hc⟩
  | some true, hready =>
    have hr := hready rfl
    exact ⟨hend _ ((Beside.receiveData s' i f).contained hall (receiveData_contained hstage hr)),
      dataCopies_inside hstage hr⟩

end Receiver

section Changed
variable {s : Station} {i : Fin 4} {f : SubFrame} {a : ℕ}

/-- The copy writes the byte at address `a`. -/
def Copy.Writes (c : Copy) (a : ℕ) : Prop := ∃ j < c.length, c.dest.add j = .data a

theorem writes_of_changed {mem : ℕ → Byte} {b : ℕ} {bs : List Byte} (area : Area)
    (h : CellMemory.write mem b bs a ≠ mem a) : (Copy.mk (.data b) bs.length area).Writes a := by
  have hin : ¬ (a < b ∨ b + bs.length ≤ a) := fun hout => h (CellMemory.write_outside mem hout)
  refine ⟨a-b,?_,?_⟩
  · show a-b < bs.length
    omega
  · show Ptr.data (b + (a-b)) = .data a
    congr 1
    omega

theorem mem_receiverStage (s : Station) (i : Fin 4) (f : SubFrame) :
    (receiverStage s i f).1.mem = s.mem := by
  have hrelease : ∀ (s : Station) recv x, (releaseFrame s i recv x).mem = s.mem := by
    intro s recv x
    obtain ⟨p,c,h⟩ := releaseFrame_eq s i recv x
    rw [h]
  have hset : ∀ (s : Station) v, (setFrameSize s i v).mem = s.mem := by
    intro s v
    obtain ⟨p,c,h⟩ := setFrameSize_eq s i v
    rw [h]
  have hentity : (niInitSlotAsRecvDataEntity s i).mem = s.mem := by
    rw [niInitSlotAsRecvDataEntity_eq]
    split_ifs
    · rfl
    · simp [refuseData,hrelease]
  have hcontrol : (niInitSlotAsRecvControllData s i).mem = s.mem := by
    unfold niInitSlotAsRecvControllData
    dsimp only
    generalize (if s.mode = .parent then 3 else 2) = header
    split_ifs
    · rfl
    · rfl
    · simp [hset]
  unfold receiverStage receiveLast
  dsimp only
  split_ifs
  all_goals first | rfl | exact hentity | exact hcontrol

theorem changed_receiveData (h : (receiveData s i f).mem a ≠ s.mem a) :
    ∃ c ∈ dataCopies s i f, c.Writes a := by
  by_cases hn : f.n = (s.niRecv i).n f.phase + 1
  · rw [receiveData,if_pos hn] at h
    rw [dataCopies,if_pos hn]
    refine ⟨_,List.mem_singleton_self _,?_⟩
    cases hptr : (s.niRecv i).ptr f.phase with
    | control o => simp [storePayload,hptr] at h
    | data b => exact writes_of_changed _ (by simpa [storePayload,hptr] using h)
  · rw [receiveData,if_neg hn] at h
    exact absurd rfl h

theorem changed_niReceiveReceiver (h : (niReceiveReceiver s i f).mem a ≠ s.mem a) :
    ∃ c ∈ niCopies s i f, c.Writes a := by
  have hend : ∀ s' : Station, (receiverEnd s' i f (s.niRecv i)).mem = s'.mem := by
    intro s'
    unfold receiverEnd
    dsimp only
    split_ifs <;> rfl
  have hstage := mem_receiverStage s i f
  unfold niReceiveReceiver at h
  unfold niCopies
  dsimp only at h ⊢
  generalize receiverStage s i f = r at hstage h ⊢
  obtain ⟨s',look⟩ := r
  match look with
  | none => exact absurd (congrFun hstage a) h
  | some false => exact absurd (congrFun ((hend s').trans hstage) a) h
  | some true =>
    have hdata : (receiveData s' i f).mem a ≠ s'.mem a := by
      intro heq
      exact h ((congrFun (hend _) a).trans (heq.trans (congrFun hstage a)))
    exact changed_receiveData hdata

theorem changed_uniReceive (h : (uniReceive s i f).mem a ≠ s.mem a) :
    ∃ c ∈ uniCopies s i f, c.Writes a := by
  unfold uniReceive at h
  unfold uniCopies
  dsimp only at h ⊢
  split_ifs at h with hsize hnew hprotect
  · exact absurd rfl h
  · exact absurd rfl h
  · rw [if_neg hsize,if_neg fun hboth => hprotect hboth.2]
    exact ⟨_,List.mem_singleton_self _,writes_of_changed _ h⟩
  · rw [if_neg hsize,if_neg fun hboth => hnew hboth.1]
    exact ⟨_,List.mem_singleton_self _,writes_of_changed _ h⟩

theorem mem_niReceiveSender (s : Station) (j t : Fin 4) (f : SubFrame) :
    (niReceiveSender s j t f).mem = s.mem := by
  unfold niReceiveSender
  dsimp only
  split_ifs <;> rfl

theorem changed_parentStep (s : Station) (r : Fin 4 × SubFrame)
    (h : (parentStep s r).mem a ≠ s.mem a) : ∃ c ∈ parentCopies s r, c.Writes a := by
  unfold parentStep parentDispatch at h
  unfold parentCopies
  split_ifs at h ⊢
  · exact absurd rfl h
  · exact changed_uniReceive h
  · exact changed_niReceiveReceiver h
  · split at h
    · exact absurd (congrFun (mem_niReceiveSender ..) a) h
    · exact absurd rfl h

theorem changed_childDispatch (s : Station) (f : SubFrame)
    (h : (childDispatch s f).mem a ≠ s.mem a) : ∃ c ∈ childCopies s f, c.Writes a := by
  have hslot : ∀ (bm : Byte) (s : Station) i,
      (childDispatchSlot f bm s i).mem a ≠ s.mem a → ∃ c ∈ childSlotCopies f bm s i, c.Writes a := by
    intro bm s i h
    unfold childDispatchSlot at h
    unfold childSlotCopies
    split_ifs at h ⊢
    · exact absurd rfl h
    · exact changed_uniReceive h
    · exact changed_niReceiveReceiver h
    · exact absurd (congrFun (mem_niReceiveSender ..) a) h
    · exact absurd rfl h
  unfold childDispatch at h
  unfold childCopies
  dsimp only
  split_ifs at h ⊢
  · exact absurd rfl h
  · exact Runs.trace_of_changed (f := fun s => s.mem a) (hslot _) h

/-- A packet changes no byte of memory that it does not copy. -/
theorem changed_cbRecvData (s : Station) (word : ℕ) (buf : ℕ → Byte)
    (h : (cbRecvData s word buf).mem a ≠ s.mem a) :
    ∃ c ∈ copies s (.cbRecvData word buf), c.Writes a := by
  have hfinish : ∀ s : Station, ((List.finRange 4).foldl finishRecv s).mem = s.mem := by
    intro s
    refine @Runs.run_invariant _ _ _ (fun s' : Station => s'.mem = s.mem) ?_ _ rfl (List.finRange 4)
    intro s' i hs'
    unfold finishRecv
    dsimp only
    generalize (if (s'.niRecv i).dataType = 1 then bit i ||| s'.nameFlag else s'.nameFlag) = m
    obtain ⟨p,c,h⟩ := releaseFrame_eq { s' with nameFlag := m } i true (s'.niRecv i)
    split_ifs
    · rw [h]
      exact hs'
    · exact hs'
  rw [cbRecvData_eq,hfinish] at h
  unfold copies
  dsimp only
  split_ifs at h ⊢
  · exact Runs.trace_of_changed (f := fun s => s.mem a) changed_parentStep h
  · exact Runs.trace_of_changed (f := fun s => s.mem a) changed_childDispatch h

end Changed

section Events
variable {s s' : Station} {i : Fin 4}

theorem Calm.ofRecv (hrecv : s'.niRecv = s.niRecv) (hbuffer : s'.niBuffer = s.niBuffer)
    (hlink : s'.linkAddress = s.linkAddress) : Calm s s' :=
  ⟨fun i => .inl (by rw [hrecv]),hbuffer,hlink⟩

theorem Calm.refl (s : Station) : Calm s s := .ofRecv rfl rfl rfl

/-- A receive slot leaves its stage. -/
theorem Calm.leave {x : NiSlot} (hrecv : s'.niRecv = Function.update s.niRecv i x)
    (hx : x.state ≠ 0x8041 ∧ x.state ≠ 0x8042) (hbuffer : s'.niBuffer = s.niBuffer)
    (hlink : s'.linkAddress = s.linkAddress) : Calm s s' := by
  refine ⟨fun j => ?_,hbuffer,hlink⟩
  rw [hrecv]
  by_cases hj : j = i
  · right
    rw [hj,Function.update_self]
    exact hx
  · left
    rw [Function.update_of_ne hj]

theorem Calm.setSendDataOrg (s : Station) (k : SendKind) (bm size : Byte) (src dataSize : ℕ) :
    Calm s (setSendDataOrg s k bm size src dataSize).2 := by
  have hni : ∀ dataType, Calm s (startNi s bm size dataType src dataSize) := by
    intro dataType
    unfold startNi
    exact .ofRecv (setFrameSize_niRecv ..) (setFrameSize_areas ..).1 (setFrameSize_areas ..).2
  have huni : Calm s (startUni s bm size src) := by
    unfold startUni
    exact .ofRecv (setFrameSize_niRecv ..) (setFrameSize_areas ..).1 (setFrameSize_areas ..).2
  unfold Rfu.setSendDataOrg
  dsimp only
  split_ifs
  · exact .refl s
  · cases k with
    | ni => exact hni 0
    | gameName => exact hni 1
    | uni => exact huni

theorem Calm.changeSendTarget (s : Station) (kind slot bm : Byte) :
    Calm s (changeSendTarget s kind slot bm).2 := by
  have hni : ∀ i, Calm s (changeNi s i bm).2 := by
    intro i
    unfold changeNi shrinkNi
    dsimp only
    split_ifs
    · exact .refl s
    · exact .refl s
    · exact .refl s
    · exact .ofRecv (releaseFrame_niRecv ..) (releaseFrame_areas ..).1 (releaseFrame_areas ..).2
    · exact .ofRecv rfl rfl rfl
  have huni : ∀ i, Calm s (changeUni s i bm).2 := by
    intro i
    unfold changeUni
    dsimp only
    split_ifs
    · exact .refl s
    · exact .refl s
    · exact .ofRecv rfl rfl rfl
  unfold Rfu.changeSendTarget
  split_ifs
  · exact hni _
  · exact huni _
  · exact .refl s
  · exact .refl s

theorem Calm.niStopReceivingData (s : Station) (slot : Byte) :
    Calm s (niStopReceivingData s slot).2 := by
  unfold Rfu.niStopReceivingData
  dsimp only
  split_ifs
  · exact .leave (releaseFrame_niRecv ..) ⟨by simp,by simp⟩ (releaseFrame_areas ..).1
      (releaseFrame_areas ..).2
  · exact .leave (releaseFrame_niRecv ..) ⟨by simp,by simp⟩ (releaseFrame_areas ..).1
      (releaseFrame_areas ..).2
  · exact .refl s
  · exact .refl s

theorem Calm.trans {s'' : Station} (h : Calm s s') (h' : Calm s' s'') : Calm s s'' := by
  refine ⟨fun i => ?_,h'.buffers.trans h.buffers,h'.link.trans h.link⟩
  obtain hsame' | hidle' := h'.slots i
  · obtain hsame | hidle := h.slots i
    · exact .inl (hsame'.trans hsame)
    · have hstate : (s''.niRecv i).state = (s'.niRecv i).state := congrArg Prod.fst hsame'
      exact .inr (by rw [hstate]; exact hidle)
  · exact .inr hidle'

theorem Calm.clearSlot (s : Station) (kinds slot : Byte) : Calm s (clearSlot s kinds slot).2 := by
  have hnisend : ∀ (s : Station) i, Calm s (clearNiSend s i) := by
    intro s i
    unfold clearNiSend
    dsimp only
    split_ifs
    · exact .ofRecv (releaseFrame_niRecv ..) (releaseFrame_areas ..).1 (releaseFrame_areas ..).2
    · exact .ofRecv rfl rfl rfl
  have hnirecv : ∀ (s : Station) i, Calm s (clearNiRecv s i) := by
    intro s i
    have hzero : NiSlot.zero.state ≠ 0x8041 ∧ NiSlot.zero.state ≠ 0x8042 := by decide
    unfold clearNiRecv
    dsimp only
    split_ifs
    · exact .leave (by rw [releaseFrame_niRecv]) hzero (releaseFrame_areas ..).1
        (releaseFrame_areas ..).2
    · exact .leave rfl hzero rfl rfl
  have hunisend : ∀ (s : Station) i, Calm s (clearUniSend s i) := by
    intro s i
    unfold clearUniSend releaseUni
    dsimp only
    split_ifs
    all_goals exact .ofRecv rfl rfl rfl
  have hunirecv : ∀ (s : Station) i, Calm s (clearUniRecv s i) := fun s i => .ofRecv rfl rfl rfl
  have hif : ∀ (b : Bool) (g : Station → Station), (∀ s, Calm s (g s)) → ∀ s,
      Calm s (if b then g s else s) := by
    intro b g hg s
    cases b with
    | true => exact hg s
    | false => exact .refl s
  unfold Rfu.clearSlot
  by_cases hslot : slot.toNat < 4
  · rw [dif_pos hslot]
    by_cases hkinds : kinds &&& 0xF = 0
    · rw [if_pos hkinds]
      exact .refl s
    · rw [if_neg hkinds]
      have h₁ := hif (kinds.getLsbD 2) _ (fun s => hnisend s ⟨slot.toNat,hslot⟩) s
      have h₂ := hif (kinds.getLsbD 3) _ (fun s => hnirecv s ⟨slot.toNat,hslot⟩)
      have h₃ := hif (kinds.getLsbD 0) _ (fun s => hunisend s ⟨slot.toNat,hslot⟩)
      have h₄ := hif (kinds.getLsbD 1) _ (fun s => hunirecv s ⟨slot.toNat,hslot⟩)
      exact ((h₁.trans (h₂ _)).trans (h₃ _)).trans (h₄ _)
  · rw [dif_neg hslot]
    exact .refl s

theorem Calm.clearAllSlot (s : Station) : Calm s (clearAllSlot s) :=
  ⟨fun _ => .inr (by simp [Rfu.clearAllSlot,NiSlot.zero]),rfl,rfl⟩

theorem Calm.foldl {α : Type*} {g : Station → α → Station} (hg : ∀ s x, Calm s (g s x))
    (s : Station) (xs : List α) : Calm s (xs.foldl g s) :=
  Runs.run_invariant (fun s' x (h : Calm s s') => h.trans (hg s' x)) (.refl s) xs

theorem Calm.cbSendData (s : Station) (result : BitVec 16) : Calm s (cbSendData s result) := by
  have hslot : ∀ (s : Station) i, Calm s (cbSendDataSlot s i) := by
    intro s i
    unfold cbSendDataSlot finishSend
    dsimp only
    split_ifs
    · exact .ofRecv (releaseFrame_niRecv ..) (releaseFrame_areas ..).1 (releaseFrame_areas ..).2
    · exact .ofRecv (releaseFrame_niRecv ..) (releaseFrame_areas ..).1 (releaseFrame_areas ..).2
    · exact .ofRecv rfl rfl rfl
  have hready : ∀ s : Station, Calm s { s with frameReady := 0 } := fun s => .ofRecv rfl rfl rfl
  unfold Rfu.cbSendData
  dsimp only
  split_ifs
  · exact (Calm.foldl hslot s _).trans (hready _)
  · exact hready s

theorem cursor_advance (x : NiSlot) : x.advance.cursor = x.cursor := by
  unfold NiSlot.advance
  split_ifs <;> rfl

theorem Calm.constructSendLLFrame (s : Station) : Calm s (constructSendLLFrame s).1 := by
  unfold Rfu.constructSendLLFrame
  dsimp only
  split_ifs
  · exact .refl s
  all_goals
    refine ⟨fun i => .inl ?_,rfl,rfl⟩
    dsimp only
    split_ifs
    · exact cursor_advance _
    · rfl

theorem Calm.niCheckCommFailCounter (s : Station) : Calm s (niCheckCommFailCounter s) := by
  unfold Rfu.niCheckCommFailCounter
  dsimp only
  split_ifs
  · exact .refl s
  · refine ⟨fun i => .inl ?_,rfl,rfl⟩
    dsimp only
    split_ifs <;> rfl

theorem Calm.links (s : Station) (i : Fin 4) :
    (∀ r, Calm s (connect s r i)) ∧ ∀ forget, Calm s (removeLinkData s i forget) := by
  constructor
  · intro r
    cases r with
    | parent =>
      unfold connect readChild
      dsimp only
      split_ifs
      · exact .refl s
      · exact .ofRecv rfl rfl rfl
    | child =>
      unfold connect connectParent
      dsimp only
      split_ifs
      · exact .refl s
      · exact .ofRecv rfl rfl rfl
  · intro forget
    cases forget with
    | true => exact .ofRecv rfl rfl rfl
    | false => exact .ofRecv rfl rfl rfl

theorem Calm.uniCalls (s : Station) (slot : Byte) :
    (∀ src size, Calm s (uniChangeAndReadySendData s slot src size).2) ∧
      Calm s (uniReadySendData s slot) ∧ Calm s (uniClearRecvNewDataFlag s slot) := by
  refine ⟨fun src size => ?_,?_,?_⟩
  · unfold uniChangeAndReadySendData
    dsimp only
    split_ifs
    · exact .refl s
    · exact .refl s
    · exact .ofRecv (setFrameSize_niRecv ..) (setFrameSize_areas ..).1 (setFrameSize_areas ..).2
    · exact .refl s
  · unfold uniReadySendData
    dsimp only
    split_ifs
    · exact .ofRecv rfl rfl rfl
    · exact .refl s
    · exact .refl s
  · unfold uniClearRecvNewDataFlag
    dsimp only
    split_ifs
    · exact .ofRecv rfl rfl rfl
    · exact .refl s

/-- A new NI buffer, but not for a slot that is filling the old one. -/
theorem setRecvBuffer_contained (hs : ∀ i, Contained s i) (kind slot : Byte) (address size : ℕ)
    (h : bufferFits s kind slot) (i : Fin 4) :
    Contained (setRecvBuffer s kind slot address size).2 i := by
  unfold setRecvBuffer
  dsimp only
  split_ifs with hslot hni huni
  · refine ⟨(hs i).control,fun hdata => ?_⟩
    by_cases hi : i = ⟨slot.toNat,hslot⟩
    · have htype := h hni i (by rw [hi]) hdata
      simpa [dataArea,nameRecord,htype] using (hs i).data hdata
    · simpa [dataArea,nameRecord,hi] using (hs i).data hdata
  · exact (hs i).congr rfl rfl rfl
  · exact hs i
  · exact hs i

theorem Calm.finishRecv (s : Station) (i : Fin 4) : Calm s (finishRecv s i) := by
  unfold Rfu.finishRecv
  dsimp only
  split_ifs
  · exact .leave (by rw [releaseFrame_niRecv]) ⟨by simp,by simp⟩ (releaseFrame_areas ..).1
      (releaseFrame_areas ..).2
  · exact .leave (by rw [releaseFrame_niRecv]) ⟨by simp,by simp⟩ (releaseFrame_areas ..).1
      (releaseFrame_areas ..).2
  · exact .refl s

theorem Calm.niReceiveSender (s : Station) (j t : Fin 4) (f : SubFrame) :
    Calm s (niReceiveSender s j t f) := by
  unfold Rfu.niReceiveSender
  dsimp only
  split_ifs
  · exact .ofRecv rfl rfl rfl
  · exact .ofRecv rfl rfl rfl

theorem Calm.uniReceive (s : Station) (i : Fin 4) (f : SubFrame) : Calm s (uniReceive s i f) := by
  unfold Rfu.uniReceive
  dsimp only
  split_ifs
  all_goals exact .ofRecv rfl rfl rfl

/-- `rfu_STC_UNI_receive` checks the size of what it copies. -/
theorem uniCopies_inside (s : Station) (i : Fin 4) (f : SubFrame) :
    ∀ c ∈ uniCopies s i f, c.Inside := by
  intro c hc
  unfold uniCopies at hc
  dsimp only at hc
  split_ifs at hc with hsize hnew
  · cases hc
  · cases hc
  · rw [List.mem_singleton] at hc
    subst hc
    intro j hj
    dsimp only at hj
    show (s.uniBuffer i).address ≤ (s.uniBuffer i).address + j ∧
      (s.uniBuffer i).address + j < (s.uniBuffer i).address + (s.uniBuffer i).size
    omega

theorem parentStep_contained (hs : ∀ j, Contained s j) (r : Fin 4 × SubFrame)
    (h : parentFits s r) :
    (∀ j, Contained (parentStep s r) j) ∧ ∀ c ∈ parentCopies s r, c.Inside := by
  unfold parentStep parentDispatch parentCopies
  split_ifs with hskip huni hack
  · exact ⟨hs,fun c hc => by cases hc⟩
  · exact ⟨(Calm.uniReceive s r.1 r.2).contained hs,uniCopies_inside s r.1 r.2⟩
  · have hframe : r.2.frame = 0 := not_not.mp fun hne => hskip (.inl hne)
    have hconn : s.connSlot.getLsbD r.1 = true := by
      cases hc : s.connSlot.getLsbD r.1 with
      | true => rfl
      | false => exact absurd (.inr hc) hskip
    exact niReceiveReceiver_contained hs (h hframe hconn hack)
  · refine ⟨?_,fun c hc => by cases hc⟩
    split
    · exact (Calm.niReceiveSender ..).contained hs
    · exact hs

theorem childDispatchSlot_contained {f : SubFrame} {bm : Byte} (hs : ∀ j, Contained s j)
    (i : Fin 4) (h : childSlotFits f bm s i) :
    (∀ j, Contained (childDispatchSlot f bm s i) j) ∧
      ∀ c ∈ childSlotCopies f bm s i, c.Inside := by
  unfold childDispatchSlot childSlotCopies
  split_ifs with hskip huni hack
  · exact ⟨hs,fun c hc => by cases hc⟩
  · exact ⟨(Calm.uniReceive s i f).contained hs,uniCopies_inside s i f⟩
  · exact niReceiveReceiver_contained hs (h (by simpa using hskip) hack)
  · exact ⟨(Calm.niReceiveSender ..).contained hs,fun c hc => by cases hc⟩
  · exact ⟨hs,fun c hc => by cases hc⟩

theorem childDispatch_contained (hs : ∀ j, Contained s j) (f : SubFrame) (h : childFits s f) :
    (∀ j, Contained (childDispatch s f) j) ∧ ∀ c ∈ childCopies s f, c.Inside := by
  unfold childDispatch childCopies
  dsimp only
  split_ifs with hskip
  · exact ⟨hs,fun c hc => by cases hc⟩
  · have halong := h (not_not.mp hskip)
    exact Runs.Along.trace (fun s => ∀ j, Contained s j)
      (fun s i hs hi => childDispatchSlot_contained hs i hi) hs halong

theorem cbRecvData_contained (hs : ∀ j, Contained s j) (word : ℕ) (buf : ℕ → Byte)
    (h : packetFits s word buf) :
    (∀ j, Contained (cbRecvData s word buf) j) ∧
      ∀ c ∈ copies s (.cbRecvData word buf), c.Inside := by
  have hparent : ∀ j, Contained (parentStart s word) j := fun j => (hs j).congr rfl rfl rfl
  have hchild : ∀ j, Contained (childStart s word) j := fun j => (hs j).congr rfl rfl rfl
  have hfinish : ∀ s : Station, (∀ j, Contained s j) →
      ∀ j, Contained ((List.finRange 4).foldl finishRecv s) j :=
    fun s hs => (Calm.foldl Calm.finishRecv s _).contained hs
  rw [cbRecvData_eq]
  unfold copies
  unfold packetFits at h
  dsimp only
  split_ifs at h ⊢
  · obtain ⟨hrun,hlog⟩ := Runs.Along.trace (fun s => ∀ j, Contained s j)
      (fun s r hs hr => parentStep_contained hs r hr) hparent h
    exact ⟨hfinish _ hrun,hlog⟩
  · obtain ⟨hrun,hlog⟩ := Runs.Along.trace (fun s => ∀ j, Contained s j)
      (fun s f hs hf => childDispatch_contained hs f hf) hchild h
    exact ⟨hfinish _ hrun,hlog⟩

theorem step_contained (s : Station) (e : Event) (hs : ∀ j, Contained s j)
    (h : WithinAnnounced s e) : ∀ j, Contained (step s e) j := by
  cases e with
  | niSetSendData bm size src dataSize => exact (Calm.setSendDataOrg ..).contained hs
  | uniSetSendData bm src size => exact (Calm.setSendDataOrg ..).contained hs
  | niChildSetSendGameName slot size => exact (Calm.setSendDataOrg ..).contained hs
  | uniChangeAndReadySendData slot src size =>
    exact ((Calm.uniCalls s slot).1 src size).contained hs
  | uniReadySendData slot => exact (Calm.uniCalls s slot).2.1.contained hs
  | uniClearRecvNewDataFlag slot => exact (Calm.uniCalls s slot).2.2.contained hs
  | changeSendTarget kind slot bm => exact (Calm.changeSendTarget ..).contained hs
  | niStopReceivingData slot => exact (Calm.niStopReceivingData ..).contained hs
  | clearSlot kinds slot => exact (Calm.clearSlot ..).contained hs
  | clearAllSlot => exact (Calm.clearAllSlot s).contained hs
  | setRecvBuffer kind slot address size =>
    exact setRecvBuffer_contained hs kind slot address size h
  | constructSendLLFrame => exact (Calm.constructSendLLFrame s).contained hs
  | cbSendData result => exact (Calm.cbSendData ..).contained hs
  | cbRecvData word buf => exact (cbRecvData_contained hs word buf h).1
  | niCheckCommFailCounter => exact (Calm.niCheckCommFailCounter s).contained hs
  | connect r i => exact ((Calm.links s i).1 r).contained hs
  | removeLinkData i forget => exact ((Calm.links s i).2 forget).contained hs

theorem copies_inside (s : Station) (e : Event) (hs : ∀ j, Contained s j)
    (h : WithinAnnounced s e) : ∀ c ∈ copies s e, c.Inside := by
  cases e with
  | cbRecvData word buf => exact (cbRecvData_contained hs word buf h).2
  | _ =>
    intro c hc
    cases hc

end Events

section Walk

theorem decodeLLSF_pos {h : RfuHeader} (hsize : 0 < h.size) (buf : ℕ → Byte) (a len : ℕ)
    (hlen : 0 < len) : 0 < (decodeLLSF h buf a len).1 := by
  unfold decodeLLSF
  dsimp only
  split_ifs
  · exact hlen
  · exact Nat.add_pos_right _ hsize

/-- The walk over the sub-frames of a child's packet comes to its end. -/
theorem childReadPacket_ends (word : ℕ) (buf : ℕ → Byte) : (childReadPacket word buf).left ≤ 0 :=
  readRecords_left_le (decodeLLSF_pos (by decide)) buf _ 0 le_rfl

/-- So do the four walks over a parent's packet. -/
theorem parentReadPacket_ends (word : ℕ) (buf : ℕ → Byte) :
    ∀ left ∈ (parentReadPacket word buf).2, left ≤ 0 := by
  refine @Runs.run_invariant _ _ (parentReadSlot word buf)
    (fun r : Reading (Fin 4 × SubFrame) × List ℤ => ∀ left ∈ r.2, left ≤ 0) ?_ _ ?_ (List.finRange 4)
  · intro r i hr left hleft
    obtain hleft | hleft := List.mem_append.mp hleft
    · exact hr left hleft
    · rw [List.mem_singleton] at hleft
      subst hleft
      exact readRecords_left_le (decodeLLSF_pos (by decide)) buf _ _ le_rfl
  · intro left hleft
    cases hleft

end Walk

section Run

/-- Received packets write only where they may, in every run whose sub-frames stay within what
their transfers announce: the walks over a packet end, every byte copied lands inside its area,
and no other byte of memory changes. -/
theorem received_bytes_contained (address : ℕ) (mem : ℕ → Byte) (es : List Event)
    (h : Runs.Along step WithinAnnounced (initializeAPI address mem) es) :
    (∀ word buf, (childReadPacket word buf).left ≤ 0 ∧
        ∀ left ∈ (parentReadPacket word buf).2, left ≤ 0) ∧
      (∀ c ∈ Runs.trace step copies (initializeAPI address mem) es, c.Inside) ∧
      ∀ (s : Station) word buf a, (cbRecvData s word buf).mem a ≠ s.mem a →
        ∃ c ∈ copies s (.cbRecvData word buf), c.Writes a := by
  have hinit : ∀ j, Contained (initializeAPI address mem) j := fun j =>
    .idle (by simp [initializeAPI,NiSlot.zero]) (by simp [initializeAPI,NiSlot.zero])
  refine ⟨fun word buf => ⟨childReadPacket_ends word buf,parentReadPacket_ends word buf⟩,?_,?_⟩
  · exact (Runs.Along.trace (fun s => ∀ j, Contained s j)
      (fun s e hs he => ⟨step_contained s e hs he,copies_inside s e hs he⟩) hinit h).2
  · exact fun s word buf a hne => changed_cbRecvData s word buf hne

/-- A packet that begins with the given bytes. -/
def packet (bs : List Byte) : ℕ → Byte := fun a => bs.getD a 0

/-- Five bytes are received from the child in slot 0 of a parent. -/
def fiveBytes : List Event :=
  [.connect .parent 0,.setRecvBuffer 0x20 0 0x2001000 16,
    .cbRecvData (9 <<< 8) (packet [0x87,0x04,0,8,0,5,0,0,0]),
    .cbRecvData (7 <<< 8) (packet [0x85,0x08,1,2,3,4,5])]

theorem received_bytes_contained_fiveBytes :
    (Runs.trace step copies (initializeAPI 0x2000000 fun _ => 0) fiveBytes).map
        (fun c => (c.dest,c.length)) = [(.control 0,7),(.data 0x2001000,5)] ∧
      ∀ c ∈ Runs.trace step copies (initializeAPI 0x2000000 fun _ => 0) fiveBytes, c.Inside :=
  ⟨by decide +kernel,(received_bytes_contained 0x2000000 (fun _ => 0) fiveBytes
    (by decide +kernel)).2.1⟩

/-- The first control sub-frame of a transfer, with a payload of twelve bytes. -/
def longControl : List Event :=
  [.connect .parent 0,.cbRecvData (14 <<< 8) (packet [0x8C,0x04,0,8,0,5,0,0,0,1,2,3,4,5])]

theorem received_bytes_escape :
    ¬ ∀ (address : ℕ) (mem : ℕ → Byte) (es : List Event),
      ∀ c ∈ Runs.trace step copies (initializeAPI address mem) es, c.Inside := by
  intro hall
  have hbad : ∃ c ∈ Runs.trace step copies (initializeAPI 0x2000000 fun _ => 0) longControl,
      ¬ c.Inside := by
    decide +kernel
  obtain ⟨c,hc,hnot⟩ := hbad
  exact hnot (hall _ _ _ c hc)

end Run

end Rfu
end AgbTools
