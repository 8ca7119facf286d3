import Mathlib.Algebra.Order.BigOperators.Group.List
import Mathlib.Data.Nat.Bitwise
import AgbTools.Framing
import AgbTools.Rfu

/-! Link-layer frames: the sub-frames of the active slots, the packet they are put into, and
the way the other side takes a packet apart. -/
namespace AgbTools
namespace Rfu

open Framing

/-- The fields of a sub-frame as `rfu_STC_analyzeLLSF` decodes them; the size field is the
length of the payload. -/
structure SubFrame where
  frame : ℕ
  bmSlot : ℕ
  state : ℕ
  ack : Bool
  phase : Fin 4
  n : Fin 4
  payload : List Byte
  deriving DecidableEq, Repr

section Construct

/-- The control data at +0x2D: type, payload size and data size. -/
def NiSlot.control (x : NiSlot) : List Byte :=
  x.dataType :: (toBytes 2 x.payloadSize ++ toBytes 4 x.dataSize)

/-- The `size` bytes a pointer of the slot points to. -/
def NiSlot.bytesAt (x : NiSlot) (mem : ℕ → Byte) (size : ℕ) : Ptr → List Byte
  | .control o => (List.range size).map fun i => x.control.getD (o+i) 0
  | .data a => CellMemory.read mem a size

/-- Nothing is left to send in phase `k`. -/
def NiSlot.phaseDone (x : NiSlot) (k : Fin 4) : Bool :=
  match x.ptr k with
  | .control _ => false
  | .data a => x.src + x.dataSize ≤ a

/-- The first phase from `k` on that is not done. A slot with no such phase keeps the source
in this loop for ever (`NiSlot.stuck`); four tries see every phase. -/
def NiSlot.seek (x : NiSlot) : ℕ → Fin 4 → Fin 4
  | 0, k => k
  | tries+1, k => if x.phaseDone k then x.seek tries (k+1) else k

def NiSlot.stuck (x : NiSlot) : Prop := x.state = 0x8022 ∧ ∀ k, x.phaseDone k = true

instance (x : NiSlot) : Decidable x.stuck :=
  inferInstanceAs (Decidable (x.state = 0x8022 ∧ ∀ k, x.phaseDone k = true))

/-- The phase the next sub-frame is built for. -/
def NiSlot.sendPhase (x : NiSlot) : Fin 4 :=
  if x.state = 0x8022 then x.seek 4 x.phase else x.phase

/-- Its size. Receivers (bit 0x40) send headers only. -/
def NiSlot.sendSize (x : NiSlot) : ℕ :=
  if x.state.getLsbD 6 then 0
  else if x.state = 0x8022 then
    match x.ptr x.sendPhase with
    | .control _ => x.payloadSize
    | .data a =>
      if x.src + x.dataSize < a + x.payloadSize then (x.src + x.dataSize - a) % 2^16
      else x.payloadSize
  else if x.remain < 0 ∨ (x.payloadSize : ℤ) ≤ x.remain then x.payloadSize
  else x.remain.toNat % 2^16

/-- The header word both constructors assemble; only a parent adds the targets. -/
def headerWord (m : Mode) (bm : Byte) (state ack phase n size : ℕ) : ℕ :=
  let h := m.header
  let w := state <<< h.stateShift ||| ack <<< h.ackShift ||| phase <<< h.phaseShift |||
    n <<< h.nShift ||| size
  if m = .parent then w ||| bm.toNat <<< 18 else w

/-- The bytes `rfu_STC_NI_constructLLSF` appends for one half of a slot. -/
def niLLSF (s : Station) (x : NiSlot) : List Byte :=
  let k := x.sendPhase
  let size := x.sendSize
  let w := headerWord s.mode x.bmSlot (x.state.toNat % 16) x.ack.toNat k (x.n k) size
  toBytes s.mode.header.size w ++ x.bytesAt s.mem size (x.ptr k)

/-- What it leaves in the slot: in the data stage the phase moves on. -/
def NiSlot.advance (x : NiSlot) : NiSlot :=
  if x.state = 0x8022 then { x with phase := x.sendPhase+1 } else x

/-- The bytes `rfu_STC_UNI_constructLLSF` appends. -/
def uniLLSF (s : Station) (x : UniSlot) : List Byte :=
  if x.ready = false ∨ x.bmSlot = 0 then []
  else
    let w := headerWord s.mode x.bmSlot (x.state.toNat % 16) 0 0 0 x.payloadSize
    toBytes s.mode.header.size w ++ CellMemory.read s.mem x.src x.payloadSize

/-- The bytes of slot `i`. The constructors write nothing that another slot reads. -/
def slotLLSF (s : Station) (i : Fin 4) : List Byte :=
  (if (s.niSend i).active then niLLSF s (s.niSend i) else []) ++
  (if (s.niRecv i).active then niLLSF s (s.niRecv i) else []) ++
  (if (s.uniSend i).state = 0x8024 then uniLLSF s (s.uniSend i) else [])

/-- The ready byte (+0xE): a parent stores, a child collects bits. -/
def readySlot (s : Station) (r : Byte) (i : Fin 4) : Byte :=
  let ni (r : Byte) : Byte := if s.mode = .parent then 1 else bit i ||| r
  let uni (r : Byte) : Byte := if s.mode = .parent then 0x10 else 0x10#8 <<< (i : ℕ) ||| r
  let r := if (s.niSend i).active then ni r else r
  let r := if (s.niRecv i).active then ni r else r
  if (s.uniSend i).state = 0x8024 ∧ uniLLSF s (s.uniSend i) ≠ [] then uni r else r

/-- The announced length: the sum for a parent, five bits a slot for a child. -/
def lengthWord (s : Station) : ℕ :=
  (List.finRange 4).foldl (fun w i =>
    if s.mode = .parent then w + (slotLLSF s i).length
    else w ||| (slotLLSF s i).length <<< (8+5*(i : ℕ))) 0

/-- The packet area from +0x68 on, and the size handed to the request. -/
structure Packet where
  word : ℕ
  data : List Byte
  size : ℕ

def pad (xs : List Byte) : List Byte := xs ++ List.replicate ((4 - xs.length % 4) % 4) 0

/-- `rfu_constructSendLLFrame`. -/
def constructSendLLFrame (s : Station) : Station × Option Packet :=
  if s.mode = .off ∨ s.niSendFlag ||| s.niRecvFlag ||| s.uniSendFlag = 0 then (s,none)
  else
    let data := pad ((List.finRange 4).flatMap (slotLLSF s))
    let word := lengthWord s
    let advance (x : NiSlot) : NiSlot := if x.active then x.advance else x
    ({ s with
        frameReady := (List.finRange 4).foldl (readySlot s) 0
        niSend := fun i => advance (s.niSend i)
        niRecv := fun i => advance (s.niRecv i) },
      if word = 0 then none
      else some ⟨word,data,if s.mode = .parent then word else data.length⟩)

end Construct

section Analyze

/-- The decoding half of `rfu_STC_analyzeLLSF`: what it returns, and the sub-frame it goes on
with when the length covers a header. -/
def decodeLLSF (h : RfuHeader) (buf : ℕ → Byte) (a len : ℕ) : ℕ × Option SubFrame :=
  if len < h.size then (len,none)
  else
    let w := ofBytes (CellMemory.read buf a h.size)
    let size := w &&& h.sizeMask
    (size + h.size,some {
      frame := w >>> h.frameShift &&& h.frameMask
      bmSlot := w >>> h.slotShift &&& h.slotMask
      state := w >>> h.stateShift &&& h.stateMask
      ack := (w >>> h.ackShift &&& h.ackMask) ≠ 0
      phase := Fin.ofNat 4 (w >>> h.phaseShift &&& h.phaseMask)
      n := Fin.ofNat 4 (w >>> h.nShift &&& h.nMask)
      payload := CellMemory.read buf (a + h.size) size })

/-- The announced length of child slot `i` in the first word. -/
def slotLength (word : ℕ) (i : Fin 4) : ℕ := word >>> 8 >>> (5*(i : ℕ)) &&& 0x1F

/-- One round of the second loop of `rfu_STC_PARENT_analyzeRecvPacket`: the sub-frames of
slot `i`, read on from where the slot before ended. -/
def parentReadSlot (word : ℕ) (buf : ℕ → Byte) (r : Reading (Fin 4 × SubFrame) × List ℤ)
    (i : Fin 4) : Reading (Fin 4 × SubFrame) × List ℤ :=
  let d := readRecords (decodeLLSF childHeader) buf (slotLength word i) r.1.position
    (slotLength word i)
  (⟨r.1.records ++ d.records.map (Prod.mk i),d.position,d.left⟩,r.2 ++ [d.left])

/-- The sub-frames a parent finds in a packet, with what the four loops left of their
lengths. -/
def parentReadPacket (word : ℕ) (buf : ℕ → Byte) : Reading (Fin 4 × SubFrame) × List ℤ :=
  (List.finRange 4).foldl (parentReadSlot word buf) (⟨[],0,0⟩,[])

/-- The sub-frames a child finds. -/
def childReadPacket (word : ℕ) (buf : ℕ → Byte) : Reading SubFrame :=
  readRecords (decodeLLSF parentHeader) buf (word &&& 0x7F) 0 (word &&& 0x7F : ℕ)

end Analyze

section SubFrames

/-- The sub-frame an NI slot contributes; a child's header has no room for targets. -/
def NiSlot.subFrame (m : Mode) (mem : ℕ → Byte) (x : NiSlot) : SubFrame where
  frame := 0
  bmSlot := if m = .parent then x.bmSlot.toNat else 0
  state := x.state.toNat % 16
  ack := x.ack
  phase := x.sendPhase
  n := x.n x.sendPhase
  payload := x.bytesAt mem x.sendSize (x.ptr x.sendPhase)

def UniSlot.subFrame (m : Mode) (mem : ℕ → Byte) (x : UniSlot) : SubFrame where
  frame := 0
  bmSlot := if m = .parent then x.bmSlot.toNat else 0
  state := x.state.toNat % 16
  ack := false
  phase := 0
  n := 0
  payload := CellMemory.read mem x.src x.payloadSize

/-- The sub-frames of slot `i`, in the order they are sent. -/
def slotFrames (s : Station) (i : Fin 4) : List SubFrame :=
  (if (s.niSend i).active then [(s.niSend i).subFrame s.mode s.mem] else []) ++
  (if (s.niRecv i).active then [(s.niRecv i).subFrame s.mode s.mem] else []) ++
  (if (s.uniSend i).state = 0x8024 ∧ (s.uniSend i).ready ∧ (s.uniSend i).bmSlot ≠ 0 then
    [(s.uniSend i).subFrame s.mode s.mem] else [])

def subFrames (s : Station) : List (Fin 4 × SubFrame) :=
  (List.finRange 4).flatMap fun i => (slotFrames s i).map (Prod.mk i)

def encodeLLSF (m : Mode) (f : SubFrame) : List Byte :=
  toBytes m.header.size (headerWord m (BitVec.ofNat 8 f.bmSlot) f.state f.ack.toNat f.phase f.n
    f.payload.length) ++ f.payload

@[simp] theorem NiSlot.length_bytesAt (x : NiSlot) (mem : ℕ → Byte) (size : ℕ) (q : Ptr) :
    (x.bytesAt mem size q).length = size := by
  cases q <;> simp [NiSlot.bytesAt]

@[simp] theorem headerWord_targets (m : Mode) (bm : Byte) (st a k n size : ℕ) :
    headerWord m (BitVec.ofNat 8 (if m = .parent then bm.toNat else 0)) st a k n size =
      headerWord m bm st a k n size := by
  by_cases hm : m = .parent <;> simp [headerWord,hm]

theorem niLLSF_eq (s : Station) (x : NiSlot) :
    niLLSF s x = encodeLLSF s.mode (x.subFrame s.mode s.mem) := by
  simp [niLLSF,encodeLLSF,NiSlot.subFrame]

theorem uniLLSF_eq (s : Station) (x : UniSlot) :
    uniLLSF s x = if x.ready ∧ x.bmSlot ≠ 0 then encodeLLSF s.mode (x.subFrame s.mode s.mem)
      else [] := by
  by_cases hr : x.ready <;> by_cases hb : x.bmSlot = 0 <;>
    simp [uniLLSF,encodeLLSF,UniSlot.subFrame,hr,hb]

/-- A slot's bytes are the codes of its sub-frames. -/
theorem slotLLSF_eq (s : Station) (i : Fin 4) :
    slotLLSF s i = (slotFrames s i).flatMap (encodeLLSF s.mode) := by
  unfold slotLLSF slotFrames
  rw [niLLSF_eq,niLLSF_eq,uniLLSF_eq]
  rw [List.flatMap_append,List.flatMap_append]
  congr 1
  · congr 1
    · split_ifs <;> simp
    · split_ifs <;> simp
  · by_cases h : (s.uniSend i).state = 0x8024 <;> split_ifs <;> simp_all

end SubFrames

section ReadBack

theorem lor_eq_add {a b k : ℕ} (h : b < 2^k) : a <<< k ||| b = a*2^k + b := by
  rw [← Nat.shiftLeft_add_eq_or_of_lt h,Nat.shiftLeft_eq]

/-- The fields of a header word from high to low. -/
theorem lor_fields (a b c d e : ℕ) :
    a ||| b ||| c ||| d ||| e = a ||| (b ||| (d ||| (c ||| e))) := by
  rw [Nat.lor_assoc (a ||| b) c d,Nat.lor_comm c d,Nat.lor_assoc (a ||| b) (d ||| c) e,
    Nat.lor_assoc d c e,Nat.lor_assoc a b]

/-- A parent's header word as a sum of its fields. -/
theorem headerWord_parent {st a k n size : ℕ} (bm : Byte) (hst : st < 16) (ha : a < 2)
    (hk : k < 4) (hn : n < 4) (hsize : size < 128) :
    headerWord .parent bm st a k n size =
      bm.toNat*2^18 + (st*2^14 + (a*2^13 + (n*2^11 + (k*2^9 + size)))) := by
  have horder : headerWord .parent bm st a k n size =
      bm.toNat <<< 18 ||| (st <<< 14 ||| (a <<< 13 ||| (n <<< 11 ||| (k <<< 9 ||| size)))) := by
    simp only [headerWord,Mode.header,parentHeader,if_pos]
    rw [Nat.lor_comm _ (bm.toNat <<< 18),lor_fields]
  rw [horder,lor_eq_add (by omega : size < 2^9),
    lor_eq_add (by omega : k*2^9 + size < 2^11),
    lor_eq_add (by omega : n*2^11 + (k*2^9 + size) < 2^13),
    lor_eq_add (by omega : a*2^13 + (n*2^11 + (k*2^9 + size)) < 2^14),
    lor_eq_add (by omega : st*2^14 + (a*2^13 + (n*2^11 + (k*2^9 + size))) < 2^18)]

/-- A child's header word. -/
theorem headerWord_child {a k n size : ℕ} (bm : Byte) (st : ℕ) (ha : a < 2) (hk : k < 4) (hn : n < 4)
    (hsize : size < 32) :
    headerWord .child bm st a k n size = st*2^10 + (a*2^9 + (n*2^7 + (k*2^5 + size))) := by
  have horder : headerWord .child bm st a k n size =
      st <<< 10 ||| (a <<< 9 ||| (n <<< 7 ||| (k <<< 5 ||| size))) := by
    simp only [headerWord,Mode.header,childHeader,reduceCtorEq,if_false]
    rw [lor_fields]
  rw [horder,lor_eq_add (by omega : size < 2^5),
    lor_eq_add (by omega : k*2^5 + size < 2^7),
    lor_eq_add (by omega : n*2^7 + (k*2^5 + size) < 2^9),
    lor_eq_add (by omega : a*2^9 + (n*2^7 + (k*2^5 + size)) < 2^10)]

/-- A sub-frame that its header can carry. -/
structure SubFrame.Fits (m : Mode) (f : SubFrame) : Prop where
  frame : f.frame = 0
  bmSlot : if m = .parent then f.bmSlot < 16 else f.bmSlot = 0
  state : f.state < 16
  payload : f.payload.length < if m = .parent then 128 else 32

/-- Masks of `k` low bits. -/
theorem and_mask {x : ℕ} (k mask : ℕ) (h : 2^k-1 = mask) : x &&& mask = x % 2^k := by
  rw [← h,Nat.and_two_pow_sub_one_eq_mod]

theorem length_encodeLLSF (m : Mode) (f : SubFrame) :
    (encodeLLSF m f).length = m.header.size + f.payload.length := by
  simp [encodeLLSF]

/-- The decoder on the code of a sub-frame, once the word of its header is known. -/
theorem decodeLLSF_encode {m : Mode} {f : SubFrame} {w : ℕ} {buf : ℕ → Byte} {a len : ℕ}
    (hw : headerWord m (BitVec.ofNat 8 f.bmSlot) f.state f.ack.toNat f.phase f.n
      f.payload.length = w) (hlt : w < 256^m.header.size)
    (hread : CellMemory.read buf a (encodeLLSF m f).length = encodeLLSF m f)
    (hlen : (encodeLLSF m f).length ≤ len) (hsize : w &&& m.header.sizeMask = f.payload.length)
    (hframe : w >>> m.header.frameShift &&& m.header.frameMask = f.frame)
    (hbm : w >>> m.header.slotShift &&& m.header.slotMask = f.bmSlot)
    (hst : w >>> m.header.stateShift &&& m.header.stateMask = f.state)
    (hack : w >>> m.header.ackShift &&& m.header.ackMask = f.ack.toNat)
    (hphase : w >>> m.header.phaseShift &&& m.header.phaseMask = f.phase)
    (hn : w >>> m.header.nShift &&& m.header.nMask = f.n) :
    decodeLLSF m.header buf a len = ((encodeLLSF m f).length,some f) := by
  have hcover : ¬ len < m.header.size := by rw [length_encodeLLSF] at hlen; omega
  rw [encodeLLSF,hw] at hread
  obtain ⟨hhead,htail⟩ := read_append.mp hread
  rw [length_toBytes] at hhead htail
  have hword : ofBytes (CellMemory.read buf a m.header.size) = w := by
    rw [hhead,ofBytes_toBytes,Nat.mod_eq_of_lt hlt]
  unfold decodeLLSF
  rw [if_neg hcover]
  simp only [hword,hsize,hframe,hbm,hst,hack,hphase,hn,htail,length_encodeLLSF]
  rw [Nat.add_comm]
  simp

theorem readsBack_parent {f : SubFrame} (hf : f.Fits .parent) :
    ReadsBack (decodeLLSF parentHeader) (encodeLLSF .parent) f := by
  obtain ⟨hframe,hbm,hst,hlen⟩ := hf
  rw [if_pos rfl] at hbm hlen
  have hack : f.ack.toNat < 2 := Bool.toNat_lt f.ack
  have hphase := f.phase.isLt
  have hn := f.n.isLt
  refine ⟨by simp [length_encodeLLSF,Mode.header,parentHeader],fun buf a len hread hle => ?_⟩
  have hw := headerWord_parent (BitVec.ofNat 8 f.bmSlot) hst hack hphase hn hlen
  rw [BitVec.toNat_ofNat,Nat.mod_eq_of_lt (by omega)] at hw
  refine decodeLLSF_encode (m := .parent) hw ?_ hread hle ?_ ?_ ?_ ?_ ?_ ?_ ?_ <;>
    simp only [Mode.header,parentHeader,Nat.shiftRight_eq_div_pow]
  · omega
  · rw [and_mask 7 127 rfl]; omega
  · rw [and_mask 2 3 rfl]; omega
  · rw [and_mask 4 15 rfl]; omega
  · rw [and_mask 4 15 rfl]; omega
  · rw [and_mask 1 1 rfl]; omega
  · rw [and_mask 2 3 rfl]; omega
  · rw [and_mask 2 3 rfl]; omega

theorem readsBack_child {f : SubFrame} (hf : f.Fits .child) :
    ReadsBack (decodeLLSF childHeader) (encodeLLSF .child) f := by
  obtain ⟨hframe,hbm,hst,hlen⟩ := hf
  simp only [reduceCtorEq,if_false] at hbm hlen
  have hack : f.ack.toNat < 2 := Bool.toNat_lt f.ack
  have hphase := f.phase.isLt
  have hn := f.n.isLt
  refine ⟨by simp [length_encodeLLSF,Mode.header,childHeader],fun buf a len hread hle => ?_⟩
  have hw := headerWord_child (BitVec.ofNat 8 f.bmSlot) f.state hack hphase hn hlen
  refine decodeLLSF_encode (m := .child) hw ?_ hread hle ?_ ?_ ?_ ?_ ?_ ?_ ?_ <;>
    simp only [Mode.header,childHeader,Nat.shiftRight_eq_div_pow]
  · omega
  · rw [and_mask 5 31 rfl]; omega
  · rw [Nat.div_eq_of_lt (by omega),hframe,Nat.zero_and]
  · rw [Nat.and_zero,hbm]
  · rw [and_mask 4 15 rfl]; omega
  · rw [and_mask 1 1 rfl]; omega
  · rw [and_mask 2 3 rfl]; omega
  · rw [and_mask 2 3 rfl]; omega

end ReadBack

section RoundTrip
variable {s : Station} {p : Packet} {buf : ℕ → Byte}

/-- All bytes of a frame, before the padding. -/
def frameBytes (s : Station) : List Byte := (List.finRange 4).flatMap (slotLLSF s)

/-- What the calls and the budget promise about the slots when a frame is built: no slot keeps
the constructor in its phase loop, targets are slot numbers, and the sub-frames stay within
0x57 bytes of a parent and 0x10 bytes for each slot of a child. -/
structure FitsFrame (s : Station) : Prop where
  live : ∀ i, ((s.niSend i).active → ¬ (s.niSend i).stuck) ∧
    ((s.niRecv i).active → ¬ (s.niRecv i).stuck)
  targets : ∀ f ∈ subFrames s, f.2.bmSlot < 16
  parent : s.mode = .parent → (frameBytes s).length ≤ 0x57
  child : s.mode = .child → ∀ i, (slotLLSF s i).length ≤ 0x10

theorem mem_slotFrames {i : Fin 4} {f : SubFrame} (hf : f ∈ slotFrames s i) :
    (∃ x : NiSlot, f = x.subFrame s.mode s.mem) ∨ ∃ x : UniSlot, f = x.subFrame s.mode s.mem := by
  simp only [slotFrames,List.mem_append] at hf
  obtain (hf | hf) | hf := hf
  · split_ifs at hf
    · exact .inl ⟨_,List.mem_singleton.mp hf⟩
    · cases hf
  · split_ifs at hf
    · exact .inl ⟨_,List.mem_singleton.mp hf⟩
    · cases hf
  · split_ifs at hf
    · exact .inr ⟨_,List.mem_singleton.mp hf⟩
    · cases hf

/-- Header fields other than the targets are in range by construction. -/
theorem slotFrames_fields {i : Fin 4} {f : SubFrame} (hf : f ∈ slotFrames s i) :
    f.frame = 0 ∧ f.state < 16 ∧ (s.mode ≠ .parent → f.bmSlot = 0) := by
  obtain ⟨x,rfl⟩ | ⟨x,rfl⟩ := mem_slotFrames hf
  · exact ⟨rfl,Nat.mod_lt _ (by decide),fun hm => if_neg hm⟩
  · exact ⟨rfl,Nat.mod_lt _ (by decide),fun hm => if_neg hm⟩

theorem length_le_flatMap {α β : Type*} (g : α → List β) {x : α} {xs : List α} (hx : x ∈ xs) :
    (g x).length ≤ (xs.flatMap g).length := by
  rw [List.length_flatMap]
  exact List.le_sum_of_mem (List.mem_map_of_mem hx)

theorem length_payload_lt {i : Fin 4} {f : SubFrame} (hf : f ∈ slotFrames s i) :
    f.payload.length + s.mode.header.size ≤ (slotLLSF s i).length := by
  have hle := length_le_flatMap (encodeLLSF s.mode) hf
  rw [← slotLLSF_eq,length_encodeLLSF] at hle
  omega

theorem length_slotLLSF_le (i : Fin 4) : (slotLLSF s i).length ≤ (frameBytes s).length :=
  length_le_flatMap (slotLLSF s) (List.mem_finRange i)

theorem FitsFrame.fits (h : FitsFrame s) (hm : s.mode ≠ .off) {i : Fin 4} {f : SubFrame}
    (hf : f ∈ slotFrames s i) : f.Fits s.mode := by
  obtain ⟨hframe,hst,hchild⟩ := slotFrames_fields hf
  have hlen := length_payload_lt hf
  have htarget : f.bmSlot < 16 := h.targets (i,f) (List.mem_flatMap.mpr
    ⟨i,List.mem_finRange i,List.mem_map.mpr ⟨f,hf,rfl⟩⟩)
  cases hmode : s.mode with
  | parent =>
    have htotal := h.parent hmode
    have hslot := length_slotLLSF_le (s := s) i
    exact ⟨hframe,htarget,hst,show f.payload.length < 128 by omega⟩
  | child =>
    have hslot := h.child hmode i
    have hbm := hchild (by simp [hmode])
    exact ⟨hframe,hbm,hst,show f.payload.length < 32 by omega⟩
  | off => exact absurd hmode hm

theorem lengthWord_parent (hm : s.mode = .parent) : lengthWord s = (frameBytes s).length := by
  simp [lengthWord,frameBytes,hm,List.finRange_succ,Nat.add_assoc]

/-- Four lengths of five bits, packed and taken apart again. -/
theorem slotLength_packed (len : Fin 4 → ℕ) (h : ∀ i, len i < 32) (i : Fin 4) :
    slotLength (len 0 <<< 8 ||| len 1 <<< 13 ||| len 2 <<< 18 ||| len 3 <<< 23) i = len i := by
  have h0 := h 0
  have h1 := h 1
  have h2 := h 2
  have horder (a b c d : ℕ) : a ||| b ||| c ||| d = d ||| (c ||| (b ||| a)) := by
    rw [Nat.lor_comm _ d,Nat.lor_comm _ c,Nat.lor_comm a b]
  rw [horder,Nat.shiftLeft_eq (len 0) 8,lor_eq_add (by omega : len 0*2^8 < 2^13),
    lor_eq_add (by omega : len 1*2^13 + len 0*2^8 < 2^18),
    lor_eq_add (by omega : len 2*2^18 + (len 1*2^13 + len 0*2^8) < 2^23),slotLength,
    and_mask 5 0x1F rfl,Nat.shiftRight_eq_div_pow,Nat.shiftRight_eq_div_pow]
  have hi := h i
  match i with
  | 0 => show _ / 2^8 / 2^0 % 2^5 = len 0; omega
  | 1 => show _ / 2^8 / 2^5 % 2^5 = len 1; omega
  | 2 => show _ / 2^8 / 2^10 % 2^5 = len 2; omega
  | 3 => show _ / 2^8 / 2^15 % 2^5 = len 3; omega

theorem slotLength_lengthWord (hm : s.mode = .child) (h : ∀ i, (slotLLSF s i).length ≤ 0x10)
    (i : Fin 4) : slotLength (lengthWord s) i = (slotLLSF s i).length := by
  have hfold : lengthWord s = 0 ||| (slotLLSF s 0).length <<< 8 |||
      (slotLLSF s 1).length <<< 13 ||| (slotLLSF s 2).length <<< 18 |||
      (slotLLSF s 3).length <<< 23 := by
    simp only [lengthWord,hm,reduceCtorEq,if_false]
    rfl
  rw [hfold,Nat.zero_or]
  exact slotLength_packed (fun i => (slotLLSF s i).length)
    (fun j => Nat.lt_of_le_of_lt (h j) (by decide)) i

theorem frameBytes_eq (s : Station) :
    frameBytes s = ((subFrames s).map Prod.snd).flatMap (encodeLLSF s.mode) := by
  have hslot (i : Fin 4) : slotLLSF s i =
      (((slotFrames s i).map (Prod.mk i)).map Prod.snd).flatMap (encodeLLSF s.mode) := by
    rw [slotLLSF_eq,List.map_map]
    simp [Function.comp_def]
  simp only [frameBytes,subFrames,List.map_flatMap,List.flatMap_assoc]
  rw [funext hslot]

theorem mem_subFrames {f : SubFrame} (hf : f ∈ (subFrames s).map Prod.snd) :
    ∃ i, f ∈ slotFrames s i := by
  obtain ⟨⟨i,g⟩,hg,rfl⟩ := List.mem_map.mp hf
  obtain ⟨j,-,hj⟩ := List.mem_flatMap.mp hg
  obtain ⟨g',hg',heq⟩ := List.mem_map.mp hj
  cases heq
  exact ⟨i,hg'⟩

/-- A child reads a parent's frame back. -/
theorem childReadPacket_frame (h : FitsFrame s) (hm : s.mode = .parent)
    (hbuf : CellMemory.read buf 0 (frameBytes s).length = frameBytes s) :
    childReadPacket (lengthWord s) buf =
      ⟨(subFrames s).map Prod.snd,(frameBytes s).length,0⟩ := by
  have hword : lengthWord s &&& 0x7F = (frameBytes s).length := by
    have htotal := h.parent hm
    rw [and_mask 7 0x7F rfl,lengthWord_parent hm,Nat.mod_eq_of_lt (by omega)]
  rw [childReadPacket,hword]
  rw [frameBytes_eq,hm] at hbuf ⊢
  have hback : ∀ f ∈ (subFrames s).map Prod.snd,
      ReadsBack (decodeLLSF parentHeader) (encodeLLSF .parent) f := by
    intro f hf
    obtain ⟨i,hi⟩ := mem_subFrames hf
    exact readsBack_parent (hm ▸ h.fits (by simp [hm]) hi)
  have hread := readRecords_flatMap hback (a := 0) le_rfl hbuf
  rwa [Nat.zero_add] at hread

/-- The parent's loop over the slots, from any position on. -/
theorem parentReadSlot_foldl (h : FitsFrame s) (hm : s.mode = .child) {word : ℕ} :
    ∀ (is : List (Fin 4)) (acc : List (Fin 4 × SubFrame)) (a : ℕ) (lefts : List ℤ),
      (∀ i ∈ is, slotLength word i = (slotLLSF s i).length) →
      CellMemory.read buf a (is.flatMap (slotLLSF s)).length = is.flatMap (slotLLSF s) →
      is.foldl (parentReadSlot word buf) (⟨acc,a,0⟩,lefts) =
        (⟨acc ++ is.flatMap (fun i => (slotFrames s i).map (Prod.mk i)),
          a + (is.flatMap (slotLLSF s)).length,0⟩,lefts ++ is.map fun _ => 0) := by
  intro is
  induction is with
  | nil => simp
  | cons i is ih =>
    intro acc a lefts hlen hbuf
    rw [List.flatMap_cons] at hbuf
    obtain ⟨hhead,htail⟩ := read_append.mp hbuf
    have hback : ∀ f ∈ slotFrames s i, ReadsBack (decodeLLSF childHeader) (encodeLLSF .child) f :=
      fun f hf => readsBack_child (hm ▸ h.fits (by simp [hm]) hf)
    have hslot : parentReadSlot word buf (⟨acc,a,0⟩,lefts) i =
        (⟨acc ++ (slotFrames s i).map (Prod.mk i),a + (slotLLSF s i).length,0⟩,lefts ++ [0]) := by
      rw [slotLLSF_eq,hm] at hhead
      have hread := readRecords_flatMap hback (a := a) le_rfl hhead
      simp only [parentReadSlot,hlen i List.mem_cons_self]
      rw [slotLLSF_eq,hm,hread]
    rw [List.foldl_cons,hslot,
      ih _ _ _ (fun j hj => hlen j (List.mem_cons_of_mem i hj)) htail]
    simp [Nat.add_assoc]

/-- A parent reads a child's frame back, slot by slot. -/
theorem parentReadPacket_frame (h : FitsFrame s) (hm : s.mode = .child)
    (hbuf : CellMemory.read buf 0 (frameBytes s).length = frameBytes s) :
    parentReadPacket (lengthWord s) buf =
      (⟨subFrames s,(frameBytes s).length,0⟩,[0,0,0,0]) := by
  have hlen : ∀ i ∈ List.finRange 4, slotLength (lengthWord s) i = (slotLLSF s i).length :=
    fun i _ => slotLength_lengthWord hm (h.child hm) i
  have hfold := parentReadSlot_foldl h hm (List.finRange 4) [] 0 [] hlen hbuf
  rw [parentReadPacket,hfold,Nat.zero_add]
  rfl

/-- The length a packet of a sender in mode `m` announces in its first word. -/
def Packet.announced (m : Mode) (p : Packet) : ℕ :=
  if m = .parent then p.word &&& 0x7F else ((List.finRange 4).map (slotLength p.word)).sum

theorem length_frameBytes (h : FitsFrame s) (hm : s.mode ≠ .off) (data : List Byte) (size : ℕ) :
    Packet.announced s.mode ⟨lengthWord s,data,size⟩ = (frameBytes s).length := by
  unfold Packet.announced
  split_ifs with hp
  · have htotal := h.parent hp
    have hlow : (frameBytes s).length % 2^7 = (frameBytes s).length :=
      Nat.mod_eq_of_lt (by omega)
    rw [and_mask 7 0x7F rfl,lengthWord_parent hp]
    exact hlow
  · have hc : s.mode = .child := by cases hmode : s.mode <;> simp_all
    have hlen : slotLength (lengthWord s) = fun i => (slotLLSF s i).length :=
      funext (slotLength_lengthWord hc (h.child hc))
    rw [hlen,frameBytes,List.length_flatMap]

theorem constructSendLLFrame_packet (h : FitsFrame s) (hm : s.mode ≠ .off)
    (hflag : s.niSendFlag ||| s.niRecvFlag ||| s.uniSendFlag ≠ 0) (hne : subFrames s ≠ []) :
    ∃ size, (constructSendLLFrame s).2 = some ⟨lengthWord s,pad (frameBytes s),size⟩ := by
  have hpos : 0 < (frameBytes s).length := by
    obtain ⟨f,hf⟩ := List.exists_mem_of_ne_nil _ hne
    have hle := length_le_flatMap (encodeLLSF s.mode) (List.mem_map_of_mem (f := Prod.snd) hf)
    rw [← frameBytes_eq,length_encodeLLSF] at hle
    have hheader : 0 < s.mode.header.size := by cases s.mode <;> decide
    omega
  have hword : lengthWord s ≠ 0 := by
    intro hzero
    have hsum := length_frameBytes h hm [] 0
    have hnone : Packet.announced s.mode ⟨0,[],0⟩ = 0 := by cases s.mode <;> decide
    rw [hzero,hnone] at hsum
    omega
  have hgo : ¬ (s.mode = .off ∨ s.niSendFlag ||| s.niRecvFlag ||| s.uniSendFlag = 0) := by
    rintro (hoff | hzero)
    · exact hm hoff
    · exact hflag hzero
  exact ⟨_,by rw [constructSendLLFrame,if_neg hgo]; exact if_neg hword⟩

/-- Round trip of a frame: the packet a console builds from its active slots is taken apart by
the other side into the same sub-frames in the same order, the announced length is used up,
and nothing behind it is looked at. -/
theorem frame_round_trip (s : Station) (h : FitsFrame s) (hm : s.mode ≠ .off)
    (hflag : s.niSendFlag ||| s.niRecvFlag ||| s.uniSendFlag ≠ 0) (hne : subFrames s ≠ []) :
    ∃ p, (constructSendLLFrame s).2 = some p ∧
      ∀ buf : ℕ → Byte, CellMemory.read buf 0 (p.announced s.mode) =
          p.data.take (p.announced s.mode) →
        (s.mode = .parent → childReadPacket p.word buf =
          ⟨(subFrames s).map Prod.snd,p.announced s.mode,0⟩) ∧
        (s.mode = .child → parentReadPacket p.word buf =
          (⟨subFrames s,p.announced s.mode,0⟩,[0,0,0,0])) := by
  obtain ⟨size,hp⟩ := constructSendLLFrame_packet h hm hflag hne
  refine ⟨_,hp,fun buf hbuf => ?_⟩
  rw [length_frameBytes h hm (pad (frameBytes s)) size] at hbuf ⊢
  have hframe : CellMemory.read buf 0 (frameBytes s).length = frameBytes s := by
    rw [hbuf,pad,List.take_left]
  exact ⟨fun hparent => childReadPacket_frame h hparent hframe,
    fun hchild => parentReadPacket_frame h hchild hframe⟩

/-- A parent with children in slots 0 and 1 that sends five bytes to both in blocks of four. -/
def twoChildren : Station :=
  let s := readChild (readChild (initializeAPI 0x2000000 (BitVec.ofNat 8)) 0) 1
  (niSetSendData s 3 7 0x2001000 5).2

theorem frame_round_trip_twoChildren :
    ∃ p, (constructSendLLFrame twoChildren).2 = some p ∧
      ∀ buf : ℕ → Byte, CellMemory.read buf 0 (p.announced .parent) =
          p.data.take (p.announced .parent) →
        childReadPacket p.word buf = ⟨[⟨0,3,1,false,0,1,[0,4,0,5]⟩],p.announced .parent,0⟩ := by
  have hfits : FitsFrame twoChildren := by
    constructor <;> decide +kernel
  have hframes : (subFrames twoChildren).map Prod.snd = [⟨0,3,1,false,0,1,[0,4,0,5]⟩] := by
    decide +kernel
  obtain ⟨p,hp,h⟩ := frame_round_trip twoChildren hfits (by decide +kernel) (by decide +kernel)
    (by decide +kernel)
  have hmode : twoChildren.mode = .parent := by decide +kernel
  rw [hmode,hframes] at h
  exact ⟨p,hp,fun buf hbuf => (h buf hbuf).1 rfl⟩

end RoundTrip

end Rfu
end AgbTools
