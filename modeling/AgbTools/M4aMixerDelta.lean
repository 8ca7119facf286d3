import AgbTools.M4aMixerPitch

/-! The playback of compressed waves: the decoder with its one buffer, and the loops of
`sub_81DD264` next to those that mix a decoded wave. -/
namespace AgbTools
namespace M4a
namespace Mixer

open Runs RotatingWord LoopedTrack

section Code

def gDeltaEncodingTable : List ℤ := [0,1,4,9,16,25,36,49,-64,-49,-36,-25,-16,-9,-4,-1]

/-- The entry of a nibble. -/
def delta (n : Byte) : Byte := BitVec.ofInt 8 (gDeltaEncodingTable.getD n.toNat 0)

/-- The registers of the decoding loop; `r5` counts from the start of `gUnknown_030007B8`, which is
`decoded`. -/
structure Decoder where
  r1 : Byte
  r2 : Word
  r5 : ℕ
  lr : Word
  decoded : ℕ → Byte

/-- Adds the entry of a nibble and stores the sample. -/
def Decoder.put (n : Byte) (s : Decoder) : Decoder :=
  let lr := s.lr+(delta n).signExtend 32
  { s with lr := lr, r5 := s.r5+1, decoded := Function.update s.decoded s.r5 (lr.setWidth 8) }

def Decoder.l081DD57C (s : Decoder) : Decoder := s.put (s.r1 &&& 0xF)

def Decoder.l081DD568 (data : Word → Byte) (s : Decoder) : Decoder :=
  let s : Decoder := { s with r1 := data s.r2, r2 := s.r2+1 }
  (s.put (s.r1 >>> 4)).l081DD57C

/-- The rounds that `r7` leaves to the loop, with two samples each. -/
def decodeLoop (data : Word → Byte) : ℕ → Decoder → Decoder
  | 0, s => s
  | r7+1, s => decodeLoop data r7 (s.l081DD568 data)

/-- The block at `r2`. -/
def decodeBlock (data : Word → Byte) (r2 : Word) (decoded : ℕ → Byte) : ℕ → Byte :=
  let base := data r2
  let s : Decoder := ⟨data (r2+1),r2+2,1,base.setWidth 32,Function.update decoded 0 base⟩
  (decodeLoop data 31 s.l081DD57C).decoded

/-- Where `sub_81DD264` is. -/
inductive DeltaLabel
  | l081DD264 | l081DD2B4 | l081DD308 | l081DD310 | l081DD358 | l081DD364 | l081DD370 | l081DD398
  | l081DD3B0 | l081DD3C0 | l081DD480 | l081DD4F0 | l081DD4F4
deriving DecidableEq

/-- The state inside of `sub_81DD264`: `counter` is the count of samples at [sp], `xpi` the block that
the channel has decoded last. -/
structure Delta extends State where
  label : DeltaLabel
  counter : Word
  xpi : Word
  decoded : ℕ → Byte

/-- `ldrh` -/
def Frame.half (f : Frame) (a : Word) : BitVec 16 := f.data (a+1) ++ f.data a

/-- `ldr` -/
def Frame.word (f : Frame) (a : Word) : Word := f.half (a+2) ++ f.half a

/-- The sample with the number in `r3`, by way of the buffer. -/
def sub_81DD520 (f : Frame) (wav : Word) (s : Delta) : Delta :=
  let r0 : Word := s.r3 >>> 6
  let s : Delta := if r0 = s.xpi then s else
    { s with xpi := r0, decoded := decodeBlock f.data ((0x21 : Word)*r0+wav+0x10) s.decoded }
  { s with r1 := (s.decoded (s.r3 &&& 0x3F).toNat).signExtend 32 }

/-- `bl sub_81DD520` and `sub r1, r1, r0` for the sample after `r3`. -/
def nextSample (f : Frame) (wav : Word) (s : Delta) : Delta :=
  let s := sub_81DD520 f wav { s with r3 := s.r3+1 }
  { s with r1 := s.r1-s.r0 }

/-- The sample at `r3` in `r0`, and the one after it. -/
def bothSamples (f : Frame) (wav : Word) (s : Delta) : Delta :=
  let s := sub_81DD520 f wav s
  nextSample f wav { s with r0 := s.r1 }

/-- From one label of `sub_81DD264` to the next one; what plays a wave backwards is left out. -/
def inside (f : Frame) (wav : Word) (s : Delta) : Delta :=
  match s.label with
  | .l081DD264 =>
    if s.channel.status &&& 0x20 ≠ 0 then { s with label := .l081DD2B4 } else
      let s : Delta := { s with channel := { s.channel with status := s.channel.status ||| 0x20 } }
      let s : Delta := if s.channel.type &&& 0x10 = 0 then s else
        let r3 : Word := f.word (wav+0xC)+wav <<< 1+0x20-s.r3
        { s with r3 := r3, channel := { s.channel with cp := r3 } }
      let s : Delta := if f.half wav = 0 then s else
        let r3 : Word := s.r3-wav-0x10
        { s with r3 := r3, channel := { s.channel with cp := r3 } }
      { s with label := .l081DD2B4 }
  | .l081DD2B4 =>
    let r8 : Word := if s.channel.type &&& 0x8 = 0 then f.divFreq*s.channel.freq else 0x800000
    let s : Delta := { s with counter := s.r8, r10 := s.r10 <<< 16, r11 := s.r11 <<< 16, r8 := r8 }
    if f.half wav = 0 then
      if s.channel.type &&& 0x10 = 0 then { s with label := .l081DD4F0 }
      else { s with label := .l081DD480 }
    else
      let s : Delta := { s with xpi := 0xFF000000 }
      if s.channel.type &&& 0x10 ≠ 0 then { s with label := .l081DD3C0 } else
        { bothSamples f wav s with label := .l081DD308 }
  | .l081DD308 => { s with toState := loadWords s.toState, label := .l081DD310 }
  | .l081DD310 =>
    let lr : Word := s.r0+(s.r9*s.r1).sshiftRight 23
    let s : Delta := { s with toState := mixSample lr s.toState }
    let r9 : Word := s.r9+s.r8
    let lr : Word := r9 >>> 23
    if lr = 0 then { s with r9 := r9, lr := lr, label := .l081DD370 } else
      let r9 : Word := r9 &&& ~~~0x3F800000
      let r2 : Word := s.r2-lr
      if s.r2.sle lr then { s with r9 := r9, r2 := r2, lr := lr, label := .l081DD398 } else
        let lr : Word := lr-1
        if lr ≠ 0 then { s with r9 := r9, r2 := r2, lr := lr, label := .l081DD358 }
        else { s with r9 := r9, r2 := r2, lr := lr, r0 := s.r0+s.r1, label := .l081DD364 }
  | .l081DD358 => { bothSamples f wav { s with r3 := s.r3+s.lr } with label := .l081DD370 }
  | .l081DD364 => { nextSample f wav s with label := .l081DD370 }
  | .l081DD370 =>
    if ¬wordDone s.toState then { s with r5 := s.r5+0x40000000, label := .l081DD310 } else
      let s : Delta := { s with toState := storeWords { s.toState with r5 := s.r5+0x40000000 } }
      let r6 : Word := s.counter-4
      if (4 : Word).slt s.counter then { s with r6 := r6, counter := r6, label := .l081DD308 }
      else { s with r6 := r6, counter := r6, r3 := s.r3-1, label := .l081DD4F0 }
  | .l081DD398 =>
    if f.loopLength = 0 then { s with r0 := f.loopLength, label := .l081DD4F4 }
    else { s with r0 := f.loopLength, r3 := f.word (wav+8), lr := 0-s.r2, label := .l081DD3B0 }
  | .l081DD3B0 =>
    let r2 : Word := s.r2+s.r0
    if 0 < s.r2.toInt+s.r0.toInt then { s with r2 := r2, label := .l081DD358 }
    else { s with r2 := r2, lr := s.lr-s.r0 }
  | .l081DD3C0 => s
  | .l081DD480 => s
  | .l081DD4F0 => { s with r8 := s.counter, pc := .l081DD228 }
  | .l081DD4F4 =>
    let r0 : Word := ((3 : Word)-(s.r5 >>> 30)) <<< 3
    let s : Delta := { s with
      r2 := 0, channel := { s.channel with status := 0 }, r0 := r0, r5 := s.r5 &&& ~~~0xC0000000
      r6 := s.r6.rotateRight r0.toNat, r7 := s.r7.rotateRight r0.toNat }
    { s with toState := { storeWords s.toState with r8 := s.counter, pc := .l081DD228 } }

def deltaNext (f : Frame) (wav : Word) (s : Delta) : Delta :=
  if s.pc = .sub_81DD264 then inside f wav s else { s with toState := next f s.toState }

end Code

section Decoding

variable {data : Word → Byte} {block : ℕ → Byte} {a : Word} {s : Decoder} {n m : ℕ}

/-- The nibble that leads to a sample: the upper half of a byte comes before the lower one. -/
def nibble (block : ℕ → Byte) (k : ℕ) : Byte :=
  if k % 2 = 1 then block (k/2+1) &&& 0xF else block (k/2+1) >>> 4

/-- A sample of a block of 33 bytes, decoded from scratch. -/
def blockSample (block : ℕ → Byte) : ℕ → Byte
  | 0 => block 0
  | k+1 => blockSample block k+delta (nibble block (k+1))

/-- The bytes from `a` on. -/
def bytesAt (data : Word → Byte) (a : Word) (k : ℕ) : Byte := data (a+BitVec.ofNat 32 k)

/-- The first `n` samples are decoded. -/
structure DecodedTo (block : ℕ → Byte) (n : ℕ) (s : Decoder) : Prop where
  r5 : s.r5 = n
  lr : s.lr.setWidth 8 = blockSample block (n-1)
  decoded : ∀ i < n, s.decoded i = blockSample block i

theorem setWidth_add_signExtend (x : Word) (d : Byte) :
    (x+d.signExtend 32).setWidth 8 = x.setWidth 8+d := by
  apply BitVec.eq_of_toNat_eq
  have hd : d.toNat < 256 := d.isLt
  rw [BitVec.toNat_setWidth,BitVec.toNat_add,BitVec.toNat_add,BitVec.toNat_setWidth,
    BitVec.toNat_signExtend,BitVec.toNat_setWidth]
  split_ifs <;> omega

theorem DecodedTo.put (h : DecodedTo block (n+1) s) {d : Byte} (hd : d = nibble block (n+1)) :
    DecodedTo block (n+2) (s.put d) := by
  have hlr : (s.lr+(delta d).signExtend 32).setWidth 8 = blockSample block (n+1) := by
    rw [setWidth_add_signExtend,h.lr,hd]
    rfl
  refine ⟨congrArg (·+1) h.r5,hlr,fun i hi => ?_⟩
  show Function.update s.decoded s.r5 _ i = _
  by_cases hlast : i = n+1
  · rw [hlast,h.r5,Function.update_self,hlr]
  · rw [Function.update_of_ne (by rw [h.r5]; exact hlast)]
    exact h.decoded i (by omega)

/-- A round of the loop: the upper and the lower half of the next byte. -/
theorem DecodedTo.round (h : DecodedTo (bytesAt data a) (2*m+2) s)
    (hr2 : s.r2 = a+BitVec.ofNat 32 (m+2)) :
    DecodedTo (bytesAt data a) (2*m+4) (s.l081DD568 data) ∧
      (s.l081DD568 data).r2 = a+BitVec.ofNat 32 (m+3) := by
  have hbyte : data s.r2 = bytesAt data a (m+2) := by rw [hr2,bytesAt]
  have hstart : DecodedTo (bytesAt data a) (2*m+2) { s with r1 := data s.r2, r2 := s.r2+1 } :=
    ⟨h.r5,h.lr,h.decoded⟩
  have hhigh : data s.r2 >>> 4 = nibble (bytesAt data a) (2*m+1+1) := by
    rw [nibble,if_neg (by omega),hbyte,show (2*m+1+1)/2+1 = m+2 by omega]
  have hlow : data s.r2 &&& 0xF = nibble (bytesAt data a) (2*m+2+1) := by
    rw [nibble,if_pos (by omega),hbyte,show (2*m+2+1)/2+1 = m+2 by omega]
  refine ⟨(hstart.put hhigh).put hlow,?_⟩
  show s.r2+1 = _
  rw [hr2,BitVec.add_assoc,BitVec.ofNat_add (m+2) 1]
  rfl

theorem DecodedTo.rounds (k : ℕ) {m : ℕ} {s : Decoder} (h : DecodedTo (bytesAt data a) (2*m+2) s)
    (hr2 : s.r2 = a+BitVec.ofNat 32 (m+2)) :
    DecodedTo (bytesAt data a) (2*(m+k)+2) (decodeLoop data k s) := by
  induction k generalizing m s with
  | zero => exact h
  | succ k ih =>
    obtain ⟨hnext,hr2'⟩ := h.round hr2
    have hloop := ih (m := m+1) hnext hr2'
    rwa [show m+1+k = m+(k+1) by omega] at hloop

/-- The loop decodes the whole block. -/
theorem decodeBlock_eq (data : Word → Byte) (a : Word) (decoded : ℕ → Byte) {i : ℕ} (hi : i < 64) :
    decodeBlock data a decoded i = blockSample (bytesAt data a) i := by
  have hbase : bytesAt data a 0 = data a := congrArg data (BitVec.add_zero a)
  have hstart : DecodedTo (bytesAt data a) 1 ⟨data (a+1),a+2,1,(data a).setWidth 32,
      Function.update decoded 0 (data a)⟩ := by
    refine ⟨rfl,?_,fun i hi => ?_⟩
    · rw [BitVec.setWidth_setWidth_of_le _ (by decide),BitVec.setWidth_eq]
      exact hbase.symm
    · obtain rfl : i = 0 := by omega
      show Function.update decoded 0 (data a) 0 = _
      rw [Function.update_self]
      exact hbase.symm
  have hfirst : data (a+1) &&& 0xF = nibble (bytesAt data a) (0+1) := rfl
  have hloop := DecodedTo.rounds 31 (m := 0) (hstart.put hfirst) rfl
  exact hloop.decoded i hi

end Decoding

section Cache

variable {f : Frame} {wav : Word} {s : Delta}

/-- The samples of a wave, every block decoded from scratch. -/
def waveSample (f : Frame) (wav i : Word) : Byte :=
  blockSample (bytesAt f.data ((0x21 : Word)*(i >>> 6)+wav+0x10)) (i &&& 0x3F).toNat

/-- The buffer holds the block that the channel names. -/
def Cached (f : Frame) (wav : Word) (s : Delta) : Prop :=
  ∀ i : Word, i >>> 6 = s.xpi → s.decoded (i &&& 0x3F).toNat = waveSample f wav i

theorem offset_lt (i : Word) : (i &&& 0x3F).toNat < 64 := by
  rw [BitVec.toNat_and]
  exact Nat.and_lt_two_pow _ (show (0x3F : Word).toNat < 2^6 by decide)

/-- No block has the number that a channel starts with. -/
theorem cached_start (h : s.xpi = 0xFF000000) : Cached f wav s := by
  intro i hi
  have hblock : (i >>> 6).toNat = 0xFF000000 := by rw [hi,h]; rfl
  have hlt := i.isLt
  rw [BitVec.toNat_ushiftRight,Nat.shiftRight_eq_div_pow] at hblock
  omega

/-- By way of the buffer every sample is the one of the wave. -/
theorem Cached.fetch (h : Cached f wav s) : ∃ xpi decoded,
    sub_81DD520 f wav s = { s with
      r1 := (waveSample f wav s.r3).signExtend 32, xpi := xpi, decoded := decoded } ∧
    Cached f wav (sub_81DD520 f wav s) := by
  unfold sub_81DD520
  dsimp only
  by_cases hhit : s.r3 >>> 6 = s.xpi
  · rw [if_pos hhit,h s.r3 hhit]
    exact ⟨_,_,rfl,h⟩
  · rw [if_neg hhit]
    have hfill (i : Word) (hi : i >>> 6 = s.r3 >>> 6) :
        decodeBlock f.data ((0x21 : Word)*(s.r3 >>> 6)+wav+0x10) s.decoded (i &&& 0x3F).toNat =
          waveSample f wav i := by
      rw [decodeBlock_eq _ _ _ (offset_lt i),waveSample,hi]
    dsimp only
    rw [hfill s.r3 rfl]
    exact ⟨_,_,rfl,hfill⟩

theorem Cached.nextSample (h : Cached f wav s) : ∃ xpi decoded,
    nextSample f wav s = { s with
      r3 := s.r3+1, r1 := (waveSample f wav (s.r3+1)).signExtend 32-s.r0
      xpi := xpi, decoded := decoded } ∧
    Cached f wav (nextSample f wav s) := by
  obtain ⟨xpi,decoded,hfetch,hcached⟩ := Cached.fetch (f := f) (s := { s with r3 := s.r3+1 }) h
  unfold Mixer.nextSample
  rw [hfetch] at hcached ⊢
  exact ⟨xpi,decoded,rfl,hcached⟩

theorem Cached.bothSamples (h : Cached f wav s) : ∃ xpi decoded,
    bothSamples f wav s = { s with
      r0 := (waveSample f wav s.r3).signExtend 32, r3 := s.r3+1
      r1 := (waveSample f wav (s.r3+1)).signExtend 32-(waveSample f wav s.r3).signExtend 32
      xpi := xpi, decoded := decoded } ∧
    Cached f wav (bothSamples f wav s) := by
  obtain ⟨xpi,decoded,hfetch,hcached⟩ := h.fetch
  unfold Mixer.bothSamples
  rw [hfetch] at hcached ⊢
  obtain ⟨xpi,decoded,hnext,hcached⟩ := Cached.nextSample (f := f) (s := { s with
    r0 := (waveSample f wav s.r3).signExtend 32, r1 := (waveSample f wav s.r3).signExtend 32
    xpi := xpi, decoded := decoded }) hcached
  exact ⟨xpi,decoded,hnext,hcached⟩

theorem Cached.inside_jump (h : Cached f wav s) (hlabel : s.label = .l081DD358) : ∃ xpi decoded,
    inside f wav s = { s with
      r0 := (waveSample f wav (s.r3+s.lr)).signExtend 32, r3 := s.r3+s.lr+1
      r1 := (waveSample f wav (s.r3+s.lr+1)).signExtend 32-
        (waveSample f wav (s.r3+s.lr)).signExtend 32
      label := .l081DD370, xpi := xpi, decoded := decoded } ∧
    Cached f wav (inside f wav s) := by
  obtain ⟨s,label,counter,xpi,decoded⟩ := s
  obtain rfl : label = .l081DD358 := hlabel
  obtain ⟨xpi,decoded,hboth,hcached⟩ := Cached.bothSamples (f := f)
    (s := ⟨{ s with r3 := s.r3+s.lr },.l081DD358,counter,xpi,decoded⟩) h
  dsimp only [inside]
  rw [hboth] at hcached ⊢
  exact ⟨xpi,decoded,rfl,hcached⟩

theorem Cached.inside_next (h : Cached f wav s) (hlabel : s.label = .l081DD364) : ∃ xpi decoded,
    inside f wav s = { s with
      r3 := s.r3+1, r1 := (waveSample f wav (s.r3+1)).signExtend 32-s.r0
      label := .l081DD370, xpi := xpi, decoded := decoded } ∧
    Cached f wav (inside f wav s) := by
  obtain ⟨s,label,counter,xpi,decoded⟩ := s
  obtain rfl : label = .l081DD364 := hlabel
  obtain ⟨xpi,decoded,hnext,hcached⟩ := h.nextSample
  dsimp only [inside]
  rw [hnext] at hcached ⊢
  exact ⟨xpi,decoded,rfl,hcached⟩

/-- The samples that a channel fetches one after another. -/
def fetchAll (f : Frame) (wav : Word) (s : Delta) : List Word → List Word
  | [] => []
  | i::is =>
    let s := sub_81DD520 f wav { s with r3 := i }
    s.r1::fetchAll f wav s is

theorem Cached.fetchAll (h : Cached f wav s) (is : List Word) :
    Mixer.fetchAll f wav s is = is.map fun i => (waveSample f wav i).signExtend 32 := by
  induction is generalizing s with
  | nil => rfl
  | cons i is ih =>
    obtain ⟨xpi,decoded,hfetch,hnext⟩ := Cached.fetch (f := f) (s := { s with r3 := i }) h
    rw [Mixer.fetchAll,ih hnext,hfetch]
    rfl

end Cache

section Lockstep

variable {f g : Frame} {wav base : Word} {s : Delta} {p : State} {c d : Channel}

/-- The decoded wave at `base`, in the loops that mix a wave as it is. -/
structure Decoded (f : Frame) (wav base : Word) (g : Frame) : Prop where
  compressed : f.half wav ≠ 0
  data : ∀ i, g.data (base+i) = waveSample f wav i
  buffer : g.buffer = f.buffer
  samples : g.samples = f.samples
  loopStart : g.loopStart = base+f.word (wav+8)
  loopLength : g.loopLength = f.loopLength

/-- The label that does the same. -/
def plainLabel : DeltaLabel → Label
  | .l081DD308 => .l081DD1B4
  | .l081DD310 => .l081DD1BC
  | .l081DD358 | .l081DD364 => .l081DD1FC
  | .l081DD370 => .l081DD208
  | .l081DD398 => .l081DD134
  | .l081DD3B0 => .l081DD148
  | .l081DD4F4 => .l081DD158
  | _ => .l081DD228

def DeltaLabel.InLoop : DeltaLabel → Prop
  | .l081DD308 | .l081DD310 | .l081DD358 | .l081DD364 | .l081DD370 | .l081DD398 | .l081DD3B0
  | .l081DD4F4 | .l081DD4F0 => True
  | _ => False

/-- Both loops are at the same place. -/
structure Mirrors (f : Frame) (wav base : Word) (c d : Channel) (s : Delta) (p : State) : Prop where
  entered : s.pc = .sub_81DD264
  loop : s.label.InLoop
  cached : Cached f wav s
  pc : p.pc = plainLabel s.label
  z : s.label = .l081DD358 → p.z = false
  z' : s.label = .l081DD364 → p.z = true
  r0 : p.r0 = s.r0
  r1 : p.r1 = s.r1
  r2 : p.r2 = s.r2
  r3 : p.r3 = base+s.r3
  r4 : p.r4 = s.r8
  r5 : p.r5 = s.r5
  words : s.label ≠ .l081DD308 → s.label ≠ .l081DD4F0 → p.r6 = s.r6 ∧ p.r7 = s.r7
  r8 : p.r8 = s.counter
  r9 : p.r9 = s.r9
  r10 : p.r10 = s.r10
  r11 : p.r11 = s.r11
  lr : s.label = .l081DD358 → p.lr = s.lr
  lr' : s.label = .l081DD3B0 → p.lr = s.lr
  channel : s.channel = c
  plain : p.channel = d
  right : p.right = s.right
  left : p.left = s.left

/-- The sum of two words that is positive as a signed number does not wrap to 0. -/
theorem add_ne_zero {a b : Word} (h : 0 < a.toInt+b.toInt) : a+b ≠ 0 := by
  intro hzero
  have ha := a.toInt_lt
  have hb := b.toInt_lt
  have hsum : (a+b).toInt = 0 := by rw [hzero]; rfl
  rw [BitVec.toInt_add,Int.bmod_def] at hsum
  split_ifs at hsum <;> omega

/-- A clause about another label says nothing. -/
theorem elsewhere {l l' : DeltaLabel} {q : Prop} (h : decide (l = l') = false) : l = l' → q :=
  fun heq => absurd heq (of_decide_eq_false h)

/-- The labels where the flag and the link register do not matter. -/
def DeltaLabel.Bare : DeltaLabel → Prop
  | .l081DD358 | .l081DD364 | .l081DD3B0 => False
  | l => l.InLoop

/-- The state of the plain loop at such a label. -/
theorem mirrors_bare {r6 r7 lr : Word} {z : Bool} (hpc : s.pc = .sub_81DD264) (hbare : s.label.Bare)
    (hcached : Cached f wav s) (hchannel : s.channel = c)
    (hwords : s.label ≠ .l081DD308 → s.label ≠ .l081DD4F0 → r6 = s.r6 ∧ r7 = s.r7) :
    Mirrors f wav base c d s
      { pc := plainLabel s.label, r0 := s.r0, r1 := s.r1, r2 := s.r2, r3 := base+s.r3, r4 := s.r8,
        r5 := s.r5, r6 := r6, r7 := r7, r8 := s.counter, r9 := s.r9, r10 := s.r10, r11 := s.r11,
        lr := lr, z := z, channel := d, right := s.right, left := s.left } where
  entered := hpc
  loop := by
    cases hlabel : s.label <;> rw [hlabel] at hbare <;> trivial
  cached := hcached
  pc := rfl
  z := fun hlabel => absurd hbare (by rw [hlabel]; exact id)
  z' := fun hlabel => absurd hbare (by rw [hlabel]; exact id)
  r0 := rfl
  r1 := rfl
  r2 := rfl
  r3 := rfl
  r4 := rfl
  r5 := rfl
  words := hwords
  r8 := rfl
  r9 := rfl
  r10 := rfl
  r11 := rfl
  lr := fun hlabel => absurd hbare (by rw [hlabel]; exact id)
  lr' := fun hlabel => absurd hbare (by rw [hlabel]; exact id)
  channel := hchannel
  plain := rfl
  right := rfl
  left := rfl

theorem Mirrors.branch {s' : Delta} {p' : State} {a b : Prop} {da : Decidable a} {db : Decidable b}
    (hab : a ↔ b) (hyes : a → Mirrors f wav base c d s p) (hno : ¬a → Mirrors f wav base c d s' p') :
    Mirrors f wav base c d (@ite _ a da s s') (@ite _ b db p p') := by
  by_cases ha : a
  · rw [if_pos ha,if_pos (hab.mp ha)]
    exact hyes ha
  · rw [if_neg ha,if_neg (mt hab.mpr ha)]
    exact hno ha

theorem Mirrors.branch_left {s' : Delta} {a : Prop} {da : Decidable a}
    (hyes : a → Mirrors f wav base c d s p) (hno : ¬a → Mirrors f wav base c d s' p) :
    Mirrors f wav base c d (@ite _ a da s s') p := by
  by_cases ha : a
  · rw [if_pos ha]
    exact hyes ha
  · rw [if_neg ha]
    exact hno ha

theorem Mirrors.step (h : Mirrors f wav base c d s p) (hg : Decoded f wav base g)
    (hend : s.label ≠ .l081DD4F4 ∧ s.label ≠ .l081DD4F0) :
    Mirrors f wav base c d (deltaNext f wav s) (next g p) := by
  rw [show deltaNext f wav s = inside f wav s from if_pos h.entered]
  obtain ⟨hinside,hloop,hcached,hpc,hz,hz',h0,h1,h2,h3,h4,h5,hwords,h8,h9,h10,h11,hlr,hlr',hc,hd,hr,
    hl⟩ := h
  obtain ⟨⟨pc,r0,r1,r2,r3,r4,r5,r6,r7,r8,r9,r10,r11,lr,z,channel,right,left⟩,label,counter,xpi,decoded⟩ := s
  obtain ⟨ppc,p0,p1,p2,p3,p4,p5,p6,p7,p8,p9,p10,p11,plr,pz,pchannel,pright,pleft⟩ := p
  dsimp only at hinside hloop hpc hz hz' h0 h1 h2 h3 h4 h5 hwords h8 h9 h10 h11 hlr hlr' hc hd hr hl
  subst hinside hpc h0 h1 h2 h3 h4 h5 h8 h9 h10 h11 hc hd hr hl
  cases label with
  | l081DD308 =>
    exact mirrors_bare rfl trivial hcached rfl fun _ _ => ⟨rfl,rfl⟩
  | l081DD310 =>
    obtain ⟨rfl,rfl⟩ := hwords (by decide) (by decide)
    dsimp only [inside,next,plainLabel,mixSample]
    refine Mirrors.branch Iff.rfl (fun hsame => ?_) fun hsame => ?_
    · exact mirrors_bare rfl trivial hcached rfl fun _ _ => ⟨rfl,rfl⟩
    refine Mirrors.branch Iff.rfl (fun hover => ?_) fun hover => ?_
    · exact mirrors_bare rfl trivial hcached rfl fun _ _ => ⟨rfl,rfl⟩
    refine Mirrors.branch_left (fun hone => ?_) fun hone => ?_
    · exact ⟨rfl,trivial,hcached,rfl,fun _ => decide_eq_false hone,elsewhere rfl,if_neg hone,rfl,rfl,rfl,
        rfl,rfl,fun _ _ => ⟨rfl,rfl⟩,rfl,rfl,rfl,rfl,fun _ => rfl,elsewhere rfl,rfl,rfl,rfl,rfl⟩
    · have hone := not_not.mp hone
      exact ⟨rfl,trivial,hcached,rfl,elsewhere rfl,fun _ => decide_eq_true hone,if_pos hone,rfl,rfl,rfl,
        rfl,rfl,fun _ _ => ⟨rfl,rfl⟩,rfl,rfl,rfl,rfl,elsewhere rfl,elsewhere rfl,rfl,rfl,rfl,rfl⟩
  | l081DD358 =>
    obtain ⟨rfl,rfl⟩ := hwords (by decide) (by decide)
    obtain rfl := hz rfl
    obtain rfl := hlr rfl
    have hjump : base+r3+plr = base+(r3+plr) := add_assoc ..
    have hsecond : base+r3+plr+1 = base+(r3+plr+1) := by rw [hjump,add_assoc]
    obtain ⟨xpi',decoded',hinside,hcached⟩ := hcached.inside_jump rfl
    rw [hinside] at hcached ⊢
    rw [fetch_jump rfl rfl]
    dsimp only
    rw [Frame.ldrsb,Frame.ldrsb,hsecond,hjump,hg.data,hg.data]
    exact mirrors_bare rfl trivial hcached rfl fun _ _ => ⟨rfl,rfl⟩
  | l081DD364 =>
    obtain ⟨rfl,rfl⟩ := hwords (by decide) (by decide)
    obtain rfl := hz' rfl
    have hsecond : base+r3+1 = base+(r3+1) := add_assoc ..
    obtain ⟨xpi',decoded',hinside,hcached⟩ := hcached.inside_next rfl
    rw [hinside] at hcached ⊢
    rw [fetch_next rfl rfl]
    dsimp only
    rw [Frame.ldrsb,hsecond,hg.data]
    exact mirrors_bare rfl trivial hcached rfl fun _ _ => ⟨rfl,rfl⟩
  | l081DD370 =>
    obtain ⟨rfl,rfl⟩ := hwords (by decide) (by decide)
    dsimp only [inside,next,plainLabel]
    refine Mirrors.branch Iff.rfl (fun hopen => ?_) fun hdone => ?_
    · exact mirrors_bare rfl trivial (fun i => hcached i) rfl fun _ _ => ⟨rfl,rfl⟩
    refine Mirrors.branch Iff.rfl (fun hmore => ?_) fun hover => ?_
    · exact ⟨rfl,trivial,fun i => hcached i,rfl,elsewhere rfl,elsewhere rfl,rfl,rfl,rfl,rfl,rfl,rfl,
        fun hnot => absurd rfl hnot,rfl,rfl,rfl,rfl,elsewhere rfl,elsewhere rfl,rfl,rfl,rfl,rfl⟩
    · exact ⟨rfl,trivial,fun i => hcached i,rfl,elsewhere rfl,elsewhere rfl,rfl,rfl,rfl,
        add_sub_assoc ..,rfl,rfl,fun _ hnot => absurd rfl hnot,rfl,rfl,rfl,rfl,elsewhere rfl,
        elsewhere rfl,rfl,rfl,rfl,rfl⟩
  | l081DD398 =>
    obtain ⟨rfl,rfl⟩ := hwords (by decide) (by decide)
    dsimp only [inside,next,plainLabel]
    by_cases hnone : f.loopLength = 0
    · rw [if_pos hnone,if_pos (hg.loopLength.trans hnone)]
      rw [hg.loopLength]
      exact mirrors_bare rfl trivial hcached rfl fun _ _ => ⟨rfl,rfl⟩
    · rw [if_neg hnone,if_neg (hg.loopLength ▸ hnone)]
      exact ⟨rfl,trivial,hcached,rfl,elsewhere rfl,elsewhere rfl,hg.loopLength,rfl,rfl,hg.loopStart,rfl,rfl,
        fun _ _ => ⟨rfl,rfl⟩,rfl,rfl,rfl,rfl,elsewhere rfl,fun _ => rfl,rfl,rfl,rfl,rfl⟩
  | l081DD3B0 =>
    obtain ⟨rfl,rfl⟩ := hwords (by decide) (by decide)
    obtain rfl := hlr' rfl
    dsimp only [inside,next,plainLabel]
    by_cases hmore : 0 < p0.toInt+p2.toInt
    · rw [if_pos hmore,if_pos (by rwa [Int.add_comm])]
      exact ⟨rfl,trivial,hcached,rfl,fun _ => decide_eq_false (add_ne_zero hmore),elsewhere rfl,rfl,rfl,
        BitVec.add_comm _ _,rfl,rfl,rfl,fun _ _ => ⟨rfl,rfl⟩,rfl,rfl,rfl,rfl,fun _ => rfl,elsewhere rfl,
        rfl,rfl,rfl,rfl⟩
    · rw [if_neg hmore,if_neg (by rwa [Int.add_comm])]
      exact ⟨rfl,trivial,hcached,rfl,elsewhere rfl,elsewhere rfl,rfl,rfl,BitVec.add_comm _ _,rfl,rfl,rfl,
        fun _ _ => ⟨rfl,rfl⟩,rfl,rfl,rfl,rfl,elsewhere rfl,fun _ => rfl,rfl,rfl,rfl,rfl⟩
  | l081DD4F4 => exact absurd rfl hend.1
  | l081DD4F0 => exact absurd rfl hend.2
  | l081DD264 | l081DD2B4 | l081DD3C0 | l081DD480 => exact absurd hloop id

/-- What `r8` holds in the loop. -/
def Frame.deltaStep (f : Frame) (c : Channel) : Word :=
  if c.type &&& 0x8 = 0 then f.divFreq*c.freq else 0x800000

/-- The number of the sample that the channel is at: a channel that has just been started has a
pointer into the wave. -/
def Channel.index (wav : Word) (c : Channel) : Word :=
  if c.status &&& 0x20 = 0 then c.cp-wav-0x10 else c.cp

/-- The channel `c` plays the compressed wave forwards as `d` plays the decoded one. Only the flag in
the status that tells an index from a pointer may differ. -/
structure Alike (f : Frame) (wav base : Word) (g : Frame) (c d : Channel) : Prop where
  compressed : c.type &&& 0x30 ≠ 0
  forward : c.type &&& 0x10 = 0
  plain : d.type &&& 0x30 = 0
  pitched : d.type &&& 0x8 = 0
  step : g.step d = f.deltaStep c
  er : d.er = c.er
  el : d.el = c.el
  status : d.status &&& ~~~0x20 = c.status &&& ~~~0x20
  fw : c.status &&& 0xC7 ≠ 0 → d.fw = c.fw
  ct : c.status &&& 0xC7 ≠ 0 → d.ct = c.ct
  cp : c.status &&& 0xC7 ≠ 0 → d.cp = base+c.index wav

/-- The channel from its first turn on. -/
def Channel.entered (wav : Word) (c : Channel) : Channel :=
  { c with status := c.status ||| 0x20, cp := c.index wav }

theorem entered_flag (b : Byte) : (b ||| 0x20) &&& 0x20 ≠ 0 := by
  revert b
  decide

theorem entered_status (b : Byte) : (b ||| 0x20) &&& ~~~0x20 = b &&& ~~~0x20 := by
  revert b
  decide

theorem status_on (b : Byte) : b &&& 0xC7 = (b &&& ~~~0x20) &&& 0xC7 := by
  revert b
  decide

theorem or_flag (b : Byte) (h : b &&& 0x20 ≠ 0) : b ||| 0x20 = b := by
  revert b
  decide

theorem Alike.on (h : Alike f wav base g c d) : d.status &&& 0xC7 = c.status &&& 0xC7 := by
  rw [status_on,h.status,← status_on]

theorem Channel.index_entered (wav : Word) (c : Channel) : (c.entered wav).index wav = c.index wav :=
  if_neg (entered_flag c.status)

theorem Alike.entered (h : Alike f wav base g c d) : Alike f wav base g (c.entered wav) d := by
  have hon : (c.entered wav).status &&& 0xC7 = c.status &&& 0xC7 := by
    rw [status_on,Channel.entered,entered_status,← status_on]
  obtain ⟨hcompressed,hforward,hplain,hpitched,hstep,her,hel,hstatus,hfw,hct,hcp⟩ := h
  refine ⟨hcompressed,hforward,hplain,hpitched,hstep,her,hel,?_,?_,?_,?_⟩
  · rw [hstatus]
    exact (entered_status c.status).symm
  · rw [hon]
    exact hfw
  · rw [hon]
    exact hct
  · rw [hon,Channel.index_entered]
    exact hcp

theorem deltaNext_outside {t : State} (h : s.pc ≠ .sub_81DD264) (hnext : next f s.toState = t) :
    deltaNext f wav s = { s with toState := t } :=
  (if_neg h).trans (congrArg (fun t => { s with toState := t }) hnext)

theorem deltaNext_inside (h : s.pc = .sub_81DD264) : deltaNext f wav s = inside f wav s := if_pos h

theorem Alike.load (h : Alike f wav base g s.channel d) (hon : s.channel.status &&& 0xC7 ≠ 0)
    (hpc : s.pc = .l081DCF60) : deltaNext f wav (deltaNext f wav s) = { s with
      r5 := f.buffer, r2 := s.channel.ct, r3 := s.channel.cp, r8 := f.samples, r9 := s.channel.fw
      r10 := s.channel.er.setWidth 32, r11 := s.channel.el.setWidth 32, pc := .sub_81DD264 } := by
  have hone : next f s.toState = { s.toState with pc := .l081DD03A } := by
    unfold next
    rw [hpc]
    exact if_neg hon
  have houtside : s.pc ≠ .sub_81DD264 := by
    rw [hpc]
    nofun
  rw [deltaNext_outside houtside hone]
  exact deltaNext_outside nofun (if_neg h.compressed)

/-- From the first turn on the channel has an index. -/
theorem Alike.inside_first (h : Alike f wav base g s.channel d) (hg : Decoded f wav base g)
    (hlabel : s.label = .l081DD264) (hr3 : s.r3 = s.channel.cp) : inside f wav s = { s with
      r3 := s.channel.index wav, channel := s.channel.entered wav, label := .l081DD2B4 } := by
  obtain ⟨⟨pc,r0,r1,r2,r3,r4,r5,r6,r7,r8,r9,r10,r11,lr,z,⟨status,type,er,el,fw,freq,ct,cp⟩,right,left⟩,
    label,counter,xpi,decoded⟩ := s
  obtain rfl : label = .l081DD264 := hlabel
  obtain rfl : r3 = cp := hr3
  have hforward : type &&& 0x10 = 0 := h.forward
  dsimp only [inside,Channel.index,Channel.entered]
  by_cases hflag : status &&& 0x20 = 0
  · rw [if_neg (not_not.mpr hflag),if_pos hforward,if_neg hg.compressed,if_pos hflag]
  · rw [if_pos hflag,if_neg hflag,or_flag status hflag]

/-- The buffer is not trusted: the channel starts without a block. -/
theorem Alike.inside_second (h : Alike f wav base g s.channel d) (hg : Decoded f wav base g)
    (hlabel : s.label = .l081DD2B4) : ∃ xpi decoded, inside f wav s = { s with
      counter := s.r8, r10 := s.r10 <<< 16, r11 := s.r11 <<< 16, r8 := f.deltaStep s.channel
      r0 := (waveSample f wav s.r3).signExtend 32, r3 := s.r3+1
      r1 := (waveSample f wav (s.r3+1)).signExtend 32-(waveSample f wav s.r3).signExtend 32
      xpi := xpi, decoded := decoded, label := .l081DD308 } ∧ Cached f wav (inside f wav s) := by
  obtain ⟨s,label,counter,xpi,decoded⟩ := s
  obtain rfl : label = .l081DD2B4 := hlabel
  have hforward : s.channel.type &&& 0x10 = 0 := h.forward
  obtain ⟨xpi',decoded',hboth,hcached⟩ := Cached.bothSamples (f := f)
    (s := ⟨{ s with r10 := s.r10 <<< 16, r11 := s.r11 <<< 16, r8 := f.deltaStep s.channel },
      .l081DD2B4,s.r8,0xFF000000,decoded⟩) (cached_start rfl)
  have hone : inside f wav ⟨s,.l081DD2B4,counter,xpi,decoded⟩ = _ :=
    (if_neg hg.compressed).trans (if_neg (not_not.mpr hforward))
  rw [hone]
  rw [Frame.deltaStep] at hboth hcached
  dsimp only
  rw [hboth] at hcached ⊢
  exact ⟨xpi',decoded',rfl,hcached⟩

theorem delta_enter (h : Alike f wav base g s.channel d) (hg : Decoded f wav base g)
    (hon : s.channel.status &&& 0xC7 ≠ 0) (hpc : s.pc = .l081DCF60) (hlabel : s.label = .l081DD264) :
    Reaches (deltaNext f wav) s fun a => Cached f wav a ∧ ∃ xpi decoded, a = { s with
      pc := .sub_81DD264, label := .l081DD308, channel := s.channel.entered wav
      r5 := f.buffer, r2 := s.channel.ct, r3 := s.channel.index wav+1, counter := f.samples
      r8 := f.deltaStep s.channel, r9 := s.channel.fw
      r10 := s.channel.er.setWidth 32 <<< 16, r11 := s.channel.el.setWidth 32 <<< 16
      r0 := (waveSample f wav (s.channel.index wav)).signExtend 32
      r1 := (waveSample f wav (s.channel.index wav+1)).signExtend 32-
        (waveSample f wav (s.channel.index wav)).signExtend 32
      xpi := xpi, decoded := decoded } := by
  refine Reaches.step (Reaches.step ?_)
  rw [h.load hon hpc]
  refine Reaches.step ?_
  rw [deltaNext_inside rfl,Alike.inside_first (s := { s with
    pc := .sub_81DD264, r5 := f.buffer, r2 := s.channel.ct, r3 := s.channel.cp, r8 := f.samples
    r9 := s.channel.fw, r10 := s.channel.er.setWidth 32, r11 := s.channel.el.setWidth 32 })
    h hg hlabel rfl]
  refine Reaches.step (Reaches.done ?_)
  rw [deltaNext_inside rfl]
  obtain ⟨xpi,decoded,hsecond,hcached⟩ := Alike.inside_second (s := { s with
    pc := .sub_81DD264, label := .l081DD2B4, channel := s.channel.entered wav
    r5 := f.buffer, r2 := s.channel.ct, r3 := s.channel.index wav, r8 := f.samples
    r9 := s.channel.fw, r10 := s.channel.er.setWidth 32, r11 := s.channel.el.setWidth 32 })
    h.entered hg rfl
  exact ⟨hcached,xpi,decoded,hsecond⟩

/-- The samples of a channel that is on are fetched on both sides. -/
theorem Alike.mirrors_start (h : Alike f wav base g s.channel p.channel) (hg : Decoded f wav base g)
    (hon : s.channel.status &&& 0xC7 ≠ 0) (hs : s.pc = .l081DCF60) (hlabel : s.label = .l081DD264)
    (hp : p.pc = .l081DCF60) (hright : p.right = s.right) (hleft : p.left = s.left) :
    ∃ a b, Reaches (deltaNext f wav) s (· = a) ∧ Reaches (next g) p (· = b) ∧
      Mirrors f wav base (s.channel.entered wav) p.channel a b := by
  obtain ⟨n,hcached,xpi,decoded,ha⟩ := delta_enter h hg hon hs hlabel
  obtain ⟨m,⟨⟨hchannel,hr10,hr11⟩,hr5,hright',hleft'⟩,hr2,hr3,hr8,hr9,hpc⟩ :=
    Mixer.enter (f := g) hp (by rwa [h.on]) h.plain fun _ => none
  rw [if_pos h.pitched] at hpc
  refine ⟨_,_,⟨n,rfl⟩,⟨m+1,(Function.iterate_succ_apply' _ _ _).trans (fetch_first hpc)⟩,?_⟩
  rw [ha] at hcached ⊢
  generalize (next g)^[m] p = t at *
  have hfirst : t.r3 = base+s.channel.index wav := hr3.trans (h.cp hon)
  have hsecond : t.r3+1 = base+(s.channel.index wav+1) := by rw [hfirst,add_assoc]
  refine ⟨rfl,trivial,hcached,rfl,nofun,nofun,?_,?_,hr2.trans (h.ct hon),hsecond,?_,?_,
    fun hnot => absurd rfl hnot,hr8.trans hg.samples,hr9.trans (h.fw hon),?_,?_,nofun,nofun,rfl,
    hchannel,?_,?_⟩
  · show g.ldrsb t.r3 = _
    rw [Frame.ldrsb,hfirst,hg.data]
  · show g.ldrsb (t.r3+1)-g.ldrsb t.r3 = _
    rw [Frame.ldrsb,Frame.ldrsb,hsecond,hfirst,hg.data,hg.data]
  · show g.divFreq*t.channel.freq = _
    rw [hchannel]
    exact h.step
  · rw [Nat.mul_zero,Nat.add_zero] at hr5
    exact (BitVec.eq_of_toNat_eq hr5).trans hg.buffer
  · show t.r10 = _
    rw [hr10,← h.er]
  · show t.r11 = _
    rw [hr11,← h.el]
  · show t.right = _
    rw [hright',← hright]
    exact mixed_zero ..
  · show t.left = _
    rw [hleft',← hleft]
    exact mixed_zero ..

/-- The buffers are the same, and the channels are alike. -/
structure Same (f : Frame) (wav base : Word) (g : Frame) (s : Delta) (p : State) : Prop where
  right : p.right = s.right
  left : p.left = s.left
  channel : Alike f wav base g s.channel p.channel

theorem write_back (hpc : p.pc = .l081DD228) : next g (next g p) = { p with
    pc := .l081DD240, channel := { p.channel with fw := p.r9, ct := p.r2, cp := p.r3 } } := by
  have hone : next g p = { p with pc := .l081DD22C, channel := { p.channel with fw := p.r9 } } := by
    unfold next
    rw [hpc]
  rw [hone]
  rfl

theorem delta_write_back (hpc : s.pc = .l081DD228) : deltaNext f wav (deltaNext f wav s) = { s with
    pc := .l081DD240, channel := { s.channel with fw := s.r9, ct := s.r2, cp := s.r3 } } := by
  have hone : next f s.toState =
      { s.toState with pc := .l081DD22C, channel := { s.channel with fw := s.r9 } } := by
    unfold next
    rw [hpc]
  have houtside : s.pc ≠ .sub_81DD264 := by
    rw [hpc]
    nofun
  rw [deltaNext_outside houtside hone]
  exact deltaNext_outside nofun rfl

theorem Alike.written (h : Alike f wav base g c d) (hflag : c.status &&& 0x20 ≠ 0) (fw ct r3 : Word) :
    Alike f wav base g { c with fw := fw, ct := ct, cp := r3 }
      { d with fw := fw, ct := ct, cp := base+r3 } where
  compressed := h.compressed
  forward := h.forward
  plain := h.plain
  pitched := h.pitched
  step := h.step
  er := h.er
  el := h.el
  status := h.status
  fw _ := rfl
  ct _ := rfl
  cp _ := congrArg (base+·) (if_neg hflag).symm

theorem Alike.ended (h : Alike f wav base g c d) (fw ct r3 : Word) :
    Alike f wav base g { c with status := 0, fw := fw, ct := ct, cp := r3 } { d with status := 0 } where
  compressed := h.compressed
  forward := h.forward
  plain := h.plain
  pitched := h.pitched
  step := h.step
  er := h.er
  el := h.el
  status := rfl
  fw hon := absurd (show (0 : Byte) &&& 0xC7 = 0 by decide) hon
  ct hon := absurd (show (0 : Byte) &&& 0xC7 = 0 by decide) hon
  cp hon := absurd (show (0 : Byte) &&& 0xC7 = 0 by decide) hon

/-- Both machines come to rest in states with the same buffers. -/
def RestSame (f : Frame) (wav base : Word) (g : Frame) (s : Delta) (p : State) : Prop :=
  ∃ t u, t.pc = .l081DD240 ∧ u.pc = .l081DD240 ∧ Reaches (deltaNext f wav) s (· = t) ∧
    Reaches (next g) p (· = u) ∧ Same f wav base g t u

/-- The frame is over: both channels stay where they are. -/
theorem Mirrors.over (h : Mirrors f wav base c d s p) (ha : Alike f wav base g c d)
    (hflag : c.status &&& 0x20 ≠ 0) (hlabel : s.label = .l081DD4F0) : RestSame f wav base g s p := by
  have hone : deltaNext f wav s = { s with r8 := s.counter, pc := .l081DD228 } := by
    rw [deltaNext_inside h.entered,inside,hlabel]
  have hdelta : Reaches (deltaNext f wav) s (· = { s with
      r8 := s.counter, pc := .l081DD240
      channel := { s.channel with fw := s.r9, ct := s.r2, cp := s.r3 } }) := by
    refine Reaches.step ?_
    rw [hone]
    exact ⟨2,delta_write_back (s := { s with r8 := s.counter, pc := .l081DD228 }) rfl⟩
  have hpc : p.pc = .l081DD228 := by
    rw [h.pc,hlabel]
    rfl
  refine ⟨_,_,rfl,rfl,hdelta,⟨2,write_back hpc⟩,h.right,h.left,?_⟩
  dsimp only
  rw [h.channel,h.plain,h.r9,h.r2,h.r3]
  exact ha.written hflag _ _ _

/-- The wave has ended: the open word is completed, and the channel is off. -/
theorem Mirrors.ended (h : Mirrors f wav base c d s p) (ha : Alike f wav base g c d)
    (hlabel : s.label = .l081DD4F4) : RestSame f wav base g s p := by
  obtain ⟨hinside,hloop,hcached,hpc,hz,hz',h0,h1,h2,h3,h4,h5,hwords,h8,h9,h10,h11,hlr,hlr',hc,hd,hr,
    hl⟩ := h
  obtain ⟨⟨pc,r0,r1,r2,r3,r4,r5,r6,r7,r8,r9,r10,r11,lr,z,channel,right,left⟩,label,counter,xpi,decoded⟩ := s
  obtain ⟨ppc,p0,p1,p2,p3,p4,p5,p6,p7,p8,p9,p10,p11,plr,pz,pchannel,pright,pleft⟩ := p
  dsimp only at hinside hloop hpc hz hz' h0 h1 h2 h3 h4 h5 hwords h8 h9 h10 h11 hlr hlr' hc hd hr hl
  subst hinside hpc h0 h1 h2 h3 h4 h5 h8 h9 h10 h11 hc hd hr hl
  obtain rfl : label = .l081DD4F4 := hlabel
  obtain ⟨rfl,rfl⟩ := hwords nofun nofun
  exact ⟨_,_,rfl,rfl,⟨3,rfl⟩,⟨2,rfl⟩,rfl,rfl,ha.ended p9 0 r3⟩

theorem Mirrors.next_or_rest (h : Mirrors f wav base c d s p) (hg : Decoded f wav base g)
    (ha : Alike f wav base g c d) (hflag : c.status &&& 0x20 ≠ 0) :
    Mirrors f wav base c d (deltaNext f wav s) (next g p) ∨ RestSame f wav base g s p := by
  by_cases hended : s.label = .l081DD4F4
  · exact .inr (h.ended ha hended)
  by_cases hover : s.label = .l081DD4F0
  · exact .inr (h.over ha hflag hover)
  exact .inl (h.step hg ⟨hended,hover⟩)

theorem plainLabel_ne (l : DeltaLabel) : plainLabel l ≠ .l081DD240 := by
  cases l <;> nofun

theorem deltaNext_rest {t : Delta} (h : t.pc = .l081DD240) : deltaNext f wav t = t := by
  have houtside : t.pc ≠ .sub_81DD264 := by
    rw [h]
    nofun
  exact deltaNext_outside houtside (next_rest h)

/-- `t` is where the turn of the channel in `s` comes to rest. -/
def DeltaLeaves (f : Frame) (wav : Word) (s t : Delta) : Prop :=
  t.pc = .l081DD240 ∧ Reaches (deltaNext f wav) s (· = t)

/-- When one of the two comes to rest, so does the other one, in the same state. -/
def RestTogether (f : Frame) (wav base : Word) (g : Frame) (s : Delta) (p : State) : Prop :=
  (∀ t, DeltaLeaves f wav s t → ∃ u, Leaves g p u ∧ Same f wav base g t u) ∧
    ∀ u, Leaves g p u → ∃ t, DeltaLeaves f wav s t ∧ Same f wav base g t u

theorem RestSame.together (h : RestSame f wav base g s p) : RestTogether f wav base g s p := by
  obtain ⟨t,u,ht,hu,hst,hpu,hsame⟩ := h
  refine ⟨fun t' ht' => ⟨u,⟨hu,hpu⟩,?_⟩,fun u' hu' => ⟨t,⟨ht,hst⟩,?_⟩⟩
  · have hone : t' = t := ht'.2.rest (Q := (· = t)) (deltaNext_rest ht'.1) hst fun v hv => by
      rw [hv,deltaNext_rest ht]
    rwa [hone]
  · have hone : u' = u := hu'.2.rest (Q := (· = u)) (next_rest hu'.1) hpu fun v hv => by
      rw [hv,next_rest hu]
    rwa [hone]

theorem Mirrors.together (h : Mirrors f wav base c d s p) (hg : Decoded f wav base g)
    (ha : Alike f wav base g c d) (hflag : c.status &&& 0x20 ≠ 0) : RestTogether f wav base g s p := by
  have hdelta (s : Delta) (p : State) (h : Mirrors f wav base c d s p) : s.pc ≠ .l081DD240 := by
    rw [h.entered]
    nofun
  have hplain (p : State) (s : Delta) (h : Mirrors f wav base c d s p) : p.pc ≠ .l081DD240 := by
    rw [h.pc]
    exact plainLabel_ne s.label
  refine ⟨fun t ⟨ht,hst⟩ => ?_,fun u ⟨hu,hpu⟩ => ?_⟩
  · obtain ⟨u,hu,hpu,hsame⟩ := Reaches.lockstep
      (fun _ => deltaNext_rest) hdelta (fun s p h => h.next_or_rest hg ha hflag) h hst ht
    exact ⟨u,⟨hu,hpu⟩,hsame⟩
  · obtain ⟨t,ht,hst,hsame⟩ := Reaches.lockstep
      (r := fun p s => Mirrors f wav base c d s p) (q := fun u t => Same f wav base g t u)
      (fun _ => next_rest) hplain (fun p s h => by
        obtain hnext | ⟨t,u,ht,hu,hst,hpu,hsame⟩ := h.next_or_rest hg ha hflag
        · exact .inl hnext
        · exact .inr ⟨u,t,hu,ht,hpu,hst,hsame⟩) h hpu hu
    exact ⟨t,⟨ht,hst⟩,hsame⟩

/-- A channel that is off is passed over. -/
theorem Alike.off (h : Alike f wav base g s.channel p.channel) (hoff : s.channel.status &&& 0xC7 = 0)
    (hs : s.pc = .l081DCF60) (hp : p.pc = .l081DCF60) (hright : p.right = s.right)
    (hleft : p.left = s.left) : RestSame f wav base g s p := by
  have hdelta : next f s.toState = { s.toState with pc := .l081DD240 } := by
    unfold next
    rw [hs]
    exact if_pos hoff
  have hplain : next g p = { p with pc := .l081DD240 } := by
    unfold next
    rw [hp]
    exact if_pos (h.on.trans hoff)
  have houtside : s.pc ≠ .sub_81DD264 := by
    rw [hs]
    nofun
  exact ⟨_,_,rfl,rfl,⟨1,deltaNext_outside houtside hdelta⟩,⟨1,hplain⟩,hright,hleft,h⟩

/-- One turn, whatever the buffer holds before it. -/
theorem Alike.turn (h : Alike f wav base g s.channel p.channel) (hg : Decoded f wav base g)
    (hs : s.pc = .l081DCF60) (hlabel : s.label = .l081DD264) (hp : p.pc = .l081DCF60)
    (hright : p.right = s.right) (hleft : p.left = s.left) : RestTogether f wav base g s p := by
  by_cases hoff : s.channel.status &&& 0xC7 = 0
  · exact (h.off hoff hs hp hright hleft).together
  obtain ⟨a,b,hsa,hpb,hm⟩ := h.mirrors_start hg hoff hs hlabel hp hright hleft
  obtain ⟨hdelta,hplain⟩ := hm.together hg h.entered (entered_flag s.channel.status)
  refine ⟨fun t ⟨ht,hst⟩ => ?_,fun u ⟨hu,hpu⟩ => ?_⟩
  · obtain ⟨u,⟨hu,hbu⟩,hsame⟩ := hdelta t ⟨ht,hsa.through hst (deltaNext_rest ht)⟩
    exact ⟨u,⟨hu,hpb.bind fun b' hb => hb ▸ hbu⟩,hsame⟩
  · obtain ⟨t,⟨ht,hat⟩,hsame⟩ := hplain u ⟨hu,hpb.through hpu (next_rest hu)⟩
    exact ⟨t,⟨ht,hsa.bind fun a' ha => ha ▸ hat⟩,hsame⟩

end Lockstep

section Turns

/-- A channel with a compressed wave, and one that has the decoded wave in its place. -/
structure Voice where
  frame : Frame
  wav : Word
  start : Delta
  base : Word
  plainFrame : Frame
  plain : State
  decoded : Decoded frame wav base plainFrame
  alike : Alike frame wav base plainFrame start.channel plain.channel
  start_pc : start.pc = .l081DCF60
  label : start.label = .l081DD264
  plain_pc : plain.pc = .l081DCF60

/-- Every channel that plays a compressed wave forwards has such a counterpart. -/
def Voice.ofDelta (f : Frame) (wav base : Word) (s : Delta) (hwave : f.half wav ≠ 0)
    (hcompressed : s.channel.type &&& 0x30 ≠ 0) (hforward : s.channel.type &&& 0x10 = 0)
    (hpc : s.pc = .l081DCF60) (hlabel : s.label = .l081DD264) : Voice where
  frame := f
  wav := wav
  start := s
  base := base
  plainFrame := { f with
    data := fun a => waveSample f wav (a-base)
    loopStart := base+f.word (wav+8)
    divFreq := f.deltaStep s.channel }
  plain := { s.toState with channel := { s.channel with
    type := 0, freq := 1, cp := base+s.channel.index wav } }
  decoded :=
    ⟨hwave,fun i => congrArg (waveSample f wav) (add_sub_cancel_left base i),rfl,rfl,rfl,rfl⟩
  alike :=
    ⟨hcompressed,hforward,BitVec.zero_and,BitVec.zero_and,mul_one _,rfl,rfl,rfl,fun _ => rfl,fun _ => rfl,fun _ => rfl⟩
  start_pc := hpc
  label := hlabel
  plain_pc := hpc

/-- What the channels of a frame share. -/
structure Buffers where
  right : ℕ → Byte
  left : ℕ → Byte
  decoded : ℕ → Byte

/-- The turn of a channel. Of the channels without a counterpart only what they make of the buffers
matters. -/
inductive Turn
  | voice (v : Voice)
  | other (right left decoded : (ℕ → Byte) → ℕ → Byte)

def Voice.startWith (v : Voice) (b : Buffers) : Delta :=
  { v.start with right := b.right, left := b.left, decoded := b.decoded }

def Voice.plainWith (v : Voice) (right left : ℕ → Byte) : State :=
  { v.plain with right := right, left := left }

/-- A frame: the channels one after another, with the channels that it leaves. -/
inductive PlaysDelta : List Turn → Buffers → List (Voice × Channel) → Buffers → Prop
  | nil {b} : PlaysDelta [] b [] b
  | voice {v turns b t cs b'} (hturn : DeltaLeaves v.frame v.wav (v.startWith b) t)
      (hrest : PlaysDelta turns ⟨t.right,t.left,t.decoded⟩ cs b') :
      PlaysDelta (.voice v::turns) b ((v,t.channel)::cs) b'
  | other {right left decoded turns b cs b'}
      (hrest : PlaysDelta turns ⟨right b.right,left b.left,decoded b.decoded⟩ cs b') :
      PlaysDelta (.other right left decoded::turns) b cs b'

/-- The frame with the decoded waves. -/
inductive PlaysPlain : List Turn → (ℕ → Byte) → (ℕ → Byte) → List (Voice × Channel) →
    (ℕ → Byte) → (ℕ → Byte) → Prop
  | nil {r l} : PlaysPlain [] r l [] r l
  | voice {v turns r l t cs r' l'} (hturn : Leaves v.plainFrame (v.plainWith r l) t)
      (hrest : PlaysPlain turns t.right t.left cs r' l') :
      PlaysPlain (.voice v::turns) r l ((v,t.channel)::cs) r' l'
  | other {right left decoded turns r l cs r' l'}
      (hrest : PlaysPlain turns (right r) (left l) cs r' l') :
      PlaysPlain (.other right left decoded::turns) r l cs r' l'

/-- The channels of one voice, after its turn. -/
def StillAlike (c d : Voice × Channel) : Prop :=
  c.1 = d.1 ∧ Alike c.1.frame c.1.wav c.1.base c.1.plainFrame c.2 d.2

variable {turns : List Turn} {b b' : Buffers} {cs ds : List (Voice × Channel)} {r l r' l' : ℕ → Byte}

theorem Voice.turn (v : Voice) (b : Buffers) : RestTogether v.frame v.wav v.base v.plainFrame
    (v.startWith b) (v.plainWith b.right b.left) :=
  Alike.turn (s := v.startWith b) (p := v.plainWith b.right b.left) v.alike v.decoded v.start_pc v.label
    v.plain_pc rfl rfl

theorem PlaysDelta.plain (h : PlaysDelta turns b cs b') :
    ∃ ds, PlaysPlain turns b.right b.left ds b'.right b'.left ∧ List.Forall₂ StillAlike cs ds := by
  induction h with
  | nil => exact ⟨[],.nil,.nil⟩
  | @voice v turns b t cs b' hturn _ ih =>
    obtain ⟨u,hu,hsame⟩ := (v.turn b).1 t hturn
    obtain ⟨ds,hplain,hall⟩ := ih
    rw [← hsame.right,← hsame.left] at hplain
    exact ⟨_,.voice hu hplain,.cons ⟨rfl,hsame.channel⟩ hall⟩
  | other _ ih =>
    obtain ⟨ds,hplain,hall⟩ := ih
    exact ⟨ds,.other hplain,hall⟩

theorem PlaysPlain.delta (h : PlaysPlain turns r l ds r' l') (decoded : ℕ → Byte) :
    ∃ cs decoded', PlaysDelta turns ⟨r,l,decoded⟩ cs ⟨r',l',decoded'⟩ ∧
      List.Forall₂ StillAlike cs ds := by
  induction h generalizing decoded with
  | nil => exact ⟨[],decoded,.nil,.nil⟩
  | @voice v turns r l u ds r' l' hturn _ ih =>
    obtain ⟨t,ht,hsame⟩ := (v.turn ⟨r,l,decoded⟩).2 u hturn
    obtain ⟨cs,decoded',hdelta,hall⟩ := ih t.decoded
    rw [hsame.right,hsame.left] at hdelta
    exact ⟨_,decoded',.voice ht hdelta,.cons ⟨rfl,hsame.channel⟩ hall⟩
  | @other right left clobber turns r l ds r' l' _ ih =>
    obtain ⟨cs,decoded',hdelta,hall⟩ := ih (clobber decoded)
    exact ⟨cs,decoded',.other hdelta,hall⟩

/-- A frame with compressed waves adds to the output what it adds with the waves decoded, and the
channels end and loop alike, whatever the others do to the one buffer; a channel that starts without
a block fetches every sample as if its block were decoded for it. -/
theorem delta_playback (turns : List Turn) (b : Buffers) :
    (∀ cs b', PlaysDelta turns b cs b' → ∃ ds,
      PlaysPlain turns b.right b.left ds b'.right b'.left ∧ List.Forall₂ StillAlike cs ds) ∧
    (∀ ds r l, PlaysPlain turns b.right b.left ds r l → ∃ cs decoded,
      PlaysDelta turns b cs ⟨r,l,decoded⟩ ∧ List.Forall₂ StillAlike cs ds) ∧
    ∀ (f : Frame) (wav : Word) (s : Delta) (is : List Word), s.xpi = 0xFF000000 →
      fetchAll f wav s is = is.map fun i : Word => (decodeBlock f.data
        ((0x21 : Word)*(i >>> 6)+wav+0x10) s.decoded (i &&& 0x3F).toNat).signExtend 32 := by
  refine ⟨fun cs b' h => h.plain,fun ds r l h => h.delta b.decoded,fun f wav s is hxpi => ?_⟩
  rw [(cached_start hxpi).fetchAll]
  refine List.map_congr_left fun i _ => ?_
  rw [decodeBlock_eq _ _ _ (offset_lt i),waveSample]

/-- A wave whose loop is entered from the last samples of its first block. -/
def borderFrame : Frame :=
  { sixSamples with data := fun a => a.setWidth 8+1, loopLength := 4, divFreq := 0x1800000 }

def borderStart : Delta :=
  { sixLeft with
    channel := { sixLeft.channel with type := 0x20, cp := 0x10+61 }
    label := .l081DD264, counter := 0, xpi := 0, decoded := fun _ => 0 }

def borderVoice : Voice :=
  .ofDelta borderFrame 0 0x100 borderStart (by decide) (by decide) (by decide) rfl rfl

def silence : Buffers := ⟨fun _ => 0,fun _ => 0,fun _ => 1⟩

def borderEnd : Delta := (deltaNext borderFrame 0)^[43] (borderVoice.startWith silence)

theorem delta_playback_border : borderEnd.channel.ct = 2 ∧ ∃ ds,
    PlaysPlain [.voice borderVoice] silence.right silence.left ds borderEnd.right borderEnd.left ∧
      List.Forall₂ StillAlike [(borderVoice,borderEnd.channel)] ds := by
  have hleaves : DeltaLeaves borderVoice.frame borderVoice.wav (borderVoice.startWith silence)
    borderEnd := ⟨by decide +kernel,43,rfl⟩
  have hplays : PlaysDelta [.voice borderVoice] silence [(borderVoice,borderEnd.channel)]
    ⟨borderEnd.right,borderEnd.left,borderEnd.decoded⟩ := .voice hleaves .nil
  have hplain := (delta_playback [.voice borderVoice] silence).1 _ _ hplays
  dsimp only at hplain
  exact ⟨by decide +kernel,hplain⟩

end Turns

end Mixer
end M4a
end AgbTools
