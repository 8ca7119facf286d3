import AgbTools.LoopedTrack
import AgbTools.M4aLock
import AgbTools.RotatingWord
import AgbTools.Runs
import Mathlib.Data.BitVec
import Mathlib.Tactic.Ring

/-! The mixing loops of SoundMainRAM for one channel, as a machine that goes from label to label.
The envelope before them is left out: `er` and `el` are the volumes it leaves in the channel. -/
namespace AgbTools
namespace M4a
namespace Mixer

open Runs RotatingWord LoopedTrack

section Machine

inductive Label
  | l081DCF60 | l081DD03A | l081DD068 | l081DD07C | l081DD0A8 | l081DD0B0 | l081DD0EC | l081DD0F4
  | l081DD118 | l081DD134 | l081DD148 | l081DD158 | l081DD164 | l081DD174 | l081DD19C | l081DD1B4
  | l081DD1BC | l081DD1FC | l081DD208 | l081DD228 | l081DD22C | l081DD240 | sub_81DD264
  deriving DecidableEq

/-- The fields of a SoundChannel that the loops use. -/
structure Channel where
  status : Byte
  type : Byte
  er : Byte
  el : Byte
  fw : Word
  freq : Word
  ct : Word
  cp : Word
  deriving DecidableEq

/-- What SoundMainRAM has set up for the channel: the memory the samples are read from, the place in
`pcmBuffer` at [sp,0x8], the loop at [sp,0xC] and [sp,0x10], `divFreq` in r12 and
`pcmSamplesPerVBlank` in r8. -/
structure Frame where
  data : Word → Byte
  buffer : Word
  loopStart : Word
  loopLength : Word
  divFreq : Word
  samples : Word

/-- `right` and `left` are the halves of `pcmBuffer`, 0x630 bytes apart, both by the address of the
right one. `z` is the flag that the fetch of a sample is entered with. -/
structure State where
  pc : Label
  r0 : Word
  r1 : Word
  r2 : Word
  r3 : Word
  r4 : Word
  r5 : Word
  r6 : Word
  r7 : Word
  r8 : Word
  r9 : Word
  r10 : Word
  r11 : Word
  lr : Word
  z : Bool
  channel : Channel
  right : ℕ → Byte
  left : ℕ → Byte

/-- `ldrsb` -/
def Frame.ldrsb (f : Frame) (a : Word) : Word := (f.data a).signExtend 32

/-- `mul`, `bic` and `add .., ror 8` -/
def mixInto (vol x acc : Word) : Word := (vol*x &&& ~~~0xFF0000) + acc.rotateRight 8

@[simps] def mixSample (x : Word) (s : State) : State :=
  {s with r6 := mixInto s.r10 x s.r6, r7 := mixInto s.r11 x s.r7}

@[simps] def loadWords (s : State) : State :=
  {s with r6 := loadWord s.right s.r5.toNat, r7 := loadWord s.left s.r5.toNat}

@[simps -fullyApplied] def storeWords (s : State) : State :=
  {s with left := storeWord s.left s.r5.toNat s.r7, right := storeWord s.right s.r5.toNat s.r6,
          r5 := s.r5+4}

/-- `adds r5, r5, 0x40000000`: the position in the word is in the top bits, and its carry says that
the word is complete. -/
@[simps -fullyApplied] def nextByte (pc : Label) (s : State) : State := {s with r5 := s.r5+0x40000000, pc := pc}
def wordDone (s : State) : Bool := 2^32 ≤ s.r5.toNat + 2^30

/-- From one label to the next one. -/
def next (f : Frame) (s : State) : State :=
  match s.pc with
  | .l081DCF60 =>
    if s.channel.status &&& 0xC7 = 0 then {s with pc := .l081DD240} else {s with pc := .l081DD03A}
  | .l081DD03A =>
    let s : State := {s with r5 := f.buffer, r2 := s.channel.ct, r3 := s.channel.cp, r8 := f.samples,
                             r9 := s.channel.fw, r10 := s.channel.er.setWidth 32,
                             r11 := s.channel.el.setWidth 32}
    if s.channel.type &&& 0x30 = 0 then {s with pc := .l081DD068} else {s with pc := .sub_81DD264}
  | .l081DD068 =>
    let s : State := {s with r10 := s.r10 <<< 16, r11 := s.r11 <<< 16}
    if s.channel.type &&& 0x8 = 0 then {s with pc := .l081DD19C} else {s with pc := .l081DD07C}
  | .l081DD07C =>
    if s.r2.sle 4 then {s with pc := .l081DD0EC} else
      let r2 := s.r2-s.r8
      if s.r8.slt s.r2 then {s with r2 := r2, r9 := 0, pc := .l081DD0A8} else
        let r2 := r2+s.r8
        let r8 := r2-4
        let r9 := s.r8-r8
        let r2 := r2 &&& 0x3
        {s with r2 := if r2 = 0 then 4 else r2, r8 := r8, r9 := r9, pc := .l081DD0A8}
  | .l081DD0A8 => {loadWords s with pc := .l081DD0B0}
  | .l081DD0B0 =>
    let r0 := f.ldrsb s.r3
    let s : State := mixSample r0 {s with r0 := r0, r3 := s.r3+1}
    if ¬wordDone s then nextByte .l081DD0B0 s else
      let s : State := storeWords (nextByte .l081DD0A8 s)
      let r8 := s.r8-4
      if (4 : Word).slt s.r8 then {s with r8 := r8}
      else if r8+s.r9 = 0 then {s with r8 := r8+s.r9, pc := .l081DD22C}
      else {s with r8 := r8+s.r9, pc := .l081DD0EC}
  | .l081DD0EC => {loadWords s with pc := .l081DD0F4}
  | .l081DD0F4 =>
    let r0 := f.ldrsb s.r3
    let s : State := mixSample r0 {s with r0 := r0, r3 := s.r3+1}
    let s : State := {s with r2 := s.r2-1}
    if s.r2 = 0 then {s with pc := .l081DD164} else {s with pc := .l081DD118}
  | .l081DD118 =>
    if ¬wordDone s then nextByte .l081DD0F4 s else
      let s : State := storeWords (nextByte .l081DD07C s)
      let r8 := s.r8-4
      if (4 : Word).slt s.r8 then {s with r8 := r8}
      else {s with r8 := r8, pc := .l081DD22C}
  | .l081DD134 =>
    if f.loopLength = 0 then {s with r0 := f.loopLength, pc := .l081DD158}
    else {s with r0 := f.loopLength, r3 := f.loopStart, lr := 0-s.r2, pc := .l081DD148}
  | .l081DD148 =>
    let r2 := s.r0+s.r2
    if 0 < s.r0.toInt+s.r2.toInt then {s with r2 := r2, z := r2 = 0, pc := .l081DD1FC}
    else {s with r2 := r2, lr := s.lr-s.r0}
  | .l081DD158 => {s with r2 := 0, pc := .l081DD174}
  | .l081DD164 =>
    if f.loopLength = 0 then {s with r2 := f.loopLength, pc := .l081DD174}
    else {s with r2 := f.loopLength, r3 := f.loopStart, pc := .l081DD118}
  | .l081DD174 =>
    let r0 : Word := ((3 : Word)-(s.r5 >>> 30)) <<< 3
    let s : State := {s with channel := {s.channel with status := s.r2.setWidth 8}, r0 := r0,
                             r5 := s.r5 &&& ~~~0xC0000000, r6 := s.r6.rotateRight r0.toNat,
                             r7 := s.r7.rotateRight r0.toNat}
    {storeWords s with pc := .l081DD240}
  | .l081DD19C =>
    let r0 := f.ldrsb s.r3
    let r3 := s.r3+1
    {s with r4 := f.divFreq*s.channel.freq, r0 := r0, r3 := r3, r1 := f.ldrsb r3-r0, pc := .l081DD1B4}
  | .l081DD1B4 => {loadWords s with pc := .l081DD1BC}
  | .l081DD1BC =>
    let lr := s.r0 + (s.r9*s.r1).sshiftRight 23
    let s : State := mixSample lr s
    let r9 := s.r9+s.r4
    let lr := r9 >>> 23
    if lr = 0 then {s with r9 := r9, lr := lr, pc := .l081DD208} else
      let r9 := r9 &&& ~~~0x3F800000
      let r2 := s.r2-lr
      if s.r2.sle lr then {s with r9 := r9, r2 := r2, lr := lr, pc := .l081DD134} else
        let lr := lr-1
        {s with r9 := r9, r2 := r2, lr := lr, z := lr = 0, r0 := if lr = 0 then s.r0+s.r1 else s.r0,
                pc := .l081DD1FC}
  | .l081DD1FC =>
    let s : State := if s.z then s else {s with r3 := s.r3+s.lr, r0 := f.ldrsb (s.r3+s.lr)}
    {s with r3 := s.r3+1, r1 := f.ldrsb (s.r3+1)-s.r0, pc := .l081DD208}
  | .l081DD208 =>
    if ¬wordDone s then nextByte .l081DD1BC s else
      let s : State := storeWords (nextByte .l081DD1B4 s)
      let r8 := s.r8-4
      if (4 : Word).slt s.r8 then {s with r8 := r8}
      else {s with r8 := r8, r3 := s.r3-1, pc := .l081DD228}
  | .l081DD228 => {s with channel := {s.channel with fw := s.r9}, pc := .l081DD22C}
  | .l081DD22C => {s with channel := {s.channel with ct := s.r2, cp := s.r3}, pc := .l081DD240}
  | .l081DD240 => s
  | .sub_81DD264 => s

end Machine

section Comparisons

variable {a b : Word}

/-- Below 2^31 the signed comparisons are those of the numbers. -/
theorem slt_small (ha : a.toNat < 2^31) (hb : b.toNat < 2^31) : a.slt b ↔ a.toNat < b.toNat := by
  rw [BitVec.slt_iff_toInt_lt,BitVec.toInt_eq_toNat_of_lt (by omega),
    BitVec.toInt_eq_toNat_of_lt (by omega)]
  omega

theorem sle_small (ha : a.toNat < 2^31) (hb : b.toNat < 2^31) : a.sle b ↔ a.toNat ≤ b.toNat := by
  rw [BitVec.sle_iff_toInt_le,BitVec.toInt_eq_toNat_of_lt (by omega),
    BitVec.toInt_eq_toNat_of_lt (by omega)]
  omega

theorem small_of_not_sle (ha : a.toNat < 2^31) (h : ¬b.sle a) : a.toNat < b.toNat ∧ b.toNat < 2^31 := by
  rw [BitVec.sle_iff_toInt_le,BitVec.toInt_eq_toNat_of_lt (x := a) (by omega),
    BitVec.toInt_eq_toNat_cond] at h
  split_ifs at h <;> omega

end Comparisons

section Samples

/-- What a sample adds to a byte of the buffer. -/
def scaled (vol : Byte) (sample : ℤ) : Byte := BitVec.ofInt 8 ((vol.toNat*sample) >>> (8 : ℕ))

/-- Of a product in the upper half of a word only the upper byte is kept. -/
theorem clear_shiftLeft (v : Word) :
    v <<< 16 &&& ~~~(0xFF0000 : Word) = ((v >>> 8).setWidth 8 : Byte).setWidth 32 <<< 24 := by
  have hmask : ∀ j < 32, (0xFF0000 : Word).getLsbD j = decide (16 ≤ j ∧ j < 24) := by decide
  apply BitVec.eq_of_getLsbD_eq
  intro i hi
  simp only [BitVec.getLsbD_and,BitVec.getLsbD_not,BitVec.getLsbD_shiftLeft,BitVec.getLsbD_setWidth,
    BitVec.getLsbD_ushiftRight,hmask i hi,hi,decide_true,Bool.true_and]
  obtain h | h | h : i < 16 ∨ 16 ≤ i ∧ i < 24 ∨ 24 ≤ i := by omega
  · simp [h,show i < 24 by omega]
  · simp [h]
  · simp [show ¬i < 16 by omega,show ¬i < 24 by omega,show i-24 < 32 by omega,show i-24 < 8 by omega,
      show 8+(i-24) = i-16 by omega]

theorem scaled_eq (vol : Byte) (x : Word) :
    ((vol.setWidth 32*x) >>> 8).setWidth 8 = scaled vol x.toInt := by
  have hproduct : vol.setWidth 32*x = BitVec.ofInt 32 (vol.toNat*x.toInt) := by
    rw [BitVec.ofInt_mul,BitVec.ofInt_toInt,BitVec.ofInt_natCast,BitVec.ofNat_toNat]
  rw [hproduct,scaled]
  apply BitVec.eq_of_toNat_eq
  rw [BitVec.toNat_setWidth,BitVec.toNat_ushiftRight,BitVec.toNat_ofInt,BitVec.toNat_ofInt,
    Nat.shiftRight_eq_div_pow,Int.shiftRight_eq_div_pow]
  omega

/-- The volume is in the upper half of its register, and the product adds its second byte to the
byte that comes to the top. -/
theorem mixInto_eq (vol : Byte) (x acc : Word) :
    mixInto (vol.setWidth 32 <<< 16) x acc = feed acc (scaled vol x.toInt) := by
  have hshift : vol.setWidth 32 <<< 16*x = (vol.setWidth 32*x) <<< 16 := by
    rw [BitVec.shiftLeft_eq_mul_twoPow,BitVec.shiftLeft_eq_mul_twoPow]
    ring
  rw [mixInto,feed,hshift,clear_shiftLeft,scaled_eq]

end Samples

section Track

/-- What is left of the sample of a channel. -/
def Frame.track (f : Frame) (c : Channel) : Track Word := ⟨c.cp,c.ct.toNat,f.loopStart,f.loopLength.toNat⟩

theorem toInt_ldrsb (f : Frame) (a : Word) : (f.ldrsb a).toInt = (f.data a).toInt :=
  BitVec.toInt_signExtend_of_le (by omega)

theorem track_loopLength {f : Frame} {c : Channel} : (f.track c).loopLength = 0 ↔ f.loopLength = 0 :=
  ⟨fun h => BitVec.eq_of_toNat_eq h,fun h => congrArg BitVec.toNat h⟩

end Track

section Words

/-- A frame that is mixed: the channel and the buffer before it, and the sample of each output. -/
structure Job where
  frame : Frame
  channel : Channel
  right : ℕ → Byte
  left : ℕ → Byte
  played : ℕ → Option ℤ

def Job.base (j : Job) : ℕ := j.frame.buffer.toNat

/-- The buffer after `n` outputs. -/
def Job.rightAt (j : Job) (n : ℕ) : ℕ → Byte :=
  mixed (fun i => (j.played i).map (scaled j.channel.er)) j.base n j.right
def Job.leftAt (j : Job) (n : ℕ) : ℕ → Byte :=
  mixed (fun i => (j.played i).map (scaled j.channel.el)) j.base n j.left

def Job.Keeps (j : Job) (s : State) : Prop :=
  s.channel = j.channel ∧ s.r10 = j.channel.er.setWidth 32 <<< 16 ∧
    s.r11 = j.channel.el.setWidth 32 <<< 16

/-- Between two words: `q` of them are complete. -/
def Job.AtWord (j : Job) (q : ℕ) (s : State) : Prop :=
  j.Keeps s ∧ s.r5.toNat = j.base+4*q ∧ s.right = j.rightAt (4*q) ∧ s.left = j.leftAt (4*q)

/-- In the word after `q` complete ones, at the byte `k`: `m` of its outputs are mixed. -/
def Job.InWord (j : Job) (q k m : ℕ) (s : State) : Prop :=
  j.Keeps s ∧ s.r5.toNat = j.base+4*q+2^30*k ∧
    Held s.right (j.rightAt (4*q+m)) (j.base+4*q) m s.r6 ∧
    Held s.left (j.leftAt (4*q+m)) (j.base+4*q) m s.r7

variable {j : Job} {q k m : ℕ} {s : State} {pc : Label}

theorem Job.Keeps.nextByte (h : j.Keeps s) : j.Keeps (nextByte pc s) := h

theorem Job.Keeps.storeWords (h : j.Keeps s) : j.Keeps (storeWords s) := h

theorem Job.AtWord.set (h : j.AtWord q s) (pc : Label) (r8 r3 : Word) :
    j.AtWord q {s with pc := pc, r3 := r3, r8 := r8} := h

theorem Job.AtWord.pitch (h : j.AtWord q s) (pc : Label) (r0 r1 r3 r4 : Word) :
    j.AtWord q {s with pc := pc, r0 := r0, r1 := r1, r3 := r3, r4 := r4} := h

theorem Job.InWord.set (h : j.InWord q k m s) (pc : Label) (r0 r1 r2 r3 r9 lr : Word) (z : Bool) :
    j.InWord q k m
      {s with pc := pc, r0 := r0, r1 := r1, r2 := r2, r3 := r3, r9 := r9, lr := lr, z := z} := h

theorem Job.AtWord.load (h : j.AtWord q s) : j.InWord q 0 0 (loadWords s) := by
  obtain ⟨hkeeps,hposition,hright,hleft⟩ := h
  refine ⟨hkeeps,hposition,?_,?_⟩
  · rw [← hposition,Nat.add_zero,← hright]
    exact Held.load s.right s.r5.toNat
  · rw [← hposition,Nat.add_zero,← hleft]
    exact Held.load s.left s.r5.toNat

theorem Job.InWord.mix (h : j.InWord q k k s) (hk : k < 4) {x : Word}
    (hx : j.played (4*q+k) = some x.toInt) : j.InWord q k (k+1) (mixSample x s) := by
  obtain ⟨hkeeps,hposition,hright,hleft⟩ := h
  refine ⟨hkeeps,hposition,?_,?_⟩
  · have hnext : (fun i => (j.played i).map (scaled j.channel.er)) (4*q+k) =
        some (scaled j.channel.er x.toInt) := by simp [hx]
    have hfeed := hright.feed hk (scaled j.channel.er x.toInt)
    rw [← mixInto_eq,← hkeeps.2.1] at hfeed
    rwa [Job.rightAt,← Nat.add_assoc,mixed_succ hnext,← Job.rightAt,← Nat.add_assoc]
  · have hnext : (fun i => (j.played i).map (scaled j.channel.el)) (4*q+k) =
        some (scaled j.channel.el x.toInt) := by simp [hx]
    have hfeed := hleft.feed hk (scaled j.channel.el x.toInt)
    rw [← mixInto_eq,← hkeeps.2.2] at hfeed
    rwa [Job.leftAt,← Nat.add_assoc,mixed_succ hnext,← Job.leftAt,← Nat.add_assoc]

theorem Job.InWord.nextByte (h : j.InWord q k (k+1) s) (hk : k < 3) (hbound : j.base+4*q+4 ≤ 2^30)
    (pc : Label) :
    wordDone s = false ∧ j.InWord q (k+1) (k+1) (nextByte pc s) := by
  obtain ⟨hkeeps,hposition,hright,hleft⟩ := h
  refine ⟨?_,hkeeps.nextByte,?_,hright,hleft⟩
  · rw [wordDone,decide_eq_false_iff_not]
    omega
  · rw [nextByte_r5,BitVec.toNat_add,show (0x40000000 : Word).toNat = 2^30 from rfl]
    omega

theorem Job.InWord.store (h : j.InWord q 3 4 s) (hbound : j.base+4*q+4 ≤ 2^30) (pc : Label) :
    wordDone s = true ∧ j.AtWord (q+1) (storeWords (Mixer.nextByte pc s)) := by
  obtain ⟨hkeeps,hposition,hright,hleft⟩ := h
  have hr5 : (s.r5+0x40000000).toNat = j.base+4*q := by
    rw [BitVec.toNat_add,show (0x40000000 : Word).toNat = 2^30 from rfl]
    omega
  refine ⟨?_,hkeeps.nextByte.storeWords,?_,?_,?_⟩
  · rw [wordDone,decide_eq_true_eq]
    omega
  · rw [storeWords_r5,nextByte_r5,BitVec.toNat_add,hr5,show (4 : Word).toNat = 4 from rfl]
    omega
  · rw [storeWords_right,nextByte_right,nextByte_r5,nextByte_r6,hr5,hright.store,Nat.mul_add_one]
  · rw [storeWords_left,nextByte_left,nextByte_r5,nextByte_r7,hr5,hleft.store,Nat.mul_add_one]

/-- The frame is over after `n` outputs, and leaves the channel as `c`. -/
def Job.Over (j : Job) (n : ℕ) (c : Channel) (s : State) : Prop :=
  s.pc = .l081DD240 ∧ s.channel = c ∧ s.right = j.rightAt n ∧ s.left = j.leftAt n

/-- What a job does is split into what one does up to an output and one from there on. -/
theorem Job.at_add {e : Job} {a : ℕ} (hplayed : ∀ i, e.played i = j.played (a+i))
    (hbase : e.base = j.base+a) (her : e.channel.er = j.channel.er) (hel : e.channel.el = j.channel.el)
    (hright : e.right = j.rightAt a) (hleft : e.left = j.leftAt a) (b : ℕ) :
    j.rightAt (a+b) = e.rightAt b ∧ j.leftAt (a+b) = e.leftAt b := by
  refine ⟨?_,?_⟩
  · rw [Job.rightAt,mixed_add,← Job.rightAt,← hright,← hbase,← her]
    simp only [← hplayed]
    rfl
  · rw [Job.leftAt,mixed_add,← Job.leftAt,← hleft,← hbase,← hel]
    simp only [← hplayed]
    rfl

/-- Once nothing is played any more, the frame may as well be longer. -/
theorem Job.Over.later {m n : ℕ} {c : Channel} (h : j.Over m c s)
    (hnone : ∀ i, m ≤ i → j.played i = none) (hm : m ≤ n) : j.Over n c s := by
  obtain ⟨hpc,hchannel,hright,hleft⟩ := h
  have hsilent : ∀ vol : Byte, ∀ i, m ≤ i → (j.played i).map (scaled vol) = none := by
    intro vol i hi
    rw [hnone i hi,Option.map_none]
  refine ⟨hpc,hchannel,?_,?_⟩
  · rw [hright]
    exact (mixed_of_none (hsilent _) hm _ _).symm
  · rw [hleft]
    exact (mixed_of_none (hsilent _) hm _ _).symm

theorem toNat_clearTop (w : Word) : (w &&& ~~~0xC0000000).toNat = w.toNat%2^30 := by
  rw [BitVec.toNat_and,show (~~~0xC0000000 : Word).toNat = 2^30-1 from rfl,
    Nat.and_two_pow_sub_one_eq_mod]

/-- The sample has ended: the open word is turned the rest of the way, and only the status of the
channel is written. -/
theorem Job.InWord.stop (h : j.InWord q k (k+1) s) (hk : k < 4) (hbound : j.base+4*q+4 ≤ 2^30)
    {f : Frame} (hpc : s.pc = .l081DD174) (hr2 : s.r2 = 0) :
    j.Over (4*q+(k+1)) {j.channel with status := 0} (next f s) := by
  obtain ⟨hkeeps,hposition,hright,hleft⟩ := h
  have hplace : (s.r5 >>> 30).toNat = k := by
    rw [BitVec.toNat_ushiftRight,Nat.shiftRight_eq_div_pow]
    omega
  have hturn : (((3 : Word)-(s.r5 >>> 30)) <<< 3).toNat = 8*(3-k) := by
    rw [BitVec.toNat_shiftLeft,BitVec.toNat_sub,hplace,show (3 : Word).toNat = 3 from rfl,
      Nat.shiftLeft_eq]
    omega
  have haddr : (s.r5 &&& ~~~0xC0000000).toNat = j.base+4*q := by
    rw [toNat_clearTop]
    omega
  unfold next
  rw [hpc]
  refine ⟨rfl,?_,?_,?_⟩
  · rw [storeWords_channel,hr2,hkeeps.1]
    rfl
  · rw [storeWords_right]
    dsimp only
    have hdone := hright.turn (show 3-k < 4 by omega)
    rw [show k+1+(3-k) = 4 by omega] at hdone
    rw [haddr,hturn,hdone.store]
  · rw [storeWords_left]
    dsimp only
    have hdone := hleft.turn (show 3-k < 4 by omega)
    rw [show k+1+(3-k) = 4 by omega] at hdone
    rw [haddr,hturn,hdone.store]

/-- A channel that is on: its registers are loaded, and it is mixed at a fixed pitch or at its own. -/
theorem enter {f : Frame} (hpc : s.pc = .l081DCF60) (hon : s.channel.status &&& 0xC7 ≠ 0)
    (hplain : s.channel.type &&& 0x30 = 0) (played : ℕ → Option ℤ) :
    Reaches (next f) s fun t => Job.AtWord ⟨f,s.channel,s.right,s.left,played⟩ 0 t ∧
      t.r2 = s.channel.ct ∧ t.r3 = s.channel.cp ∧ t.r8 = f.samples ∧ t.r9 = s.channel.fw ∧
      t.pc = if s.channel.type &&& 0x8 = 0 then .l081DD19C else .l081DD07C := by
  have hstatus : next f s = {s with pc := .l081DD03A} := by
    unfold next
    rw [hpc]
    exact if_neg hon
  have hload : next f {s with pc := .l081DD03A} = {s with
      r5 := f.buffer, r2 := s.channel.ct, r3 := s.channel.cp, r8 := f.samples, r9 := s.channel.fw,
      r10 := s.channel.er.setWidth 32, r11 := s.channel.el.setWidth 32, pc := .l081DD068} :=
    if_pos hplain
  have hstart : Job.AtWord ⟨f,s.channel,s.right,s.left,played⟩ 0 {s with
      r5 := f.buffer, r2 := s.channel.ct, r3 := s.channel.cp, r8 := f.samples, r9 := s.channel.fw,
      r10 := s.channel.er.setWidth 32 <<< 16, r11 := s.channel.el.setWidth 32 <<< 16} :=
    ⟨⟨rfl,rfl,rfl⟩,rfl,(mixed_zero ..).symm,(mixed_zero ..).symm⟩
  refine Reaches.step (Reaches.step (Reaches.step (Reaches.done ?_)))
  rw [hstatus,hload,next]
  by_cases hfix : s.channel.type &&& 0x8 = 0
  · rw [if_pos hfix]
    exact ⟨hstart,rfl,rfl,rfl,rfl,(if_pos hfix).symm⟩
  · rw [if_neg hfix]
    exact ⟨hstart,rfl,rfl,rfl,rfl,(if_neg hfix).symm⟩

end Words

end Mixer
end M4a
end AgbTools
