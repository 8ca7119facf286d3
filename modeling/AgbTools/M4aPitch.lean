import Mathlib.Tactic.Ring
import AgbTools.M4aLock
import AgbTools.Interpolation

/-! Keys and frequencies: `MidiKeyToFreq` for the sampled channels and `MidiKeyToCgbFreq` for the
oscillators. A lookup outside its table gives no value. -/
namespace AgbTools
namespace M4a

def gScaleTable : List Byte :=
  [0xE0,0xE1,0xE2,0xE3,0xE4,0xE5,0xE6,0xE7,0xE8,0xE9,0xEA,0xEB,
   0xD0,0xD1,0xD2,0xD3,0xD4,0xD5,0xD6,0xD7,0xD8,0xD9,0xDA,0xDB,
   0xC0,0xC1,0xC2,0xC3,0xC4,0xC5,0xC6,0xC7,0xC8,0xC9,0xCA,0xCB,
   0xB0,0xB1,0xB2,0xB3,0xB4,0xB5,0xB6,0xB7,0xB8,0xB9,0xBA,0xBB,
   0xA0,0xA1,0xA2,0xA3,0xA4,0xA5,0xA6,0xA7,0xA8,0xA9,0xAA,0xAB,
   0x90,0x91,0x92,0x93,0x94,0x95,0x96,0x97,0x98,0x99,0x9A,0x9B,
   0x80,0x81,0x82,0x83,0x84,0x85,0x86,0x87,0x88,0x89,0x8A,0x8B,
   0x70,0x71,0x72,0x73,0x74,0x75,0x76,0x77,0x78,0x79,0x7A,0x7B,
   0x60,0x61,0x62,0x63,0x64,0x65,0x66,0x67,0x68,0x69,0x6A,0x6B,
   0x50,0x51,0x52,0x53,0x54,0x55,0x56,0x57,0x58,0x59,0x5A,0x5B,
   0x40,0x41,0x42,0x43,0x44,0x45,0x46,0x47,0x48,0x49,0x4A,0x4B,
   0x30,0x31,0x32,0x33,0x34,0x35,0x36,0x37,0x38,0x39,0x3A,0x3B,
   0x20,0x21,0x22,0x23,0x24,0x25,0x26,0x27,0x28,0x29,0x2A,0x2B,
   0x10,0x11,0x12,0x13,0x14,0x15,0x16,0x17,0x18,0x19,0x1A,0x1B,
   0x00,0x01,0x02,0x03,0x04,0x05,0x06,0x07,0x08,0x09,0x0A,0x0B]

def gFreqTable : List Word :=
  [2147483648,2275179671,2410468894,2553802834,2705659852,2866546760,
   3037000500,3217589947,3408917802,3611622603,3826380858,4053909305]

def gCgbScaleTable : List Byte :=
  [0x00,0x01,0x02,0x03,0x04,0x05,0x06,0x07,0x08,0x09,0x0A,0x0B,
   0x10,0x11,0x12,0x13,0x14,0x15,0x16,0x17,0x18,0x19,0x1A,0x1B,
   0x20,0x21,0x22,0x23,0x24,0x25,0x26,0x27,0x28,0x29,0x2A,0x2B,
   0x30,0x31,0x32,0x33,0x34,0x35,0x36,0x37,0x38,0x39,0x3A,0x3B,
   0x40,0x41,0x42,0x43,0x44,0x45,0x46,0x47,0x48,0x49,0x4A,0x4B,
   0x50,0x51,0x52,0x53,0x54,0x55,0x56,0x57,0x58,0x59,0x5A,0x5B,
   0x60,0x61,0x62,0x63,0x64,0x65,0x66,0x67,0x68,0x69,0x6A,0x6B,
   0x70,0x71,0x72,0x73,0x74,0x75,0x76,0x77,0x78,0x79,0x7A,0x7B,
   0x80,0x81,0x82,0x83,0x84,0x85,0x86,0x87,0x88,0x89,0x8A,0x8B,
   0x90,0x91,0x92,0x93,0x94,0x95,0x96,0x97,0x98,0x99,0x9A,0x9B,
   0xA0,0xA1,0xA2,0xA3,0xA4,0xA5,0xA6,0xA7,0xA8,0xA9,0xAA,0xAB]

def gCgbFreqTable : List ℤ :=
  [-2004,-1891,-1785,-1685,-1591,-1501,-1417,-1337,-1262,-1192,-1125,-1062]

def gNoiseTable : List Byte :=
  [0xD7,0xD6,0xD5,0xD4,0xC7,0xC6,0xC5,0xC4,0xB7,0xB6,0xB5,0xB4,
   0xA7,0xA6,0xA5,0xA4,0x97,0x96,0x95,0x94,0x87,0x86,0x85,0x84,
   0x77,0x76,0x75,0x74,0x67,0x66,0x65,0x64,0x57,0x56,0x55,0x54,
   0x47,0x46,0x45,0x44,0x37,0x36,0x35,0x34,0x27,0x26,0x25,0x24,
   0x17,0x16,0x15,0x14,0x07,0x06,0x05,0x04,0x03,0x02,0x01,0x00]

/-- The high word of the product of two words. -/
def umul3232H32 (a b : Word) : Word :=
  ((a.zeroExtend 64*b.zeroExtend 64) >>> 32).truncate 32

section Sampled

/-- The table frequency of a key: an entry of the top octave, shifted down. -/
def keyFreq (key : ℕ) : Option Word := do
  let val ← gScaleTable[key]?
  let freq ← gFreqTable[(val &&& 0xF).toNat]?
  pure (freq >>> (val >>> 4).toNat)

/-- What `MidiKeyToFreq` interpolates: `val1`, `val2` and `fineAdjustShifted`. -/
structure Interpolands where
  val1 : Word
  val2 : Word
  fineAdjustShifted : Word

def keyInterpolands (key fineAdjust : Byte) : Option Interpolands := do
  let (key,fineAdjustShifted) : Byte × Word :=
    if 178 < key then (178,255 <<< 24) else (key,fineAdjust.zeroExtend 32 <<< 24)
  let val1 ← keyFreq key.toNat
  let val2 ← keyFreq (key.toNat+1)
  pure ⟨val1,val2,fineAdjustShifted⟩

def Interpolands.fine (p : Interpolands) : Word :=
  umul3232H32 (p.val2-p.val1) p.fineAdjustShifted

def midiKeyToFreq (freq : Word) (key fineAdjust : Byte) : Option Word := do
  let p ← keyInterpolands key fineAdjust
  pure (umul3232H32 freq (p.val1+p.fine))

end Sampled

section Oscillators

def cgbKeyFreq (key : ℕ) : Option ℤ := do
  let val ← gCgbScaleTable[key]?
  let freq ← gCgbFreqTable[(val &&& 0xF).toNat]?
  pure (freq >>> (val >>> 4).toNat)

/-- The key and the fine part that a tone channel looks up. -/
def cgbKeyRange (key fineAdjust : Byte) : Byte × Byte :=
  if key ≤ 35 then (0,0)
  else if 130 < key-36 then (130,255)
  else (key-36,fineAdjust)

def midiKeyToCgbFreq (chanNum key fineAdjust : Byte) : Option Word :=
  if chanNum = 4 then
    let key := if key ≤ 20 then 0 else if 59 < key-21 then 59 else key-21
    (gNoiseTable[key.toNat]?).map (·.zeroExtend 32)
  else do
    let (key,fineAdjust) := cgbKeyRange key fineAdjust
    let val1 ← cgbKeyFreq key.toNat
    let val2 ← cgbKeyFreq (key.toNat+1)
    pure (BitVec.ofInt 32 (val1+((fineAdjust.toNat*(val2-val1)) >>> (8 : ℕ))+2048))

end Oscillators

section Product

theorem umul3232H32_toNat (a b : Word) :
    (umul3232H32 a b).toNat = a.toNat*b.toNat / 2^32 := by
  have hp : a.toNat*b.toNat < 2^64 := by
    calc a.toNat*b.toNat < 2^32*2^32 := Nat.mul_lt_mul'' a.isLt b.isLt
      _ = 2^64 := by norm_num
  have hd : a.toNat*b.toNat / 2^32 < 2^32 := by omega
  unfold umul3232H32
  rw [BitVec.toNat_setWidth,BitVec.toNat_ushiftRight,BitVec.toNat_mul,BitVec.toNat_setWidth,
    BitVec.toNat_setWidth,Nat.mod_eq_of_lt (by omega : a.toNat < 2^64),
    Nat.mod_eq_of_lt (by omega : b.toNat < 2^64),Nat.mod_eq_of_lt hp,Nat.shiftRight_eq_div_pow,
    Nat.mod_eq_of_lt hd]

theorem umul3232H32_mono (a : Word) {b c : Word} (h : b ≤ c) :
    umul3232H32 a b ≤ umul3232H32 a c := by
  rw [BitVec.le_def,umul3232H32_toNat,umul3232H32_toNat]
  exact Nat.div_le_div_right (Nat.mul_le_mul_left _ h)

end Product

section SampledPitch

/-- The entry and the fraction at which a key and its fine part fall. -/
def keyPosition (key fineAdjust : Byte) : ℕ × ℕ :=
  if 178 < key then (178,255) else (key.toNat,fineAdjust.toNat)

def keyValue (key : ℕ) : ℤ := ((keyFreq key).getD 0).toNat

theorem keyFreq_isSome : ∀ key < 180, (keyFreq key).isSome := by decide +kernel

theorem keyValue_step : ∀ key < 179, keyValue key ≤ keyValue (key+1) := by decide +kernel

theorem keyFreq_some {key : ℕ} (h : key < 180) :
    ∃ v, keyFreq key = some v ∧ (v.toNat : ℤ) = keyValue key := by
  obtain ⟨v,hv⟩ := Option.isSome_iff_exists.mp (keyFreq_isSome key h)
  exact ⟨v,hv,by simp [keyValue,hv]⟩

theorem keyPosition_fst_lt (key fineAdjust : Byte) : (keyPosition key fineAdjust).1 < 179 := by
  unfold keyPosition
  split
  · simp
  · rename_i h
    rw [BitVec.lt_def,show (178 : Byte).toNat = 178 from rfl] at h
    exact Nat.lt_succ_of_le (not_lt.mp h)

theorem keyPosition_snd_lt (key fineAdjust : Byte) : (keyPosition key fineAdjust).2 < 256 := by
  have hf := fineAdjust.isLt
  unfold keyPosition
  split <;> simp [hf]

/-- Bytes in the lexicographic order of key and fine part. -/
def PitchLE (key fineAdjust key' fineAdjust' : Byte) : Prop :=
  key < key' ∨ key = key' ∧ fineAdjust ≤ fineAdjust'

theorem keyPosition_mono {key fineAdjust key' fineAdjust' : Byte}
    (h : PitchLE key fineAdjust key' fineAdjust') :
    let p := keyPosition key fineAdjust
    let q := keyPosition key' fineAdjust'
    p.1 < q.1 ∨ p.1 = q.1 ∧ (p.2 : ℤ) ≤ q.2 := by
  have hf := fineAdjust.isLt
  simp only [PitchLE,BitVec.lt_def,BitVec.le_def,BitVec.toNat_eq] at h
  simp only [keyPosition,BitVec.lt_def,show (178 : Byte).toNat = 178 from rfl]
  split <;> split <;> dsimp only <;> omega

theorem keyInterpolands_some (key fineAdjust : Byte) :
    ∃ p, keyInterpolands key fineAdjust = some p ∧
      (p.val1.toNat : ℤ) = keyValue (keyPosition key fineAdjust).1 ∧
      (p.val2.toNat : ℤ) = keyValue ((keyPosition key fineAdjust).1+1) ∧
      p.fineAdjustShifted.toNat = (keyPosition key fineAdjust).2*2^24 := by
  have hk := keyPosition_fst_lt key fineAdjust
  obtain ⟨v,hv,hv'⟩ := keyFreq_some (by omega : (keyPosition key fineAdjust).1 < 180)
  obtain ⟨w,hw,hw'⟩ := keyFreq_some (by omega : (keyPosition key fineAdjust).1+1 < 180)
  have hf := fineAdjust.isLt
  unfold keyPosition at *
  unfold keyInterpolands
  split at hv
  · rename_i h
    simp only [h,if_true] at hv hv' hw hw' ⊢
    exact ⟨⟨v,w,255 <<< 24⟩,by simp [hv,hw],hv',hw',rfl⟩
  · rename_i h
    simp only [h,if_false] at hv hv' hw hw' ⊢
    refine ⟨⟨v,w,fineAdjust.zeroExtend 32 <<< 24⟩,by simp [hv,hw],hv',hw',?_⟩
    simp [Nat.shiftLeft_eq]
    omega

theorem Interpolands.sum_eq (p : Interpolands) {f : ℕ} (h : p.val1 ≤ p.val2)
    (hf : p.fineAdjustShifted.toNat = f*2^24) :
    (p.val1.toNat+p.fine.toNat : ℤ) =
      Interpolation.between 256 p.val1.toNat p.val2.toNat f := by
  have hfine : p.fine.toNat = f*(p.val2.toNat-p.val1.toNat) / 256 := by
    rw [fine,umul3232H32_toNat,BitVec.toNat_sub_of_le h,hf]
    have hc : (p.val2.toNat-p.val1.toNat)*(f*2^24) =
        f*(p.val2.toNat-p.val1.toNat)*2^24 := by ring
    rw [hc,show (2 : ℕ)^32 = 256*2^24 by norm_num,Nat.mul_div_mul_right _ _ (by norm_num)]
  have hs : ((p.val2.toNat-p.val1.toNat : ℕ) : ℤ) = p.val2.toNat-p.val1.toNat := by
    rw [BitVec.le_def] at h
    omega
  rw [hfine,Interpolation.between]
  push_cast [hs]
  rfl

/-- The tables are read inside their bounds, the difference does not underflow and the sum of
base and fine part does not overflow. -/
theorem keyInterpolands_bounds (key fineAdjust : Byte) :
    ∃ p, keyInterpolands key fineAdjust = some p ∧ p.val1 ≤ p.val2 ∧
      p.val1.toNat+p.fine.toNat < 2^32 ∧
      (p.val1.toNat+p.fine.toNat : ℤ) = Interpolation.between 256
        (keyValue (keyPosition key fineAdjust).1) (keyValue ((keyPosition key fineAdjust).1+1))
        (keyPosition key fineAdjust).2 := by
  obtain ⟨p,hp,h1,h2,hf⟩ := keyInterpolands_some key fineAdjust
  have hs := keyValue_step _ (keyPosition_fst_lt key fineAdjust)
  have hle : p.val1 ≤ p.val2 := by
    rw [BitVec.le_def]
    omega
  have hsum := p.sum_eq hle hf
  have hub := Interpolation.between_le (by norm_num : (0 : ℤ) < 256)
    (by omega : (p.val1.toNat : ℤ) ≤ p.val2.toNat)
    (by have := keyPosition_snd_lt key fineAdjust; omega :
      ((keyPosition key fineAdjust).2 : ℤ) ≤ 256)
  have hlt := p.val2.isLt
  refine ⟨p,hp,hle,by omega,?_⟩
  rw [hsum,h1,h2]

theorem midiKeyToFreq_mono (freq : Word) {key fineAdjust key' fineAdjust' : Byte}
    (h : PitchLE key fineAdjust key' fineAdjust') :
    ∃ a b, midiKeyToFreq freq key fineAdjust = some a ∧
      midiKeyToFreq freq key' fineAdjust' = some b ∧ a ≤ b := by
  obtain ⟨p,hp,-,hp',hps⟩ := keyInterpolands_bounds key fineAdjust
  obtain ⟨q,hq,-,hq',hqs⟩ := keyInterpolands_bounds key' fineAdjust'
  have hm := Interpolation.lex_mono keyValue_step (by norm_num : (0 : ℤ) < 256)
    (keyPosition_fst_lt key fineAdjust) (keyPosition_fst_lt key' fineAdjust')
    (by have := keyPosition_snd_lt key fineAdjust; omega) (by omega)
    (keyPosition_mono h)
  have hle : p.val1+p.fine ≤ q.val1+q.fine := by
    rw [BitVec.le_def,BitVec.toNat_add_of_lt hp',BitVec.toNat_add_of_lt hq']
    omega
  exact ⟨_,_,by simp [midiKeyToFreq,hp],by simp [midiKeyToFreq,hq],umul3232H32_mono freq hle⟩

end SampledPitch

section TonePitch

def cgbKeyValue (key : ℕ) : ℤ := (cgbKeyFreq key).getD 0

theorem cgbKeyFreq_some : ∀ key < 132, cgbKeyFreq key = some (cgbKeyValue key) := by
  decide +kernel

theorem cgbKeyValue_step : ∀ key < 131, cgbKeyValue key ≤ cgbKeyValue (key+1) := by
  decide +kernel

theorem cgbKeyRange_toNat (key fineAdjust : Byte) :
    let p := cgbKeyRange key fineAdjust
    (p.1.toNat,p.2.toNat) =
      if key.toNat ≤ 35 then (0,0) else if 166 < key.toNat then (130,255)
      else (key.toNat-36,fineAdjust.toNat) := by
  have hlow : key ≤ 35 ↔ key.toNat ≤ 35 := Iff.rfl
  have hhigh : 130 < key-36 ↔ 130 < (key-36).toNat := Iff.rfl
  dsimp only
  by_cases h : key.toNat ≤ 35
  · rw [cgbKeyRange,if_pos (hlow.mpr h),if_pos h]
    rfl
  have hsub : (key-36).toNat = key.toNat-36 :=
    BitVec.toNat_sub_of_le (by rw [BitVec.le_def,show (36 : Byte).toNat = 36 from rfl]; omega)
  by_cases h' : 166 < key.toNat
  · rw [cgbKeyRange,if_neg (hlow.not.mpr h),if_pos (hhigh.mpr (by omega)),if_neg h,if_pos h']
    rfl
  · rw [cgbKeyRange,if_neg (hlow.not.mpr h),if_neg (hhigh.not.mpr (by omega)),if_neg h,if_neg h']
    simp only [hsub]

theorem cgbKeyRange_lt (key fineAdjust : Byte) : (cgbKeyRange key fineAdjust).1.toNat < 131 := by
  have h := cgbKeyRange_toNat key fineAdjust
  dsimp only at h
  split at h
  · simp_all
  · split at h
    · simp_all
    · rw [Prod.mk.injEq] at h
      omega

theorem cgbKeyRange_mono {key fineAdjust key' fineAdjust' : Byte}
    (h : PitchLE key fineAdjust key' fineAdjust') :
    let p := cgbKeyRange key fineAdjust
    let q := cgbKeyRange key' fineAdjust'
    p.1.toNat < q.1.toNat ∨ p.1.toNat = q.1.toNat ∧ (p.2.toNat : ℤ) ≤ q.2.toNat := by
  have hp := cgbKeyRange_toNat key fineAdjust
  have hq := cgbKeyRange_toNat key' fineAdjust'
  have hf := fineAdjust.isLt
  simp only [PitchLE,BitVec.lt_def,BitVec.le_def,BitVec.toNat_eq] at h
  dsimp only at *
  split at hp <;> split at hq <;> (try split at hp) <;> (try split at hq) <;>
    rw [Prod.mk.injEq] at hp hq <;> omega

/-- The value of a tone channel as the interpolation in its table. -/
def cgbPitch (key fineAdjust : Byte) : ℤ :=
  let p := cgbKeyRange key fineAdjust
  Interpolation.between 256 (cgbKeyValue p.1.toNat) (cgbKeyValue (p.1.toNat+1)) p.2.toNat

theorem midiKeyToCgbFreq_eq {chanNum : Byte} (hc : chanNum ≠ 4) (key fineAdjust : Byte) :
    midiKeyToCgbFreq chanNum key fineAdjust =
      some (BitVec.ofInt 32 (cgbPitch key fineAdjust+2048)) := by
  have hk := cgbKeyRange_lt key fineAdjust
  have h1 := cgbKeyFreq_some _ (by omega : (cgbKeyRange key fineAdjust).1.toNat < 132)
  have h2 := cgbKeyFreq_some _ (by omega : (cgbKeyRange key fineAdjust).1.toNat+1 < 132)
  rw [midiKeyToCgbFreq,if_neg hc]
  simp [h1,h2,cgbPitch,Interpolation.between,Int.shiftRight_eq_div_pow]

theorem cgbPitch_bounds (key fineAdjust : Byte) :
    -2048 ≤ cgbPitch key fineAdjust ∧ cgbPitch key fineAdjust ≤ -1 := by
  have hk := cgbKeyRange_lt key fineAdjust
  have hs := cgbKeyValue_step _ hk
  have h0 := Interpolation.entry_mono cgbKeyValue_step (Nat.zero_le _) hk.le
  have h1 := Interpolation.entry_mono cgbKeyValue_step (by omega :
    (cgbKeyRange key fineAdjust).1.toNat+1 ≤ 131) le_rfl
  have hl := Interpolation.le_between (by norm_num : (0 : ℤ) < 256) hs
    (by omega : (0 : ℤ) ≤ (cgbKeyRange key fineAdjust).2.toNat)
  have hu := Interpolation.between_le (by norm_num : (0 : ℤ) < 256) hs
    (by have := (cgbKeyRange key fineAdjust).2.isLt; omega :
      ((cgbKeyRange key fineAdjust).2.toNat : ℤ) ≤ 256)
  have hlow : cgbKeyValue 0 = -2004 := by decide +kernel
  have hhigh : cgbKeyValue 131 = -2 := by decide +kernel
  simp only [cgbPitch]
  omega

theorem cgbPitch_mono {key fineAdjust key' fineAdjust' : Byte}
    (h : PitchLE key fineAdjust key' fineAdjust') :
    cgbPitch key fineAdjust ≤ cgbPitch key' fineAdjust' :=
  Interpolation.lex_mono cgbKeyValue_step (by norm_num) (cgbKeyRange_lt _ _) (cgbKeyRange_lt _ _)
    (by have := (cgbKeyRange key fineAdjust).2.isLt; omega) (by omega) (cgbKeyRange_mono h)

theorem midiKeyToCgbFreq_mono {chanNum : Byte} (hc : chanNum ≠ 4)
    {key fineAdjust key' fineAdjust' : Byte} (h : PitchLE key fineAdjust key' fineAdjust') :
    ∃ a b, midiKeyToCgbFreq chanNum key fineAdjust = some a ∧
      midiKeyToCgbFreq chanNum key' fineAdjust' = some b ∧ a ≤ b ∧ b ≤ 2047 := by
  have hp := cgbPitch_bounds key fineAdjust
  have hq := cgbPitch_bounds key' fineAdjust'
  have hm := cgbPitch_mono h
  refine ⟨_,_,midiKeyToCgbFreq_eq hc _ _,midiKeyToCgbFreq_eq hc _ _,?_,?_⟩ <;>
    simp only [BitVec.le_def,BitVec.toNat_ofInt,show (2047 : Word).toNat = 2047 from rfl] <;>
    omega

end TonePitch

/-- Both key tables give frequencies that rise with key and fine part. -/
theorem midi_key_monotone :
    (∀ key fineAdjust, ∃ p, keyInterpolands key fineAdjust = some p ∧ p.val1 ≤ p.val2 ∧
      p.val1.toNat+p.fine.toNat < 2^32) ∧
    (∀ freq key fineAdjust key' fineAdjust', PitchLE key fineAdjust key' fineAdjust' →
      ∃ a b, midiKeyToFreq freq key fineAdjust = some a ∧
        midiKeyToFreq freq key' fineAdjust' = some b ∧ a ≤ b) ∧
    ∀ chanNum key fineAdjust key' fineAdjust', chanNum ≠ 4 →
      PitchLE key fineAdjust key' fineAdjust' →
      ∃ a b, midiKeyToCgbFreq chanNum key fineAdjust = some a ∧
        midiKeyToCgbFreq chanNum key' fineAdjust' = some b ∧ a ≤ b ∧ b ≤ 2047 := by
  refine ⟨fun key fineAdjust => ?_,fun freq _ _ _ _ h => midiKeyToFreq_mono freq h,
    fun _ _ _ _ _ hc h => midiKeyToCgbFreq_mono hc h⟩
  obtain ⟨p,hp,hle,hlt,_⟩ := keyInterpolands_bounds key fineAdjust
  exact ⟨p,hp,hle,hlt⟩

/-- Across an octave border, and above the last key of the table. -/
theorem midi_key_monotone_border :
    (∃ a b, midiKeyToFreq 0x3E800000 11 255 = some a ∧ midiKeyToFreq 0x3E800000 12 0 = some b ∧
      a ≤ b) ∧
    ∃ a b, midiKeyToCgbFreq 1 166 3 = some a ∧ midiKeyToCgbFreq 1 200 0 = some b ∧
      a ≤ b ∧ b ≤ 2047 :=
  ⟨midi_key_monotone.2.1 _ _ _ _ _ (.inl (by decide)),
    midi_key_monotone.2.2 _ _ _ _ _ (by decide) (.inl (by decide))⟩

end M4a
end AgbTools
