import AgbTools.M4aCgb

/-! The volumes that `TrkVolPitSet` stores in bytes, and when these bytes hold the whole
product. -/
namespace AgbTools
namespace M4a
namespace Cgb

/-- The words whose low bytes are stored as `volMR` and `volML`. -/
def TrackVolume.wordMR (t : TrackVolume) : Word :=
  (BitVec.ofInt 32 (t.side+128)*t.level) >>> 8

def TrackVolume.wordML (t : TrackVolume) : Word :=
  (BitVec.ofInt 32 (127-t.side)*t.level) >>> 8

def TrackVolume.withVol (t : TrackVolume) (v : Byte) (h : v ≤ t.vol) : TrackVolume :=
  { t with vol := v, vol_le := BitVec.le_trans h t.vol_le }

/-- The products that `ChnVolSetAsm` limits to 255. -/
def rightProduct (t : TrackVolume) (c : CgbChannel) : ℤ :=
  (128+c.rp.toInt)*c.ve.toNat*t.volMR.toNat / 2^14

def leftProduct (t : TrackVolume) (c : CgbChannel) : ℤ :=
  (127-c.rp.toInt)*c.ve.toNat*t.volML.toNat / 2^14

/-- The volumes of a track do not wrap: no byte is truncated, the two sides share 255 without
volume modulation, and the channel volumes are limited products that rise with the volume of the
track and with the velocity. -/
structure Unwrapped (t : TrackVolume) : Prop where
  right : t.volMR.zeroExtend 32 = t.wordMR
  left : t.volML.zeroExtend 32 = t.wordML
  sum : t.modT ≠ 1 → t.volMR.toNat+t.volML.toNat ≤ 255
  channel : ∀ c : CgbChannel, c.ve ≤ 127 →
    0 ≤ rightProduct t c ∧ 0 ≤ leftProduct t c ∧
    ((chnVolSetAsm t c).rightVolume.toNat : ℤ) = min 255 (rightProduct t c) ∧
    ((chnVolSetAsm t c).leftVolume.toNat : ℤ) = min 255 (leftProduct t c)
  mono : ∀ v (h : v ≤ t.vol) (c : CgbChannel) ve, ve ≤ c.ve → c.ve ≤ 127 →
    (chnVolSetAsm (t.withVol v h) { c with ve := ve }).rightVolume ≤
      (chnVolSetAsm t c).rightVolume ∧
    (chnVolSetAsm (t.withVol v h) { c with ve := ve }).leftVolume ≤
      (chnVolSetAsm t c).leftVolume

/-- The modulated volume times the larger of the two pan factors stays below 2^16. -/
def TrackVolume.InRange (t : TrackVolume) : Prop :=
  t.modT = 1 →
    let x : ℤ := t.vol.toNat*t.volX.toNat / 32*(t.modM.toInt+128) / 128
    let y := max (-128) (min 127 (2*t.pan.toInt+t.panX.toInt))
    x*max (y+128) (127-y) < 2^16

section Level

/-- The level as an integer. -/
def TrackVolume.levelValue (t : TrackVolume) : ℤ :=
  if t.modT = 1 then t.vol.toNat*t.volX.toNat / 32*(t.modM.toInt+128) / 128
  else t.vol.toNat*t.volX.toNat / 32

theorem modFactor_toNat : ∀ b : Byte, ((b.signExtend 32+128).toNat : ℤ) = b.toInt+128 := by
  decide +kernel

theorem TrackVolume.vol_bound (t : TrackVolume) : t.vol.toNat ≤ 127 := t.vol_le

theorem TrackVolume.product_le (t : TrackVolume) : t.vol.toNat*t.volX.toNat ≤ 127*255 :=
  Nat.mul_le_mul t.vol_bound (by omega)

theorem TrackVolume.base_toNat (t : TrackVolume) :
    ((t.vol.zeroExtend 32*t.volX.zeroExtend 32) >>> 5).toNat =
      t.vol.toNat*t.volX.toNat / 32 := by
  have hp := t.product_le
  have hv := t.vol.isLt
  have hx := t.volX.isLt
  rw [BitVec.toNat_ushiftRight,BitVec.toNat_mul,BitVec.toNat_setWidth,BitVec.toNat_setWidth,
    Nat.mod_eq_of_lt (by omega : t.vol.toNat < 2^32),
    Nat.mod_eq_of_lt (by omega : t.volX.toNat < 2^32),Nat.mod_eq_of_lt (by omega),
    Nat.shiftRight_eq_div_pow]

theorem TrackVolume.modulated_bounds (t : TrackVolume) :
    0 ≤ (t.vol.toNat*t.volX.toNat / 32 : ℤ)*(t.modM.toInt+128) ∧
      (t.vol.toNat*t.volX.toNat / 32 : ℤ)*(t.modM.toInt+128) ≤ 1012*255 := by
  have hm := byte_toInt t.modM
  have hp : (t.vol.toNat*t.volX.toNat : ℤ) ≤ 127*255 := by exact_mod_cast t.product_le
  have h0 : (0 : ℤ) ≤ t.vol.toNat*t.volX.toNat := by positivity
  have hb0 : (0 : ℤ) ≤ t.vol.toNat*t.volX.toNat / 32 := by omega
  have hb1 : (t.vol.toNat*t.volX.toNat / 32 : ℤ) ≤ 1012 := by omega
  exact ⟨mul_nonneg hb0 (by omega),mul_le_mul hb1 (by omega) (by omega) (by norm_num)⟩

theorem TrackVolume.level_toNat (t : TrackVolume) : (t.level.toNat : ℤ) = t.levelValue := by
  have hm := t.modulated_bounds
  unfold level levelValue
  split
  · have hprod : ((t.vol.toNat*t.volX.toNat / 32*(t.modM.signExtend 32+128).toNat : ℕ) : ℤ) =
        t.vol.toNat*t.volX.toNat / 32*(t.modM.toInt+128) := by
      rw [Nat.cast_mul,modFactor_toNat]
      push_cast
      rfl
    rw [BitVec.toNat_ushiftRight,BitVec.toNat_mul,base_toNat,Nat.mod_eq_of_lt (by omega),
      Nat.shiftRight_eq_div_pow,Int.natCast_ediv,hprod]
    rfl
  · rw [base_toNat]
    rfl

theorem TrackVolume.levelValue_bounds (t : TrackVolume) :
    0 ≤ t.levelValue ∧ t.levelValue ≤ 2016 := by
  have hm := t.modulated_bounds
  have hp : (t.vol.toNat*t.volX.toNat : ℤ) ≤ 127*255 := by exact_mod_cast t.product_le
  have h0 : (0 : ℤ) ≤ t.vol.toNat*t.volX.toNat := by positivity
  unfold levelValue
  split <;> omega

/-- Without volume modulation the level stays below 255. -/
theorem TrackVolume.levelValue_le (t : TrackVolume) (hx : t.volX ≤ 64) (h : t.modT ≠ 1) :
    t.levelValue ≤ 254 := by
  have hp : (t.vol.toNat*t.volX.toNat : ℤ) ≤ 127*64 := by
    exact_mod_cast Nat.mul_le_mul t.vol_bound hx
  rw [levelValue,if_neg h]
  omega

theorem TrackVolume.levelValue_mono (t : TrackVolume) {v : Byte} (h : v ≤ t.vol) :
    (t.withVol v h).levelValue ≤ t.levelValue := by
  have hm := byte_toInt t.modM
  have hp : (v.toNat*t.volX.toNat : ℤ) ≤ t.vol.toNat*t.volX.toNat := by
    exact_mod_cast Nat.mul_le_mul_right _ h
  have hb : (v.toNat*t.volX.toNat / 32 : ℤ) ≤ t.vol.toNat*t.volX.toNat / 32 := by omega
  have hf : 0 ≤ t.modM.toInt+128 := by omega
  by_cases hmod : t.modT = 1
  · rw [levelValue,levelValue,if_pos hmod,if_pos (show (t.withVol v h).modT = 1 from hmod)]
    exact Int.ediv_le_ediv (by norm_num : (0 : ℤ) < 128)
      (mul_le_mul_of_nonneg_right hb hf)
  · rwa [levelValue,levelValue,if_neg hmod,if_neg (show (t.withVol v h).modT ≠ 1 from hmod)]

end Level

section Sides

theorem TrackVolume.side_bounds (t : TrackVolume) : -128 ≤ t.side ∧ t.side ≤ 127 := by
  unfold side
  dsimp only
  split_ifs <;> omega

theorem TrackVolume.side_withVol (t : TrackVolume) {v : Byte} (h : v ≤ t.vol) :
    (t.withVol v h).side = t.side := rfl

/-- Under volume modulation the pan alone decides the side. -/
theorem TrackVolume.side_modulated (t : TrackVolume) (h : t.modT = 1) :
    t.side = max (-128) (min 127 (2*t.pan.toInt+t.panX.toInt)) := by
  have h2 : t.modT ≠ 2 := by rw [h]; decide
  simp only [side,if_neg h2]
  split_ifs <;> omega

theorem TrackVolume.word_toNat (t : TrackVolume) {f : ℤ} (h0 : 0 ≤ f) (h1 : f ≤ 255) :
    (((BitVec.ofInt 32 f*t.level) >>> 8).toNat : ℤ) = f*t.levelValue / 256 := by
  have hl := t.levelValue_bounds
  have hlv := t.level_toNat
  have hp0 : 0 ≤ f*t.levelValue := mul_nonneg h0 hl.1
  have hp1 : f*t.levelValue ≤ 255*2016 := mul_le_mul h1 hl.2 hl.1 (by norm_num)
  have hf : (BitVec.ofInt 32 f).toNat = f.toNat := by
    rw [BitVec.toNat_ofInt]
    omega
  have hprod : ((f.toNat*t.level.toNat : ℕ) : ℤ) = f*t.levelValue := by
    rw [Nat.cast_mul,hlv,Int.toNat_of_nonneg h0]
  rw [BitVec.toNat_ushiftRight,BitVec.toNat_mul,hf,Nat.mod_eq_of_lt (by omega),
    Nat.shiftRight_eq_div_pow,Int.natCast_ediv,hprod]
  rfl

theorem keep_iff (x : Word) : (x.truncate 8).zeroExtend 32 = x ↔ x.toNat < 256 := by
  rw [BitVec.toNat_eq,BitVec.toNat_setWidth,BitVec.toNat_setWidth]
  omega

theorem TrackVolume.wordMR_toNat (t : TrackVolume) :
    (t.wordMR.toNat : ℤ) = (t.side+128)*t.levelValue / 256 :=
  t.word_toNat (by have := t.side_bounds; omega) (by have := t.side_bounds; omega)

theorem TrackVolume.wordML_toNat (t : TrackVolume) :
    (t.wordML.toNat : ℤ) = (127-t.side)*t.levelValue / 256 :=
  t.word_toNat (by have := t.side_bounds; omega) (by have := t.side_bounds; omega)

/-- Both bytes keep their word exactly when both products stay below 2^16. -/
def TrackVolume.Keeps (t : TrackVolume) : Prop :=
  (t.side+128)*t.levelValue < 2^16 ∧ (127-t.side)*t.levelValue < 2^16

theorem TrackVolume.keeps_iff (t : TrackVolume) :
    t.Keeps ↔ t.volMR.zeroExtend 32 = t.wordMR ∧ t.volML.zeroExtend 32 = t.wordML := by
  have hr := t.wordMR_toNat
  have hl := t.wordML_toNat
  change _ ↔ (t.wordMR.truncate 8).zeroExtend 32 = _ ∧ (t.wordML.truncate 8).zeroExtend 32 = _
  rw [keep_iff,keep_iff,Keeps]
  omega

theorem TrackVolume.volMR_toNat {t : TrackVolume} (h : t.Keeps) :
    (t.volMR.toNat : ℤ) = (t.side+128)*t.levelValue / 256 := by
  rw [← t.wordMR_toNat,← (t.keeps_iff.mp h).1,BitVec.toNat_setWidth]
  omega

theorem TrackVolume.volML_toNat {t : TrackVolume} (h : t.Keeps) :
    (t.volML.toNat : ℤ) = (127-t.side)*t.levelValue / 256 := by
  rw [← t.wordML_toNat,← (t.keeps_iff.mp h).2,BitVec.toNat_setWidth]
  omega

theorem TrackVolume.Keeps.withVol {t : TrackVolume} (h : t.Keeps) {v : Byte} (hv : v ≤ t.vol) :
    (t.withVol v hv).Keeps := by
  have hs := t.side_bounds
  have hl := t.levelValue_mono hv
  refine ⟨lt_of_le_of_lt ?_ h.1,lt_of_le_of_lt ?_ h.2⟩ <;> rw [side_withVol] <;>
    exact mul_le_mul_of_nonneg_left hl (by omega)

theorem TrackVolume.volMR_mono {t : TrackVolume} (h : t.Keeps) {v : Byte} (hv : v ≤ t.vol) :
    (t.withVol v hv).volMR.toNat ≤ t.volMR.toNat := by
  have hs := t.side_bounds
  have hp := mul_le_mul_of_nonneg_left (t.levelValue_mono hv) (by omega : 0 ≤ t.side+128)
  have hd := Int.ediv_le_ediv (by norm_num : (0 : ℤ) < 256) hp
  have hr := volMR_toNat h
  have hr' := volMR_toNat (h.withVol hv)
  rw [side_withVol] at *
  omega

theorem TrackVolume.volML_mono {t : TrackVolume} (h : t.Keeps) {v : Byte} (hv : v ≤ t.vol) :
    (t.withVol v hv).volML.toNat ≤ t.volML.toNat := by
  have hs := t.side_bounds
  have hp := mul_le_mul_of_nonneg_left (t.levelValue_mono hv) (by omega : 0 ≤ 127-t.side)
  have hd := Int.ediv_le_ediv (by norm_num : (0 : ℤ) < 256) hp
  have hr := volML_toNat h
  have hr' := volML_toNat (h.withVol hv)
  rw [side_withVol] at *
  omega

end Sides

section Channels

theorem clipVolume_toNat {x : ℤ} (h : 0 ≤ x) : ((clipVolume x).toNat : ℤ) = min 255 x := by
  unfold clipVolume
  split
  · rw [BitVec.toNat_ofInt]
    omega
  · change (255 : ℤ) = _
    omega

/-- The product of a pan factor, a velocity and a volume, shifted right. -/
theorem product_nonneg {f : ℤ} (h : 0 ≤ f) (ve vol : ℕ) : 0 ≤ f*ve*vol / 2^14 := by
  have hp : 0 ≤ f*ve*vol := by positivity
  omega

theorem product_mono {f : ℤ} (h : 0 ≤ f) {ve ve' vol vol' : ℕ} (hve : ve ≤ ve')
    (hvol : vol ≤ vol') : f*ve*vol / 2^14 ≤ f*ve'*vol' / 2^14 := by
  apply Int.ediv_le_ediv (by norm_num)
  gcongr

theorem rightFactor_nonneg (c : CgbChannel) : 0 ≤ 128+c.rp.toInt := by
  have := byte_toInt c.rp
  omega

theorem leftFactor_nonneg (c : CgbChannel) : 0 ≤ 127-c.rp.toInt := by
  have := byte_toInt c.rp
  omega

theorem clipVolume_mono {x y : ℤ} (h : 0 ≤ x) (hxy : x ≤ y) : clipVolume x ≤ clipVolume y := by
  have hx := clipVolume_toNat h
  have hy := clipVolume_toNat (h.trans hxy)
  rw [BitVec.le_def]
  omega

end Channels

/-- Without modulation both products stay in range, with it exactly under the condition. -/
theorem TrackVolume.keeps_iff_inRange (t : TrackVolume) (hx : t.volX ≤ 64) :
    t.Keeps ↔ t.InRange := by
  have hs := t.side_bounds
  have hl := t.levelValue_bounds
  by_cases h : t.modT = 1
  · have hv : t.levelValue = t.vol.toNat*t.volX.toNat / 32*(t.modM.toInt+128) / 128 := if_pos h
    simp only [InRange,h,forall_const,Keeps,← hv,← t.side_modulated h]
    rw [mul_max_of_nonneg _ _ hl.1,max_lt_iff,mul_comm t.levelValue,mul_comm t.levelValue]
  · have hle := t.levelValue_le hx h
    refine iff_of_true ⟨?_,?_⟩ (fun h' => absurd h' h)
    · nlinarith
    · nlinarith

theorem TrackVolume.sum_le {t : TrackVolume} (h : t.Keeps) (hx : t.volX ≤ 64)
    (hm : t.modT ≠ 1) : t.volMR.toNat+t.volML.toNat ≤ 255 := by
  have hle := t.levelValue_le hx hm
  have hr := volMR_toNat h
  have hl := volML_toNat h
  have hsum : (t.side+128)*t.levelValue+(127-t.side)*t.levelValue = 255*t.levelValue := by ring
  omega

theorem Unwrapped.of_keeps {t : TrackVolume} (h : t.Keeps) (hx : t.volX ≤ 64) :
    Unwrapped t where
  right := (t.keeps_iff.mp h).1
  left := (t.keeps_iff.mp h).2
  sum := TrackVolume.sum_le h hx
  channel c _ := by
    have hr := product_nonneg (rightFactor_nonneg c) c.ve.toNat t.volMR.toNat
    have hl := product_nonneg (leftFactor_nonneg c) c.ve.toNat t.volML.toNat
    exact ⟨hr,hl,clipVolume_toNat hr,clipVolume_toNat hl⟩
  mono v hv c ve hve _ := by
    have hr := rightFactor_nonneg c
    have hl := leftFactor_nonneg c
    exact ⟨clipVolume_mono (product_nonneg hr _ _) (product_mono hr hve (t.volMR_mono h hv)),
      clipVolume_mono (product_nonneg hl _ _) (product_mono hl hve (t.volML_mono h hv))⟩

/-- The volumes do not wrap exactly when the modulated volume is in range. -/
theorem volumes_unwrapped (t : TrackVolume) (hx : t.volX ≤ 64) : Unwrapped t ↔ t.InRange := by
  rw [← t.keeps_iff_inRange hx]
  exact ⟨fun h => t.keeps_iff.mpr ⟨h.right,h.left⟩,fun h => .of_keeps h hx⟩

/-- A track at full volume that is panned right and modulated upwards. -/
theorem loud_le : (127 : Byte) ≤ 127 := by decide

def loudTrack (modM : Byte) : TrackVolume := ⟨127,64,1,modM,64,0,loud_le⟩

theorem volumes_unwrapped_loud : Unwrapped (loudTrack 1) ↔ (loudTrack 1).InRange :=
  volumes_unwrapped (loudTrack 1) (by decide)

theorem volumes_wrap : ¬∀ t : TrackVolume, t.volX ≤ 64 → Unwrapped t := by
  intro h
  have hr := (h (loudTrack 127) (by decide)).right
  exact absurd hr (by decide +kernel)

end Cgb
end M4a
end AgbTools
