import AgbTools.MultiBoot
import AgbTools.ShiftRegister

/-! The two copies of the checksum loop, register by register, and the bits that it leaves. -/
namespace AgbTools
namespace MultiBoot

open Runs ShiftRegister

section Loops

/-- Where a copy of the loop is. -/
inductive HashLabel
  | loop | skipEor | done
deriving DecidableEq

structure HashRegisters where
  pc : HashLabel
  r2 : Word
  r3 : Word
deriving DecidableEq

/-- From one label of the loop to the next one; `pool` is the register with `pool_HashVal`. -/
def hashNext (pool : Word) (s : HashRegisters) : HashRegisters :=
  match s.pc with
  | .loop =>
    let carry := s.r3.getLsbD 0
    let r3 := s.r3 >>> 1
    { s with r3 := if carry then r3 ^^^ pool else r3, pc := .skipEor }
  | .skipEor =>
    let r2 := s.r2-1
    { s with r2 := r2, pc := if r2 ≠ 0 then .loop else .done }
  | .done => s

def poolHashVal : Word := 0xA1C1

/-- `GameCubeMultiBoot_Hash` up to its loop. -/
def gameCubeMultiBootHash (r1 r3 : Word) : HashRegisters := { pc := .loop, r2 := 0x20, r3 := r3 ^^^ r1 }

/-- `GameCubeMultiBoot_Hash_Loop`: the constant is in `r4`. -/
def hashLoopNext : HashRegisters → HashRegisters :=
  let r4 := poolHashVal
  hashNext r4

/-- `GameCubeMultiBoot_Main` behind the store of a decrypted word. -/
def gameCubeMultiBootMainHash (r1 r3 : Word) : HashRegisters :=
  { pc := .loop, r2 := 0x20, r3 := r3 ^^^ r1 }

/-- `GameCubeMultiBoot_Main_HashLoop`: the constant is in `r7`. -/
def mainHashLoopNext : HashRegisters → HashRegisters :=
  let r7 := poolHashVal
  hashNext r7

variable {pool : Word} {s : HashRegisters}

theorem hashNext_round (hpc : s.pc = .loop) : hashNext pool (hashNext pool s) =
    { pc := if s.r2-1 ≠ 0 then .loop else .done, r2 := s.r2-1, r3 := fold pool s.r3 } := by
  obtain ⟨pc,r2,r3⟩ := s
  obtain rfl : pc = .loop := hpc
  rfl

/-- As many rounds as the counter says. -/
theorem hashNext_rounds (n : ℕ) (hpc : s.pc = .loop) (hr2 : s.r2.toNat = n+1) :
    Reaches (hashNext pool) s fun t => t.pc = .done ∧ t.r3 = (fold pool)^[n+1] s.r3 := by
  induction n generalizing s with
  | zero =>
    have hlast : s.r2-1 = 0 := by bv_omega
    refine Reaches.step (Reaches.step (Reaches.done ?_))
    rw [hashNext_round hpc,hlast]
    exact ⟨rfl,rfl⟩
  | succ n ih =>
    have hmore : s.r2-1 ≠ 0 := by bv_omega
    refine Reaches.step (Reaches.step ?_)
    rw [hashNext_round hpc,if_pos hmore]
    exact ih rfl (show (s.r2-1).toNat = n+1 by bv_omega)

end Loops

section Bits

theorem hashRound_eq : hashRound = fold poolHashVal := rfl

theorem hashLoop_linear : XorLinear hashLoop := by
  unfold hashLoop
  rw [hashRound_eq]
  exact (fold_linear poolHashVal).iterate 32

/-- Sixteen rounds shift the upper half out, and the constant brings none of it back. -/
theorem hashLoop_lt (x : Word) : (hashLoop x).toNat < 2^16 := by
  have hrounds := fold_iterate_lt (p := poolHashVal) (m := 16) (by decide) x.isLt 32
  rwa [← hashRound_eq] at hrounds

/-- A word that fits in a half-word is the one stored there. -/
theorem extend_eq_iff {x : Word} (hx : x.toNat < 2^16) (key : BitVec 16) :
    key.setWidth 32 = x ↔ key = x.setWidth 16 := by
  have hkey := key.isLt
  constructor
  · rintro rfl
    simp
  · rintro rfl
    apply BitVec.eq_of_toNat_eq
    simp
    omega

/-- Packed above a byte of ones, such a word can be read back. -/
theorem packed_toNat {x : Word} (hx : x.toNat < 2^16) : ((x <<< 8)+0xFF).toNat = x.toNat*256+255 := by
  rw [BitVec.toNat_add,BitVec.toNat_shiftLeft,Nat.shiftLeft_eq]
  simp
  omega

theorem unpack {x : Word} (hx : x.toNat < 2^16) :
    ((x <<< 8)+0xFF) >>> 8 = x ∧ ((x <<< 8)+0xFF).setWidth 8 = (0xFF : BitVec 8) := by
  constructor
  · apply BitVec.eq_of_toNat_eq
    rw [BitVec.toNat_ushiftRight,packed_toNat hx,Nat.shiftRight_eq_div_pow]
    omega
  · apply BitVec.eq_of_toNat_eq
    rw [BitVec.toNat_setWidth,packed_toNat hx]
    simp

/-- Both copies of the loop compute the checksum, which is a half-word and linear over exclusive or;
so neither the comparison with the boot key nor the packing for the other side loses a bit of it. -/
theorem hash_bits :
    (∀ r1 r3, Reaches hashLoopNext (gameCubeMultiBootHash r1 r3) fun t =>
      t.pc = .done ∧ t.r3 = hash r1 r3) ∧
    (∀ r1 r3, Reaches mainHashLoopNext (gameCubeMultiBootMainHash r1 r3) fun t =>
      t.pc = .done ∧ t.r3 = hash r1 r3) ∧
    (∀ x, (hashLoop x).toNat < 2^16) ∧
    (∀ x y, hashLoop (x ^^^ y) = hashLoop x ^^^ hashLoop y) ∧
    (∀ r1 r3 (bootKey : BitVec 16), bootKey.setWidth 32 = hash r1 r3 ↔
      bootKey = (hash r1 r3).setWidth 16) ∧
    ∀ s : Machine, (generateKeyC s).keyCDerivation >>> 8 = hash (generateKeyC s).keyC s.hashVal ∧
      (generateKeyC s).keyCDerivation.setWidth 8 = (0xFF : BitVec 8) := by
  have hcopy (r1 r3 : Word) : Reaches (hashNext poolHashVal) ⟨.loop,0x20,r3 ^^^ r1⟩ fun t =>
      t.pc = .done ∧ t.r3 = hash r1 r3 := hashNext_rounds 31 rfl rfl
  exact ⟨hcopy,hcopy,hashLoop_lt,hashLoop_linear,fun r1 r3 => extend_eq_iff (hashLoop_lt _),
    fun s => unpack (hashLoop_lt _)⟩

end Bits

end MultiBoot
end AgbTools
