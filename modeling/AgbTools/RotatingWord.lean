import Mathlib.Data.BitVec
import Mathlib.Logic.Function.Basic
import Mathlib.Tactic.Common

/-! Words of four bytes, and a buffer of bytes that is worked on through a register: a word is
loaded, its bytes come to the top one after the other and are changed there, and it is stored. -/
namespace AgbTools
namespace RotatingWord

abbrev Byte := BitVec 8
abbrev Word := BitVec 32

section Bytes

/-- A word from its bytes, the highest first. -/
def ofBytes (b3 b2 b1 b0 : Byte) : Word := b3 ++ b2 ++ b1 ++ b0

theorem getLsbD_ofBytes (b3 b2 b1 b0 : Byte) (i : ℕ) :
    (ofBytes b3 b2 b1 b0).getLsbD i = if i < 8 then b0.getLsbD i else if i < 16 then b1.getLsbD (i-8)
      else if i < 24 then b2.getLsbD (i-16) else b3.getLsbD (i-24) := by
  simp only [ofBytes,BitVec.getLsbD_append]
  split_ifs <;> first | omega | rfl

/-- The byte of a word at a place. -/
def byteAt (w : Word) (k : ℕ) : Byte := (w >>> (8*k)).setWidth 8

theorem byteAt_ofBytes (b3 b2 b1 b0 : Byte) :
    byteAt (ofBytes b3 b2 b1 b0) 0 = b0 ∧ byteAt (ofBytes b3 b2 b1 b0) 1 = b1 ∧
      byteAt (ofBytes b3 b2 b1 b0) 2 = b2 ∧ byteAt (ofBytes b3 b2 b1 b0) 3 = b3 := by
  refine ⟨?_,?_,?_,?_⟩
  all_goals
    apply BitVec.eq_of_getLsbD_eq
    intro i hi
    simp only [byteAt,BitVec.getLsbD_setWidth,BitVec.getLsbD_ushiftRight,getLsbD_ofBytes,hi,
      decide_true,Bool.true_and]
    split_ifs <;> first | omega | (congr 1; omega)

/-- The lowest byte comes to the top. -/
theorem rotateRight_ofBytes (b3 b2 b1 b0 : Byte) :
    (ofBytes b3 b2 b1 b0).rotateRight 8 = ofBytes b0 b3 b2 b1 := by
  apply BitVec.eq_of_getLsbD_eq
  intro i hi
  simp only [BitVec.getLsbD_rotateRight,getLsbD_ofBytes,show 8%32 = 8 from rfl,hi,decide_true,
    Bool.true_and]
  obtain h | h | h | h : i < 8 ∨ 8 ≤ i ∧ i < 16 ∨ 16 ≤ i ∧ i < 24 ∨ 24 ≤ i := by omega
  · simp [h,show i < 24 by omega,show ¬8+i < 8 by omega,show 8+i < 16 by omega]
  · simp [h,show i < 24 by omega,show ¬i < 8 by omega,show ¬8+i < 8 by omega,
      show ¬8+i < 16 by omega,show 8+i < 24 by omega,show 8+i-16 = i-8 by omega]
  · simp [h,show ¬i < 8 by omega,show ¬i < 16 by omega,show ¬8+i < 8 by omega,
      show ¬8+i < 16 by omega,show ¬8+i < 24 by omega,show 8+i-24 = i-16 by omega]
  · simp [show ¬i < 24 by omega,show ¬i < 8 by omega,show ¬i < 16 by omega,
      show i-24 < 8 by omega]

theorem rotateRight_rotateRight (w : Word) {m n : ℕ} (h : m+n < 32) :
    (w.rotateRight m).rotateRight n = w.rotateRight (m+n) := by
  apply BitVec.eq_of_getLsbD_eq
  intro i hi
  simp only [BitVec.getLsbD_rotateRight,Nat.mod_eq_of_lt (show m < 32 by omega),
    Nat.mod_eq_of_lt (show n < 32 by omega),Nat.mod_eq_of_lt h,hi,decide_true,Bool.true_and,
    Bool.cond_decide]
  by_cases h1 : i < 32-n
  · rw [if_pos h1]
    by_cases h2 : n+i < 32-m
    · rw [if_pos h2,if_pos (by omega),Nat.add_assoc]
    · rw [if_neg h2,if_neg (by omega),decide_eq_true (show n+i < 32 by omega),Bool.true_and]
      congr 1
      omega
  · rw [if_neg h1,if_pos (by omega),if_neg (by omega)]
    congr 1
    omega

theorem toNat_ofBytes (b3 b2 b1 b0 : Byte) :
    (ofBytes b3 b2 b1 b0).toNat =
      2^24*b3.toNat + 2^16*b2.toNat + 2^8*b1.toNat + b0.toNat := by
  have h0 := b0.isLt
  have h1 := b1.isLt
  have h2 := b2.isLt
  simp only [ofBytes,BitVec.toNat_append]
  rw [← Nat.shiftLeft_add_eq_or_of_lt h2,← Nat.shiftLeft_add_eq_or_of_lt h1,
    ← Nat.shiftLeft_add_eq_or_of_lt h0]
  simp only [Nat.shiftLeft_eq]
  omega

end Bytes

section Memory

/-- The bytes of a word lie with the lowest first. -/
def loadWord (mem : ℕ → Byte) (a : ℕ) : Word := ofBytes (mem (a+3)) (mem (a+2)) (mem (a+1)) (mem a)

def storeWord (mem : ℕ → Byte) (a : ℕ) (w : Word) (x : ℕ) : Byte :=
  if a ≤ x ∧ x < a+4 then byteAt w (x-a) else mem x

/-- The lowest byte comes to the top, and `d` is added to it. -/
def feed (w : Word) (d : Byte) : Word := d.setWidth 32 <<< 24 + w.rotateRight 8

theorem feed_ofBytes (b3 b2 b1 b0 d : Byte) :
    feed (ofBytes b3 b2 b1 b0) d = ofBytes (b0+d) b3 b2 b1 := by
  rw [feed,rotateRight_ofBytes]
  apply BitVec.eq_of_toNat_eq
  have hd : (d.setWidth 32 <<< 24).toNat = 2^24*d.toNat := by
    have := d.isLt
    rw [BitVec.toNat_shiftLeft,BitVec.toNat_setWidth,Nat.shiftLeft_eq]
    omega
  have h1 := b1.isLt
  have h2 := b2.isLt
  have h3 := b3.isLt
  rw [BitVec.toNat_add,hd,toNat_ofBytes,toNat_ofBytes,BitVec.toNat_add]
  omega

/-- The word at `a` of the buffer `out` is in a register, turned by `k` bytes; the rest of the
buffer is in memory. -/
structure Held (mem out : ℕ → Byte) (a k : ℕ) (w : Word) : Prop where
  word : w = ofBytes (out (a+(3+k)%4)) (out (a+(2+k)%4)) (out (a+(1+k)%4)) (out (a+k%4))
  rest : ∀ x, x < a ∨ a+4 ≤ x → mem x = out x

theorem Held.load (mem : ℕ → Byte) (a : ℕ) : Held mem mem a 0 (loadWord mem a) where
  word := rfl
  rest _ _ := rfl

/-- One byte is worked on. -/
theorem Held.feed {mem out : ℕ → Byte} {a k : ℕ} {w : Word} (h : Held mem out a k w) (hk : k < 4)
    (d : Byte) :
    Held mem (Function.update out (a+k) (out (a+k)+d)) a (k+1) (feed w d) where
  word := by
    rw [h.word,feed_ofBytes,Nat.mod_eq_of_lt hk]
    rw [show (3+(k+1))%4 = k by omega,Function.update_self,Function.update_of_ne (by omega),
      Function.update_of_ne (by omega),Function.update_of_ne (by omega),
      show 2+(k+1) = 3+k by omega,show 1+(k+1) = 2+k by omega,Nat.add_comm k 1]
  rest x hx := by
    rw [Function.update_of_ne (by omega)]
    exact h.rest x hx

/-- Turned all the way, the word is back in order. -/
theorem Held.store {mem out : ℕ → Byte} {a : ℕ} {w : Word} (h : Held mem out a 4 w) :
    storeWord mem a w = out := by
  funext x
  rw [storeWord]
  split_ifs with hx
  · obtain ⟨h0,h1,h2,h3⟩ := byteAt_ofBytes (out (a+3)) (out (a+2)) (out (a+1)) (out a)
    have hword : w = ofBytes (out (a+3)) (out (a+2)) (out (a+1)) (out a) := h.word
    obtain rfl | rfl | rfl | rfl : x = a ∨ x = a+1 ∨ x = a+2 ∨ x = a+3 := by omega
    · rw [hword,Nat.sub_self,h0]
    · rw [hword,Nat.add_sub_cancel_left,h1]
    · rw [hword,Nat.add_sub_cancel_left,h2]
    · rw [hword,Nat.add_sub_cancel_left,h3]
  · exact h.rest x (by omega)

/-- A word that is only partly worked on is turned the rest of the way. -/
theorem Held.turn {mem out : ℕ → Byte} {a k n : ℕ} {w : Word} (h : Held mem out a k w) (hn : n < 4) :
    Held mem out a (k+n) (w.rotateRight (8*n)) := by
  induction n with
  | zero =>
    have hzero : w.rotateRight 0 = w := by
      apply BitVec.eq_of_getLsbD_eq
      intro i hi
      simp [hi]
    rwa [Nat.mul_zero,hzero]
  | succ n ih =>
    have hn := ih (by omega)
    rw [Nat.mul_add_one,← rotateRight_rotateRight w (by omega)]
    refine ⟨?_,hn.rest⟩
    rw [hn.word,rotateRight_ofBytes]
    rw [show (3+(k+(n+1)))%4 = (k+n)%4 by omega,show 2+(k+(n+1)) = 3+(k+n) by omega,
      show 1+(k+(n+1)) = 2+(k+n) by omega,show k+(n+1) = 1+(k+n) by omega]

end Memory

end RotatingWord
end AgbTools
