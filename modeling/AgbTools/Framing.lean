import Mathlib.Data.BitVec
import Mathlib.Data.List.Basic
import Mathlib.Tactic.Common
import Mathlib.Tactic.Ring
import AgbTools.CellMemory

/-! Little-endian words, and streams of records that are read back one after another out of
an announced length. -/
namespace AgbTools
namespace Framing

section LittleEndian

/-- The lowest `k` bytes of `w`, least significant first. -/
def toBytes : ℕ → ℕ → List (BitVec 8)
  | 0, _ => []
  | k+1, w => BitVec.ofNat 8 w :: toBytes k (w/256)

def ofBytes : List (BitVec 8) → ℕ
  | [] => 0
  | b::bs => b.toNat + 256*ofBytes bs

@[simp] theorem length_toBytes (k w : ℕ) : (toBytes k w).length = k := by
  induction k generalizing w with
  | zero => rfl
  | succ k ih => simp [toBytes,ih]

theorem ofBytes_toBytes (k w : ℕ) : ofBytes (toBytes k w) = w % 256^k := by
  induction k generalizing w with
  | zero => simp [toBytes,ofBytes,Nat.mod_one]
  | succ k ih =>
    have hpow : 256^(k+1) = 256*256^k := by rw [Nat.pow_succ,Nat.mul_comm]
    rw [toBytes,ofBytes,ih,BitVec.toNat_ofNat,hpow,Nat.mod_mul]

theorem toBytes_ofBytes (bs : List (BitVec 8)) : toBytes bs.length (ofBytes bs) = bs := by
  induction bs with
  | nil => rfl
  | cons b bs ih =>
    have hb := b.isLt
    have hhead : BitVec.ofNat 8 (b.toNat + 256*ofBytes bs) = b := by
      apply BitVec.eq_of_toNat_eq
      rw [BitVec.toNat_ofNat]
      omega
    have htail : (b.toNat + 256*ofBytes bs)/256 = ofBytes bs := by omega
    rw [List.length_cons,ofBytes,toBytes,hhead,htail,ih]

theorem ofBytes_lt (bs : List (BitVec 8)) : ofBytes bs < 256^bs.length := by
  have hmod := ofBytes_toBytes bs.length (ofBytes bs)
  rw [toBytes_ofBytes] at hmod
  rw [hmod]
  exact Nat.mod_lt _ (Nat.pow_pos (by decide))

end LittleEndian

section Records
variable {α β : Type*} {decode : (ℕ → β) → ℕ → ℕ → ℕ × Option α}

/-- What a reader has done: the records, the position behind them and what is left of the
announced length, negative when the last record overran it. -/
structure Reading (α : Type*) where
  records : List α
  position : ℕ
  left : ℤ

/-- Read records at `a` while `left` is positive. -/
def readRecords (decode : (ℕ → β) → ℕ → ℕ → ℕ × Option α) (buf : ℕ → β) :
    ℕ → ℕ → ℤ → Reading α
  | 0, a, left => ⟨[],a,left⟩
  | fuel+1, a, left =>
    if left ≤ 0 then ⟨[],a,left⟩
    else
      let d := decode buf a left.toNat
      let rest := readRecords decode buf fuel (a+d.1) (left-d.1)
      { rest with records := d.2.toList ++ rest.records }

theorem readRecords_done (buf : ℕ → β) (fuel a : ℕ) :
    readRecords decode buf fuel a 0 = ⟨[],a,0⟩ := by
  cases fuel <;> simp [readRecords]

/-- The reader comes to the end of the announced length: every record takes some of it. -/
theorem readRecords_left_le (hpos : ∀ buf a len, 0 < len → 0 < (decode buf a len).1)
    (buf : ℕ → β) (fuel a : ℕ) {left : ℤ} (h : left ≤ fuel) :
    (readRecords decode buf fuel a left).left ≤ 0 := by
  induction fuel generalizing a left with
  | zero => simpa [readRecords] using h
  | succ fuel ih =>
    rw [readRecords]
    split_ifs with hdone
    · exact hdone
    · have hused := hpos buf a left.toNat (by omega)
      exact ih (a + (decode buf a left.toNat).1) (by push_cast at h; omega)

/-- `decode` reads `x` back from wherever its code stands and from nothing behind it. -/
def ReadsBack (decode : (ℕ → β) → ℕ → ℕ → ℕ × Option α) (encode : α → List β) (x : α) : Prop :=
  0 < (encode x).length ∧ ∀ buf a len, CellMemory.read buf a (encode x).length = encode x →
    (encode x).length ≤ len → decode buf a len = ((encode x).length,some x)

theorem read_append {buf : ℕ → β} {a : ℕ} {xs ys : List β} :
    CellMemory.read buf a (xs++ys).length = xs++ys ↔
      CellMemory.read buf a xs.length = xs ∧
        CellMemory.read buf (a+xs.length) ys.length = ys := by
  have h : CellMemory.read buf a (xs++ys).length =
      CellMemory.read buf a xs.length ++ CellMemory.read buf (a+xs.length) ys.length := by
    simp [CellMemory.read,List.range_add,Function.comp_def,Nat.add_assoc]
  rw [h]
  constructor
  · intro heq
    exact List.append_inj heq (by simp)
  · rintro ⟨hx,hy⟩
    rw [hx,hy]

/-- A stream of records is read back record by record, to the end of its length. -/
theorem readRecords_flatMap {encode : α → List β} {buf : ℕ → β} {xs : List α}
    (hx : ∀ x ∈ xs, ReadsBack decode encode x) :
    ∀ {a fuel : ℕ}, (xs.flatMap encode).length ≤ fuel →
      CellMemory.read buf a (xs.flatMap encode).length = xs.flatMap encode →
      readRecords decode buf fuel a (xs.flatMap encode).length =
        ⟨xs,a+(xs.flatMap encode).length,0⟩ := by
  induction xs with
  | nil =>
    intro a fuel _ _
    simpa using readRecords_done buf fuel a
  | cons x xs ih =>
    intro a fuel hfuel hread
    obtain ⟨hpos,hback⟩ := hx x List.mem_cons_self
    rw [List.flatMap_cons] at hfuel hread ⊢
    obtain ⟨hhead,htail⟩ := read_append.mp hread
    rw [List.length_append] at hfuel ⊢
    obtain ⟨fuel,rfl⟩ : ∃ f, fuel = f+1 := ⟨fuel-1,by omega⟩
    have hd := hback buf a ((encode x).length + (xs.flatMap encode).length) hhead (by omega)
    have henough : (xs.flatMap encode).length ≤ fuel := by omega
    have hrest := ih (fun y hy => hx y (List.mem_cons_of_mem x hy)) henough htail
    have hnot : ¬ (((encode x).length + (xs.flatMap encode).length : ℕ) : ℤ) ≤ 0 := by omega
    have hsub : (((encode x).length + (xs.flatMap encode).length : ℕ) : ℤ) - (encode x).length =
        ((xs.flatMap encode).length : ℕ) := by omega
    simp only [readRecords,if_neg hnot,Int.toNat_natCast,hd,hsub,hrest]
    simp [Nat.add_assoc]

end Records

end Framing
end AgbTools
