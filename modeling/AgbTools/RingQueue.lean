import AgbTools.WordArray

/-! Queues in a ring of cells. What is waiting stands from `get` on and ends before `put`; both are
indices of a fixed width, which wrap around. -/
namespace AgbTools
namespace RingQueue

open WordArray

variable {w : ℕ} {α : Type*} {mem mem' : BitVec w → α} {get put : BitVec w} {xs : List α} {x : α}
  {i j n : ℕ}

/-- The first `n` cells from `get` on. -/
def cells (mem : BitVec w → α) (get : BitVec w) (n : ℕ) : List α :=
  (List.range n).map fun i => mem (slot 1 get i)

structure Queue (mem : BitVec w → α) (get put : BitVec w) (xs : List α) : Prop where
  held : Holds 1 get mem xs
  put : put = slot 1 get xs.length
  room : xs.length < 2^w

theorem slot_one (get : BitVec w) (i : ℕ) : slot 1 get i = get+BitVec.ofNat w i := by
  simp [slot]

theorem slot_one_slot (get : BitVec w) (i j : ℕ) : slot 1 (slot 1 get i) j = slot 1 get (i+j) := by
  simp [slot_one,BitVec.ofNat_add,BitVec.add_assoc]

theorem slot_one_succ (get : BitVec w) (i : ℕ) : slot 1 get (i+1) = slot 1 get i+1 := by
  simp [slot_one,BitVec.ofNat_add,BitVec.add_assoc]

theorem queue_nil (mem : BitVec w → α) (get : BitVec w) : Queue mem get get [] where
  held := holds_nil 1 get mem
  put := (slot_zero ..).symm
  room := Nat.two_pow_pos w

theorem Queue.length_eq (h : Queue mem get put xs) : (put-get).toNat = xs.length := by
  rw [h.put,slot_one,BitVec.add_comm,BitVec.add_sub_cancel,BitVec.toNat_ofNat,
    Nat.mod_eq_of_lt h.room]

theorem Queue.eq_iff (h : Queue mem get put xs) : put = get ↔ xs = [] := by
  constructor
  · rintro rfl
    have hlength := h.length_eq
    simp at hlength
    exact List.eq_nil_of_length_eq_zero hlength.symm
  · rintro rfl
    simpa [slot_zero] using h.put

/-- One more would make the indices meet. -/
theorem Queue.full_iff (h : Queue mem get put xs) : put = get-1 ↔ xs.length+1 = 2^w := by
  have hroom := h.room
  have hput : put+1 = slot 1 get (xs.length+1) := by rw [slot_one_succ,← h.put]
  have hmeet : put = get-1 ↔ put+1 = get := by
    constructor
    · rintro rfl
      simp
    · rintro rfl
      simp
  rw [hmeet,hput]
  constructor
  · intro hget
    by_contra hne
    have hlt : xs.length+1 < 2^w := by omega
    have hpos : 1*0 < 2^w := Nat.two_pow_pos w
    have hzero := slot_injective (k := 1) Nat.one_pos (by omega) hpos
      (hget.trans (slot_zero 1 get).symm)
    omega
  · intro hfull
    have hzero : BitVec.ofNat w (2^w) = 0 := by
      apply BitVec.eq_of_toNat_eq
      rw [BitVec.toNat_ofNat,Nat.mod_self]
      rfl
    rw [hfull,slot_one,hzero]
    simp

/-- The cells behind the waiting ones are none of them, up to the whole ring. -/
theorem Queue.apart (h : Queue mem get put xs) (hi : xs.length+i < 2^w) (hj : j < xs.length) :
    slot 1 get j ≠ slot 1 put i := by
  rw [h.put,slot_one_slot]
  intro heq
  have hsame := slot_injective Nat.one_pos (by omega) (by omega) heq
  omega

/-- What is written behind the waiting cells waits too. -/
theorem Queue.push (h : Queue mem get put xs) (hroom : xs.length+1 < 2^w) (hx : mem' put = x)
    (hsame : ∀ j < xs.length, mem' (slot 1 get j) = mem (slot 1 get j)) :
    Queue mem' get (put+1) (xs++[x]) where
  held := by
    intro j hj
    rw [List.length_append,List.length_singleton] at hj
    by_cases hlast : j = xs.length
    · subst hlast
      simp [← h.put,hx]
    · have hlt : j < xs.length := by omega
      rw [hsame j hlt,h.held j hlt,List.getElem_append_left hlt]
  put := by
    rw [List.length_append,List.length_singleton,slot_one_succ,← h.put]
  room := by simpa using hroom

theorem Queue.pop (h : Queue mem get put xs) (n : ℕ) (hn : n ≤ xs.length) :
    Queue mem (slot 1 get n) put (xs.drop n) where
  held := by
    intro j hj
    rw [List.length_drop] at hj
    rw [slot_one_slot,h.held (n+j) (by omega),List.getElem_drop]
  put := by
    rw [slot_one_slot,List.length_drop,Nat.add_sub_cancel' hn]
    exact h.put
  room := by
    have hroom := h.room
    rw [List.length_drop]
    omega

theorem Queue.cells_eq (h : Queue mem get put xs) (hn : n ≤ xs.length) :
    cells mem get n = xs.take n := by
  refine List.ext_getElem (by simp [cells,hn]) fun i hi hi' => ?_
  simp only [cells,List.length_map,List.length_range] at hi
  simp [cells,h.held i (by omega)]

end RingQueue
end AgbTools
