import Mathlib.Data.List.Basic
import Mathlib.Tactic.Common

/-! Memories as functions on addresses, with stores and loads of whole lists. -/
namespace AgbTools
namespace CellMemory

variable {α : Type*}

/-- Store a list from address `a` on. -/
def write (mem : ℕ → α) (a : ℕ) (xs : List α) : ℕ → α :=
  fun x => if a ≤ x then (xs[x-a]?).getD (mem x) else mem x

/-- Load `n` cells from address `a` on. -/
def read (mem : ℕ → α) (a n : ℕ) : List α := (List.range n).map fun i => mem (a+i)

@[simp] theorem length_read (mem : ℕ → α) (a n : ℕ) : (read mem a n).length = n := by
  simp [read]

@[simp] theorem getElem_read (mem : ℕ → α) (a n i : ℕ) (h : i < (read mem a n).length) :
    (read mem a n)[i] = mem (a+i) := by
  simp [read]

theorem read_eq_iff {mem : ℕ → α} {a n : ℕ} {xs : List α} :
    read mem a n = xs ↔ xs.length = n ∧ ∀ i (h : i < xs.length), mem (a+i) = xs[i] := by
  constructor
  · rintro rfl
    exact ⟨length_read mem a n,fun i h => (getElem_read mem a n i h).symm⟩
  · rintro ⟨hn,h⟩
    refine List.ext_getElem (by simp [hn]) fun i hi hx => ?_
    rw [getElem_read,h i hx]

theorem write_inside (mem : ℕ → α) (a : ℕ) (xs : List α) (i : ℕ) (h : i < xs.length) :
    write mem a xs (a+i) = xs[i] := by
  simp [write,h]

theorem write_outside (mem : ℕ → α) {a x : ℕ} {xs : List α} (h : x < a ∨ a+xs.length ≤ x) :
    write mem a xs x = mem x := by
  unfold write
  split_ifs with ha
  · have hx : xs.length ≤ x-a := by omega
    simp [hx]
  · rfl

@[simp] theorem write_nil (mem : ℕ → α) (a : ℕ) : write mem a [] = mem := by
  funext x
  simp [write]

/-- Storing one more cell behind a stored list. -/
theorem update_write (mem : ℕ → α) (a : ℕ) (xs : List α) (x : α) :
    Function.update (write mem a xs) (a+xs.length) x = write mem a (xs++[x]) := by
  funext y
  by_cases hy : y = a+xs.length
  · subst hy
    simp [write]
  · rw [Function.update_of_ne hy]
    by_cases hin : a ≤ y ∧ y < a+xs.length
    · have hlt : y-a < xs.length := by omega
      simp [write,hin.1,hlt,List.getElem?_append_left]
    · rw [write_outside _ (by omega),write_outside _ (by simp; omega)]

end CellMemory
end AgbTools
