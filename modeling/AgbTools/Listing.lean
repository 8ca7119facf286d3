import Mathlib.Data.List.Basic
import Mathlib.Tactic.Common

/-! Listings of lines, some of which are labels. Every line comes from the text of a numbered instruction,
and a label belongs to one instruction. -/
namespace AgbTools
namespace Listing

variable {α β L : Type*} [DecidableEq L] {labelOf : α → Option L} {l : L}

/-- What is left of a listing from a label on. -/
def startingAt (labelOf : α → Option L) (l : L) : List α → List α
  | [] => []
  | x::xs => if labelOf x = some l then x::xs else startingAt labelOf l xs

theorem startingAt_append {xs : List α} (ys : List α) (h : ∀ x ∈ xs, labelOf x ≠ some l) :
    startingAt labelOf l (xs++ys) = startingAt labelOf l ys := by
  induction xs with
  | nil => rfl
  | cons x xs ih =>
    simp only [List.forall_mem_cons] at h
    rw [List.cons_append,startingAt,if_neg h.1,ih h.2]

/-- The texts of instructions, one after the other. -/
def textFrom (text : ℕ → β → List α) : ℕ → List β → List α
  | _, [] => []
  | i, x::xs => text i x++textFrom text (i+1) xs

theorem textFrom_append (text : ℕ → β → List α) (i : ℕ) (xs ys : List β) :
    textFrom text i (xs++ys) = textFrom text i xs++textFrom text (i+xs.length) ys := by
  induction xs generalizing i with
  | nil => rfl
  | cons x xs ih => simp [textFrom,ih,Nat.add_assoc,Nat.add_comm 1]

/-- The labels in the text of an instruction belong to it. -/
def Owned (labelOf : α → Option L) (owner : L → ℕ) (text : ℕ → β → List α) : Prop :=
  ∀ i x, ∀ y ∈ text i x, ∀ l, labelOf y = some l → owner l = i

variable {owner : L → ℕ} {text : ℕ → β → List α}

omit [DecidableEq L] in
theorem Owned.unlabelled (h : Owned labelOf owner text) {i : ℕ} {xs : List β}
    (hl : owner l < i ∨ i+xs.length ≤ owner l) : ∀ y ∈ textFrom text i xs, labelOf y ≠ some l := by
  induction xs generalizing i with
  | nil => simp [textFrom]
  | cons x xs ih =>
    intro y hy
    rw [List.length_cons] at hl
    rw [textFrom,List.mem_append] at hy
    obtain hy | hy := hy
    · intro hlabel
      have howner := h i x y hy l hlabel
      omega
    · exact ih (by omega) y hy

/-- What is left of a listing from an instruction on. -/
def rest (text : ℕ → β → List α) (xs : List β) (i : ℕ) : List α := textFrom text i (xs.drop i)

theorem rest_of_getElem? (text : ℕ → β → List α) {xs : List β} {i : ℕ} {x : β} (h : xs[i]? = some x) :
    rest text xs i = text i x++rest text xs (i+1) := by
  obtain ⟨hi,rfl⟩ := List.getElem?_eq_some_iff.mp h
  rw [rest,List.drop_eq_getElem_cons hi,textFrom]
  rfl

/-- A label is found in the instruction that it belongs to. -/
theorem startingAt_rest (h : Owned labelOf owner text) {xs : List β} (hl : owner l ≤ xs.length) :
    startingAt labelOf l (rest text xs 0) = startingAt labelOf l (rest text xs (owner l)) := by
  have hlength : (xs.take (owner l)).length = owner l := List.length_take_of_le hl
  have hsplit : rest text xs 0 = textFrom text 0 (xs.take (owner l))++rest text xs (owner l) := by
    have htake := textFrom_append text 0 (xs.take (owner l)) (xs.drop (owner l))
    rw [List.take_append_drop,hlength,Nat.zero_add] at htake
    exact htake
  rw [hsplit]
  exact startingAt_append _ (h.unlabelled (.inr (by omega)))

end Listing
end AgbTools
