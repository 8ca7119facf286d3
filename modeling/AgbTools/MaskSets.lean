import Mathlib.Data.BitVec
import Mathlib.Data.Fintype.Basic
import Mathlib.Data.Finset.Card
import Mathlib.Logic.Function.Basic
import Mathlib.Tactic.Common

/-! Machine words as sets of bit numbers: how many bits are set, and words that summarise the
masks of several owners. -/
namespace AgbTools
namespace MaskSets

variable {w : ℕ}

/-- The set bits of a word. -/
def ones (m : BitVec w) : Finset (Fin w) := Finset.univ.filter fun b => m.getLsbD b

@[simp] theorem mem_ones {m : BitVec w} {b : Fin w} : b ∈ ones m ↔ m.getLsbD b = true := by
  simp [ones]

@[simp] theorem ones_zero : ones 0#w = ∅ := by
  ext b
  simp

theorem and_eq_zero_iff {m m' : BitVec w} :
    m &&& m' = 0 ↔ ∀ b, m.getLsbD b = true → m'.getLsbD b = false := by
  constructor
  · intro h b hb
    have hand := congrArg (fun x => x.getLsbD b) h
    simpa [hb] using hand
  · intro h
    refine BitVec.eq_of_getLsbD_eq fun b _ => ?_
    cases hb : m.getLsbD b with
    | false => simp [hb]
    | true => simp [hb,h b hb]

theorem getLsbD_and_not {m m' : BitVec w} {b : ℕ} :
    (m &&& ~~~m').getLsbD b = true ↔ m.getLsbD b = true ∧ m'.getLsbD b = false := by
  rw [BitVec.getLsbD_and,BitVec.getLsbD_not,Bool.and_eq_true,Bool.and_eq_true]
  constructor
  · rintro ⟨hm,-,hnot⟩
    exact ⟨hm,by simpa using hnot⟩
  · rintro ⟨hm,hnot⟩
    exact ⟨hm,by simpa using BitVec.lt_of_getLsbD hm,by simpa using hnot⟩

section Count
variable {m m' : BitVec w} {b : Fin w}

/-- A word with one more bit. -/
theorem card_ones_set (hb : m.getLsbD b = false)
    (h : ∀ c : Fin w, m'.getLsbD c = (decide (c = b) || m.getLsbD c)) :
    (ones m').card = (ones m).card + 1 := by
  have hset : ones m' = insert b (ones m) := by
    ext c
    rw [mem_ones,h c,Finset.mem_insert,mem_ones,Bool.or_eq_true,decide_eq_true_eq]
  have hnot : b ∉ ones m := by
    rw [mem_ones,hb]
    exact Bool.false_ne_true
  rw [hset,Finset.card_insert_of_notMem hnot]

/-- A word with one bit less. -/
theorem card_ones_clear (hb : m.getLsbD b = true)
    (h : ∀ c : Fin w, m'.getLsbD c = (!decide (c = b) && m.getLsbD c)) :
    (ones m').card + 1 = (ones m).card := by
  have hset : ones m' = (ones m).erase b := by
    ext c
    rw [mem_ones,h c,Finset.mem_erase,mem_ones,Bool.and_eq_true,Bool.not_eq_true',
      decide_eq_false_iff_not]
  rw [hset,Finset.card_erase_add_one (mem_ones.mpr hb)]

end Count

section Owners
variable {ι : Type*}

/-- `flag` is the disjoint union of the owners' masks. -/
structure Owned (flag : BitVec w) (mask : ι → BitVec w) : Prop where
  cover : ∀ b, flag.getLsbD b = true ↔ ∃ i, (mask i).getLsbD b = true
  disjoint : ∀ i j b, (mask i).getLsbD b = true → (mask j).getLsbD b = true → i = j

variable {flag flag' bm : BitVec w} {mask mask' : ι → BitVec w} {i : ι}

theorem Owned.zero : Owned (0 : BitVec w) (fun _ : ι => 0) :=
  ⟨fun b => by simp,fun i j b h => by simp at h⟩

/-- One owner's mask changes to `bm`, and the flags with it. -/
theorem Owned.change (h : Owned flag mask) (hi : mask' i = bm) (hother : ∀ j, j ≠ i → mask' j = mask j)
    (hfree : ∀ j, j ≠ i → ∀ b, bm.getLsbD b = true → (mask j).getLsbD b = false)
    (hflag : ∀ b, flag'.getLsbD b = true ↔
      bm.getLsbD b = true ∨ flag.getLsbD b = true ∧ (mask i).getLsbD b = false) :
    Owned flag' mask' := by
  constructor
  · intro b
    rw [hflag b,h.cover b]
    constructor
    · rintro (hb | ⟨⟨j,hj⟩,hnot⟩)
      · exact ⟨i,by rw [hi]; exact hb⟩
      · have hne : j ≠ i := by
          rintro rfl
          rw [hnot] at hj
          cases hj
        exact ⟨j,by rw [hother j hne]; exact hj⟩
    · rintro ⟨j,hj⟩
      by_cases hji : j = i
      · subst hji
        rw [hi] at hj
        exact .inl hj
      · rw [hother j hji] at hj
        by_cases hmi : (mask i).getLsbD b = true
        · exact absurd (h.disjoint j i b hj hmi) hji
        · exact .inr ⟨⟨j,hj⟩,by simpa using hmi⟩
  · intro j k b hj hk
    by_cases hji : j = i
    · subst hji
      by_cases hki : k = j
      · exact hki.symm
      · rw [hi] at hj
        rw [hother k hki,hfree k hki b hj] at hk
        cases hk
    · rw [hother j hji] at hj
      by_cases hki : k = i
      · subst hki
        rw [hi] at hk
        rw [hfree j hji b hk] at hj
        cases hj
      · rw [hother k hki] at hk
        exact h.disjoint j k b hj hk

/-- Taking a word away from the flags takes away the mask of owner `i`, when the word covers it
and no other mask. -/
theorem Owned.and_not {m : BitVec w} (h : Owned flag mask)
    (hcover : ∀ b, (mask i).getLsbD b = true → m.getLsbD b = true)
    (hother : ∀ j, j ≠ i → ∀ b, (mask j).getLsbD b = true → m.getLsbD b = false) (b : ℕ) :
    (flag &&& ~~~m).getLsbD b = true ↔
      flag.getLsbD b = true ∧ (mask i).getLsbD b = false := by
  rw [getLsbD_and_not]
  constructor
  · rintro ⟨hflag,hm⟩
    refine ⟨hflag,?_⟩
    by_contra hmask
    rw [hcover b (by simpa using hmask)] at hm
    cases hm
  · rintro ⟨hflag,hmask⟩
    obtain ⟨j,hj⟩ := (h.cover b).mp hflag
    have hne : j ≠ i := by
      rintro rfl
      rw [hmask] at hj
      cases hj
    exact ⟨hflag,hother j hne b hj⟩

end Owners

end MaskSets
end AgbTools
