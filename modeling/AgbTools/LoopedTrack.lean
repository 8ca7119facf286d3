import Mathlib.Data.Nat.Cast.Defs
import Mathlib.Logic.Function.Basic
import Mathlib.Tactic.Common

/-! A recording that may end in a loop: where the sample at a distance from its start lies, and
what playing it adds to a buffer. -/
namespace AgbTools
namespace LoopedTrack

section Places

variable {α : Type*} [AddMonoidWithOne α]

/-- What is left of a recording, and the loop after it; without a loop its length is 0. -/
structure Track (α : Type*) where
  start : α
  count : ℕ
  loopStart : α
  loopLength : ℕ

/-- Where a sample lies, and how many are left from it on. -/
structure Place (α : Type*) where
  pointer : α
  left : ℕ

/-- The place of the sample `p` samples after the start. -/
def Track.place (t : Track α) (p : ℕ) : Option (Place α) :=
  if p < t.count then some ⟨t.start+p,t.count-p⟩
  else if t.loopLength = 0 then none
  else some ⟨t.loopStart+((p-t.count)%t.loopLength : ℕ),t.loopLength-(p-t.count)%t.loopLength⟩

/-- From one place `n` samples on. -/
def Track.advance (t : Track α) (n : ℕ) (l : Place α) : Option (Place α) :=
  if n < l.left then some ⟨l.pointer+n,l.left-n⟩
  else if t.loopLength = 0 then none
  else some ⟨t.loopStart+((n-l.left)%t.loopLength : ℕ),t.loopLength-(n-l.left)%t.loopLength⟩

/-- The recording from one of its places on. -/
def Track.resume (t : Track α) (l : Place α) : Track α := {t with start := l.pointer, count := l.left}

theorem Track.place_zero (t : Track α) (h : 0 < t.count) : t.place 0 = some ⟨t.start,t.count⟩ := by
  rw [place,if_pos h,Nat.cast_zero,add_zero,Nat.sub_zero]

theorem Track.left_pos {t : Track α} {p : ℕ} {l : Place α} (h : t.place p = some l) : 0 < l.left := by
  unfold place at h
  split_ifs at h with hp hloop
  · obtain rfl := Option.some.inj h
    exact Nat.sub_pos_of_lt hp
  · obtain rfl := Option.some.inj h
    exact Nat.sub_pos_of_lt (Nat.mod_lt _ (Nat.pos_of_ne_zero hloop))

theorem Track.left_le {t : Track α} {p : ℕ} {l : Place α} (h : t.place p = some l) :
    l.left ≤ t.count ∨ l.left ≤ t.loopLength := by
  unfold place at h
  split_ifs at h with hp hloop
  · obtain rfl := Option.some.inj h
    exact .inl (Nat.sub_le ..)
  · obtain rfl := Option.some.inj h
    exact .inr (Nat.sub_le ..)

theorem Track.place_add (t : Track α) (p n : ℕ) : t.place (p+n) = (t.place p).bind (t.advance n) := by
  by_cases hp : p < t.count
  · rw [place,place,if_pos hp,Option.bind_some]
    by_cases hn : p+n < t.count
    · rw [if_pos hn,advance,if_pos (show n < t.count-p by omega),Nat.cast_add,← add_assoc,
        Nat.sub_add_eq]
    · rw [if_neg hn,advance,if_neg (show ¬n < t.count-p by omega),
        show n-(t.count-p) = p+n-t.count by omega]
  · by_cases hloop : t.loopLength = 0
    · rw [place,place,if_neg (by omega),if_pos hloop,if_neg hp,if_pos hloop,Option.bind_none]
    · have hsplit : p+n-t.count = (p-t.count)+n := by omega
      rw [place,place,if_neg (by omega),if_neg hloop,if_neg hp,if_neg hloop,Option.bind_some,hsplit]
      have hlt := Nat.mod_lt (p-t.count) (Nat.pos_of_ne_zero hloop)
      by_cases hn : n < t.loopLength-(p-t.count)%t.loopLength
      · have hmod : (p-t.count+n)%t.loopLength = (p-t.count)%t.loopLength+n := by
          rw [← Nat.mod_add_mod,Nat.mod_eq_of_lt (by omega)]
        rw [advance,if_pos hn,hmod,Nat.cast_add,← add_assoc,Nat.sub_add_eq]
      · have hmod : (n-(t.loopLength-(p-t.count)%t.loopLength))%t.loopLength =
            (p-t.count+n)%t.loopLength := by
          rw [← Nat.mod_add_mod (p-t.count),← Nat.add_mod_right (n-_),
            show n-(t.loopLength-(p-t.count)%t.loopLength)+t.loopLength =
              (p-t.count)%t.loopLength+n by omega]
        rw [advance,if_neg hn,if_neg hloop,hmod]

theorem Track.place_none {t : Track α} {p : ℕ} (h : t.place p = none) {m : ℕ} (hm : p ≤ m) :
    t.place m = none := by
  obtain ⟨n,rfl⟩ := Nat.exists_eq_add_of_le hm
  rw [place_add,h,Option.bind_none]

theorem Track.place_resume (t : Track α) {p : ℕ} {l : Place α} (h : t.place p = some l) (n : ℕ) :
    (t.resume l).place n = t.place (p+n) := by
  rw [place_add,h,Option.bind_some]
  rfl

end Places

section Buffers

variable {β : Type*} [Add β]

/-- The `n` places of a buffer from `base` on, with what is played there added. -/
def mixed (played : ℕ → Option β) (base n : ℕ) (out : ℕ → β) (x : ℕ) : β :=
  if base ≤ x ∧ x < base+n then
    match played (x-base) with
    | some d => out x + d
    | none => out x
  else out x

theorem mixed_zero (played : ℕ → Option β) (base : ℕ) (out : ℕ → β) : mixed played base 0 out = out := by
  funext x
  rw [mixed,if_neg (by omega)]

/-- The next sample is added behind the others. -/
theorem mixed_succ {played : ℕ → Option β} {base n : ℕ} {d : β} (h : played n = some d) (out : ℕ → β) :
    mixed played base (n+1) out =
      Function.update (mixed played base n out) (base+n) (mixed played base n out (base+n) + d) := by
  funext x
  by_cases hx : x = base+n
  · subst hx
    rw [Function.update_self,mixed,mixed,if_pos (by omega),if_neg (by omega),Nat.add_sub_cancel_left,h]
  · rw [Function.update_of_ne hx,mixed,mixed]
    by_cases hin : base ≤ x ∧ x < base+n
    · rw [if_pos hin,if_pos (by omega)]
    · rw [if_neg hin,if_neg (by omega)]

/-- What is no longer played changes nothing. -/
theorem mixed_of_none {played : ℕ → Option β} {n : ℕ} (h : ∀ m, n ≤ m → played m = none) {m : ℕ}
    (hm : n ≤ m) (base : ℕ) (out : ℕ → β) : mixed played base m out = mixed played base n out := by
  funext x
  rw [mixed,mixed]
  by_cases hx : base ≤ x ∧ x < base+n
  · rw [if_pos hx,if_pos (by omega)]
  · rw [if_neg hx]
    split_ifs with hin
    · rw [h (x-base) (by omega)]
    · rfl

/-- Two stretches one behind the other are one stretch. -/
theorem mixed_add (played : ℕ → Option β) (base a b : ℕ) (out : ℕ → β) :
    mixed played base (a+b) out =
      mixed (fun i => played (a+i)) (base+a) b (mixed played base a out) := by
  funext x
  simp only [mixed]
  by_cases ha : base ≤ x ∧ x < base+a
  · rw [if_pos (by omega),if_neg (by omega),if_pos ha]
  · by_cases hb : base+a ≤ x ∧ x < base+a+b
    · rw [if_pos (by omega),if_pos hb,if_neg ha,show a+(x-(base+a)) = x-base by omega]
    · rw [if_neg (by omega),if_neg hb,if_neg ha]

end Buffers

end LoopedTrack
end AgbTools
