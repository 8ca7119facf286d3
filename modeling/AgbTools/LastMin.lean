import Mathlib.Order.Lattice
import Mathlib.Tactic.Common

/-! The last element of a list with the smallest key, among those with a property. A scan that
replaces its candidate by every later one that is not larger finds it. -/
namespace AgbTools
namespace LastMin

variable {α κ : Type*} [LinearOrder κ] {key : α → κ} {p : α → Prop} {l : List α} {c d : α}

/-- `c` has the smallest key among the elements of `l` with `p`, and is the last of them. -/
def IsLastMin (key : α → κ) (p : α → Prop) (l : List α) (c : α) : Prop :=
  ∃ before after, l = before ++ c::after ∧ p c ∧ (∀ d ∈ before, p d → key c ≤ key d) ∧
    ∀ d ∈ after, p d → key c < key d

theorem IsLastMin.mem (h : IsLastMin key p l c) : c ∈ l := by
  obtain ⟨before,after,rfl,-⟩ := h
  exact List.mem_append_right _ (List.mem_cons_self ..)

theorem IsLastMin.prop (h : IsLastMin key p l c) : p c := by
  obtain ⟨-,-,-,hp,-⟩ := h
  exact hp

theorem IsLastMin.le (h : IsLastMin key p l c) (hd : d ∈ l) (hp : p d) : key c ≤ key d := by
  obtain ⟨before,after,rfl,-,hbefore,hafter⟩ := h
  obtain hd | hd := List.mem_append.mp hd
  · exact hbefore d hd hp
  · obtain rfl | hd := List.mem_cons.mp hd
    · exact le_rfl
    · exact le_of_lt (hafter d hd hp)

/-- The first element with the property. -/
theorem IsLastMin.first (hl : ∀ d ∈ l, ¬p d) (hp : p c) : IsLastMin key p (l++[c]) c :=
  ⟨l,[],rfl,hp,fun d hd hpd => absurd hpd (hl d hd),fun d hd => absurd hd (by simp)⟩

/-- A later element that does not come into question. -/
theorem IsLastMin.keep (h : IsLastMin key p l c) (hd : p d → key c < key d) :
    IsLastMin key p (l++[d]) c := by
  obtain ⟨before,after,rfl,hp,hbefore,hafter⟩ := h
  refine ⟨before,after++[d],by simp,hp,hbefore,fun e he hpe => ?_⟩
  obtain he | he := List.mem_append.mp he
  · exact hafter e he hpe
  · rw [List.mem_singleton.mp he] at hpe ⊢
    exact hd hpe

/-- A later element that is not larger takes over. -/
theorem IsLastMin.replace (h : IsLastMin key p l c) (hp : p d) (hle : key d ≤ key c) :
    IsLastMin key p (l++[d]) d :=
  ⟨l,[],rfl,hp,fun _ he hpe => le_trans hle (h.le he hpe),fun e he => absurd he (by simp)⟩

end LastMin
end AgbTools
