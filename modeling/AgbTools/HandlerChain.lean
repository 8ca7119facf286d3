import Mathlib.Data.List.Nodup
import Mathlib.Data.List.TakeWhile
import Mathlib.Logic.Function.Basic

/-! Handlers that remember the one that was registered before them. A handler that is registered once
more may close the chain to a loop. -/
namespace AgbTools
namespace HandlerChain

variable {ι : Type*} {next next' : ι → Option ι} {back back' l : List ι} {start : Option ι} {i : ι}

/-- From `start` on the handlers remember those of `l` in this order. The last one remembers none, or
one of `back`. -/
def Threaded (next : ι → Option ι) (back : List ι) : Option ι → List ι → Prop
  | start, [] => ∀ i ∈ start, i ∈ back
  | start, i::l => start = some i ∧ Threaded next back (next i) l

theorem Threaded.congr (h : Threaded next back start l) (hnext : ∀ i ∈ l, next' i = next i) :
    Threaded next' back start l := by
  induction l generalizing start with
  | nil => exact h
  | cons i l ih =>
    refine ⟨h.1,?_⟩
    rw [hnext i List.mem_cons_self]
    exact ih h.2 fun j hj => hnext j (List.mem_cons_of_mem i hj)

theorem takeWhile_congr {p q : ι → Bool} (h : ∀ i ∈ l, p i = q i) : l.takeWhile p = l.takeWhile q := by
  induction l with
  | nil => rfl
  | cons i l ih =>
    rw [List.takeWhile_cons,List.takeWhile_cons,h i List.mem_cons_self,
      ih fun j hj => h j (List.mem_cons_of_mem i hj)]

variable [DecidableEq ι]

/-- The chain up to a handler, which the last one remembers. -/
theorem Threaded.upTo (h : Threaded next back start l) (hback : i ∉ l → back ⊆ back') (hi : i ∈ back') :
    Threaded next back' start (l.takeWhile (· ≠ i)) := by
  induction l generalizing start with
  | nil => exact fun j hj => hback (List.not_mem_nil) (h j hj)
  | cons j l ih =>
    by_cases hji : j = i
    · subst hji
      rw [List.takeWhile_cons_of_neg (by simp),h.1]
      intro k hk
      cases hk
      exact hi
    · rw [List.takeWhile_cons_of_pos (by simp [hji])]
      refine ⟨h.1,ih h.2 fun hl => hback fun hmem => ?_⟩
      rcases List.mem_cons.mp hmem with heq | hmem
      · exact hji heq.symm
      · exact hl hmem

/-- The chain behind a registration: the handlers that came before an earlier one of the same handler
are lost. -/
def registered (i : ι) (l : List ι) : List ι := i::l.takeWhile (· ≠ i)

theorem registered_nodup (h : l.Nodup) (i : ι) : (registered i l).Nodup := by
  refine List.nodup_cons.mpr ⟨fun hmem => ?_,h.sublist (List.takeWhile_sublist _)⟩
  simpa using List.mem_takeWhile_imp hmem

theorem Threaded.register (h : Threaded next l start l) (hnext : next' i = start)
    (hother : ∀ j, j ≠ i → next' j = next j) :
    Threaded next' (registered i l) (some i) (registered i l) := by
  refine ⟨rfl,?_⟩
  rw [hnext]
  have hupTo : Threaded next (registered i l) start (l.takeWhile (· ≠ i)) := by
    refine h.upTo (fun hi => ?_) List.mem_cons_self
    intro j hj
    refine List.mem_cons_of_mem i ?_
    rw [List.takeWhile_eq_self_iff.mpr fun k hk => by simpa using fun heq : k = i => hi (heq ▸ hk)]
    exact hj
  refine hupTo.congr fun j hj => hother j ?_
  simpa using List.mem_takeWhile_imp hj

end HandlerChain
end AgbTools
