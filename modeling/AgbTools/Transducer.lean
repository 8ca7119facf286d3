import Mathlib.Data.Vector.Basic
import Mathlib.Logic.Function.Basic

/-! Sequential transducers: a machine reads a list letter by letter, writes one letter
for each and moves to a next state. -/
namespace AgbTools
namespace Transducer

variable {σ α β : Type*}

/-- The letters written on a list of inputs. -/
def outputs (f : σ → α → β × σ) : σ → List α → List β
  | _, [] => []
  | s, a::as => (f s a).1 :: outputs f (f s a).2 as

/-- The state after a list of inputs. -/
def final (f : σ → α → β × σ) (s : σ) (as : List α) : σ := as.foldl (fun s a => (f s a).2) s

@[simp] theorem outputs_nil (f : σ → α → β × σ) (s : σ) : outputs f s [] = [] := rfl
@[simp] theorem final_nil (f : σ → α → β × σ) (s : σ) : final f s [] = s := rfl
@[simp] theorem outputs_cons (f : σ → α → β × σ) (s : σ) (a : α) (as : List α) :
    outputs f s (a::as) = (f s a).1 :: outputs f (f s a).2 as := rfl
@[simp] theorem final_cons (f : σ → α → β × σ) (s : σ) (a : α) (as : List α) :
    final f s (a::as) = final f (f s a).2 as := rfl

@[simp] theorem outputs_length (f : σ → α → β × σ) (s : σ) (as : List α) :
    (outputs f s as).length = as.length := by
  induction as generalizing s with
  | nil => rfl
  | cons a as ih => simp [ih]

/-- Appending one letter writes one letter, from the state reached so far. -/
theorem outputs_concat (f : σ → α → β × σ) (s : σ) (as : List α) (a : α) :
    outputs f s (as++[a]) = outputs f s as ++ [(f (final f s as) a).1] := by
  induction as generalizing s with
  | nil => rfl
  | cons b as ih => simp [ih]

theorem final_concat (f : σ → α → β × σ) (s : σ) (as : List α) (a : α) :
    final f s (as++[a]) = (f (final f s as) a).2 := by
  simp [final,List.foldl_append]

variable {f : σ → α → β × σ}

theorem outputs_injective (hf : ∀ s, Function.Injective fun a => (f s a).1) (s : σ)
    {as bs : List α} (h : outputs f s as = outputs f s bs) : as = bs := by
  induction as generalizing s bs with
  | nil =>
    cases bs with
    | nil => rfl
    | cons b bs => simp at h
  | cons a as ih =>
    cases bs with
    | nil => simp at h
    | cons b bs =>
      simp only [outputs_cons,List.cons.injEq] at h
      obtain rfl : a = b := hf s h.1
      rw [ih _ h.2]

theorem outputs_surjective (hf : ∀ s, Function.Surjective fun a => (f s a).1) (s : σ)
    (bs : List β) : ∃ as, outputs f s as = bs := by
  induction bs generalizing s with
  | nil => exact ⟨[],rfl⟩
  | cons b bs ih =>
    obtain ⟨a,ha⟩ := hf s b
    obtain ⟨as,has⟩ := ih (f s a).2
    refine ⟨a::as,?_⟩
    rw [outputs_cons,has]
    exact congrArg (· :: bs) ha

/-- The transducer on words of one length. -/
def onVector (f : σ → α → β × σ) (s : σ) (n : ℕ) (v : List.Vector α n) : List.Vector β n :=
  ⟨outputs f s v.1,by rw [outputs_length,v.2]⟩

/-- When every state writes its letter bijectively, so does every run, length by length. -/
theorem onVector_bijective (hf : ∀ s, Function.Bijective fun a => (f s a).1) (s : σ) (n : ℕ) :
    Function.Bijective (onVector f s n) := by
  constructor
  · intro v w h
    exact Subtype.ext (outputs_injective (fun s => (hf s).1) s (congrArg Subtype.val h))
  · intro w
    obtain ⟨as,has⟩ := outputs_surjective (fun s => (hf s).2) s w.1
    refine ⟨⟨as,?_⟩,Subtype.ext has⟩
    rw [← outputs_length f s as,has,w.2]

end Transducer
end AgbTools
