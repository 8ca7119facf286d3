import Mathlib.Data.List.Basic

/-! Brackets that are entered with a value and left again, and the stack of the values that are open. -/
namespace AgbTools
namespace Nesting

variable {α : Type*}

/-- An opening bracket, with what is to be found again at its end, or a closing one. -/
inductive Move (α : Type*)
  | enter (a : α)
  | leave

/-- A closing bracket without an opening one does nothing. -/
def Move.act (st : List α) : Move α → List α
  | .enter a => a::st
  | .leave => st.tail

/-- The values of the brackets that are open after `ms`, the innermost first. -/
def opened (st : List α) (ms : List (Move α)) : List α := ms.foldl Move.act st

@[simp] theorem opened_nil (st : List α) : opened st [] = st := rfl
@[simp] theorem opened_cons (st : List α) (k : Move α) (ms : List (Move α)) :
    opened st (k::ms) = opened (k.act st) ms := rfl
@[simp] theorem opened_append (st : List α) (ms ks : List (Move α)) :
    opened st (ms++ks) = opened (opened st ms) ks := List.foldl_append

def depth (ms : List (Move α)) : ℕ := (opened [] ms).length

/-- Every bracket is closed inside of the one around it. -/
inductive Balanced : List (Move α) → Prop
  | nil : Balanced []
  | nested {a : α} {ms ks : List (Move α)} (hms : Balanced ms) (hks : Balanced ks) :
      Balanced (.enter a::ms ++ .leave::ks)

theorem Balanced.opened {ms : List (Move α)} (h : Balanced ms) (st : List α) :
    Nesting.opened st ms = st := by
  induction h generalizing st with
  | nil => rfl
  | nested _ _ ihms ihks =>
    rw [opened_append,opened_cons,opened_cons,ihms,ihks]
    rfl

end Nesting
end AgbTools
