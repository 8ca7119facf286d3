import AgbTools.ShortenBranches
import Mathlib.Tactic.IntervalCases

/-! The branches that thumb.md prints for the lengths `shorten_branches` leaves, and when each of
them reaches its target. -/
namespace AgbTools
namespace ShortenBranches

open PaddedLayout

section Forms

/-- What is printed for a branch: a plain or a long branch, a conditional one, or the opposite
condition around one of the first two. The flag tells an inverted condition. -/
inductive Form
  | b
  | bl
  | cond (inverted : Bool)
  | condAroundB (inverted : Bool)
  | condAroundBl (inverted : Bool)
deriving DecidableEq, Repr

def Kind.form : Kind → ℕ → Form
  | .jump, length => if length = 2 then .b else .bl
  | .condBranch, length =>
    if length = 2 then .cond false else if length = 4 then .condAroundB true else .condAroundBl true
  | .condBranchReversed, length =>
    if length = 2 then .cond true else if length = 4 then .condAroundB false else .condAroundBl false

/-- The offset of a `b` at an address counts from four bytes behind it. -/
def BReaches (address target : ℤ) : Prop :=
  -2048 ≤ target-(address+4) ∧ target-(address+4) ≤ 2046

/-- The printed form can be encoded at its address. -/
def Encodable : Form → ℤ → ℤ → Prop
  | .b, address, target => BReaches address target
  | .bl, _, _ => True
  | .cond _, address, target => -256 ≤ target-(address+4) ∧ target-(address+4) ≤ 254
  | .condAroundB _, address, target => BReaches (address+2) target
  | .condAroundBl _, _, _ => True

/-- Every branch of the stream reaches its target from where the layout puts it. -/
def Reaches (S : Stream) (lay : Layout) : Prop :=
  ∀ i kind dest, S.code[i]? = some (.branch kind dest) →
    Encodable (kind.form (lay.len i)) (lay.addr i) (lay.addr dest)

end Forms

section Ranges

variable {kind : Kind} {a t d : ℤ} {w : ℕ}

end Ranges

section Reach

variable {S : Stream} {i dest n : ℕ} {kind : Kind}

end Reach

end ShortenBranches
end AgbTools
