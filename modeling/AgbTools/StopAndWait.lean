import Mathlib.Data.List.Basic
import Mathlib.Data.List.Forall2
import Mathlib.Logic.Function.Basic
import Mathlib.Tactic.Common

/-! Stop-and-wait on several channels over links that keep the order of messages but may lose or
repeat them. The channels are worked through in stages; a message carries its channel and its
number on that channel. -/
namespace AgbTools
namespace StopAndWait

section Faults
variable {α β : Type*}

/-- Message `n` of a link is lost. -/
def lose : ℕ → List α → List α
  | _, [] => []
  | 0, _::xs => xs
  | n+1, x::xs => x::lose n xs

/-- Message `n` of a link is repeated. -/
def double : ℕ → List α → List α
  | _, [] => []
  | 0, x::xs => x::x::xs
  | n+1, x::xs => x::double n xs

theorem lose_sublist (n : ℕ) (xs : List α) : (lose n xs).Sublist xs := by
  induction xs generalizing n with
  | nil => cases n <;> exact .slnil
  | cons x xs ih =>
    cases n with
    | zero => exact List.sublist_cons_self x xs
    | succ n => exact (ih n).cons_cons x

theorem mem_double {n : ℕ} {xs : List α} {x : α} : x ∈ double n xs ↔ x ∈ xs := by
  induction xs generalizing n with
  | nil => cases n <;> rfl
  | cons y ys ih =>
    cases n with
    | zero => simp [double]
    | succ n => simp [double,ih]

theorem pairwise_double {r : α → α → Prop} (hr : ∀ x, r x x) {xs : List α} (h : xs.Pairwise r)
    (n : ℕ) : (double n xs).Pairwise r := by
  induction xs generalizing n with
  | nil => cases n <;> exact .nil
  | cons x xs ih =>
    obtain ⟨hx,hxs⟩ := List.pairwise_cons.mp h
    cases n with
    | zero =>
      refine List.pairwise_cons.mpr ⟨fun y hy => ?_,h⟩
      obtain rfl | hy := List.mem_cons.mp hy
      · exact hr y
      · exact hx y hy
    | succ n => exact List.pairwise_cons.mpr ⟨fun y hy => hx y (mem_double.mp hy),ih hxs n⟩

theorem forall₂_lose {r : α → β → Prop} {xs : List α} {ys : List β} (h : List.Forall₂ r xs ys)
    (n : ℕ) : List.Forall₂ r (lose n xs) (lose n ys) := by
  induction h generalizing n with
  | nil => cases n <;> exact .nil
  | cons hxy h ih =>
    cases n with
    | zero => exact h
    | succ n => exact .cons hxy (ih n)

theorem forall₂_double {r : α → β → Prop} {xs : List α} {ys : List β} (h : List.Forall₂ r xs ys)
    (n : ℕ) : List.Forall₂ r (double n xs) (double n ys) := by
  induction h generalizing n with
  | nil => cases n <;> exact .nil
  | cons hxy h ih =>
    cases n with
    | zero => exact .cons hxy (.cons hxy h)
    | succ n => exact .cons hxy (ih n)

theorem forall₂_append_singleton {r : α → β → Prop} {xs : List α} {ys : List β} {x : α} {y : β}
    (h : List.Forall₂ r xs ys) (hxy : r x y) : List.Forall₂ r (xs++[x]) (ys++[y]) := by
  induction h with
  | nil => exact .cons hxy .nil
  | cons hab _ ih => exact .cons hab ih

end Faults

/-- Two families that belong together change at one index. -/
theorem forall_update₂ {ι α β : Type*} [DecidableEq ι] (f : ι → α) (g : ι → β)
    (p : ι → α → β → Prop) {i : ι} {a : α} {b : β} (h : p i a b)
    (hrest : ∀ j, j ≠ i → p j (f j) (g j)) (j : ι) :
    p j (Function.update f i a j) (Function.update g i b j) := by
  by_cases heq : j = i
  · subst heq
    rw [Function.update_self,Function.update_self]
    exact h
  · rw [Function.update_of_ne heq,Function.update_of_ne heq]
    exact hrest j heq

variable {κ : Type*}

/-- The stage of each channel, and the number of messages it has. -/
structure Plan (κ : Type*) where
  stage : κ → ℕ
  total : κ → ℕ

/-- One sender and one receiver. Messages are numbered from 0 on each channel: `out` is the number
of the one that is out, `got` how many were taken; an acknowledgement carries the latter. -/
structure Pair (κ : Type*) where
  out : κ → ℕ
  acked : κ → Bool
  got : κ → ℕ
  forward : List (κ × ℕ)
  back : List (κ × ℕ)

namespace Pair

def initial : Pair κ := ⟨fun _ => 0,fun _ => false,fun _ => 0,[],[]⟩

/-- The message that is out on channel `c` is sent once more. -/
def send (p : Pair κ) (c : κ) : Pair κ := { p with forward := p.forward ++ [(c,p.out c)] }

/-- The receiver says how far it is on channel `c`. -/
def answer (p : Pair κ) (c : κ) : Pair κ := { p with back := p.back ++ [(c,p.got c)] }

variable [DecidableEq κ]

/-- The sender goes on to the next message. -/
def advance (p : Pair κ) (c : κ) : Pair κ :=
  { p with out := Function.update p.out c (p.out c + 1), acked := Function.update p.acked c false }

/-- What the receiver has after message `x`. -/
def take (got : κ → ℕ) (x : κ × ℕ) : κ → ℕ :=
  if x.2 = got x.1 then Function.update got x.1 (x.2+1) else got

/-- The first message of the link is delivered; the rest of the link is `rest`. -/
def deliver (p : Pair κ) (x : κ × ℕ) (rest : List (κ × ℕ)) : Pair κ :=
  { p with got := take p.got x, forward := rest }

/-- An acknowledgement arrives. -/
def confirm (p : Pair κ) (x : κ × ℕ) (rest : List (κ × ℕ)) : Pair κ :=
  { p with
    acked := if x.2 = p.out x.1 + 1 then Function.update p.acked x.1 true else p.acked
    back := rest }

/-- What is acknowledged after that. -/
theorem confirm_acked {p : Pair κ} {x : κ × ℕ} {rest : List (κ × ℕ)} {c : κ} :
    (p.confirm x rest).acked c = true ↔ p.acked c = true ∨ x.2 = p.out x.1 + 1 ∧ c = x.1 := by
  unfold confirm
  by_cases hnew : x.2 = p.out x.1 + 1
  · by_cases hc : c = x.1
    · simp [hnew,hc]
    · simp [hnew,hc]
  · simp [hnew]

end Pair

/-- The channel is open and the stages before it are complete. -/
structure Open (P : Plan κ) (out : κ → ℕ) (c : κ) : Prop where
  channel : out c < P.total c
  before : ∀ c', P.stage c' < P.stage c → out c' = P.total c'

/-- The receiver is at most one message ahead of what the sender knows, on each channel, and
nothing that is on its way is out of date. -/
structure InStep (P : Plan κ) (p : Pair κ) : Prop where
  window : ∀ c, p.out c ≤ p.got c ∧ p.got c ≤ p.out c + 1
  within : ∀ c, p.got c ≤ P.total c
  forward : ∀ x ∈ p.forward, p.got x.1 ≤ x.2 + 1 ∧ x.2 ≤ p.out x.1 ∧ x.2 < P.total x.1
  back : ∀ x ∈ p.back, p.out x.1 ≤ x.2 ∧ x.2 ≤ p.got x.1
  acked : ∀ c, p.acked c = true → p.got c = p.out c + 1 ∧ ∀ x ∈ p.back, x.1 = c → p.out c < x.2
  forwardOrder : p.forward.Pairwise
    fun x y => P.stage x.1 ≤ P.stage y.1 ∧ (x.1 = y.1 → x.2 ≤ y.2)
  backOrder : p.back.Pairwise fun x y => x.1 = y.1 → x.2 ≤ y.2
  before : ∀ c, p.got c ≠ 0 ∨ (∃ m, (c,m) ∈ p.forward) →
    ∀ c', P.stage c' < P.stage c → p.out c' = P.total c'
  after : ∀ x ∈ p.forward, ∀ c, p.got c ≠ 0 → P.stage c ≤ P.stage x.1

namespace InStep
variable {P : Plan κ} {p : Pair κ} {c : κ}

theorem initial : InStep P (Pair.initial : Pair κ) where
  window _ := ⟨Nat.zero_le 0,Nat.zero_le 1⟩
  within _ := Nat.zero_le _
  forward _ h := by cases h
  back _ h := by cases h
  acked _ h := by cases h
  forwardOrder := .nil
  backOrder := .nil
  before _ h := by
    obtain h | ⟨m,h⟩ := h
    · exact absurd rfl h
    · cases h
  after _ h := by cases h

/-- A complete channel is not acknowledged any more. -/
theorem not_acked (h : InStep P p) (hc : p.out c = P.total c) : p.acked c = false := by
  by_contra hacked
  have hgot := (h.acked c (by simpa using hacked)).1
  have hle := h.within c
  omega

/-- The receiver has all of a complete channel. -/
theorem got_of_complete (h : InStep P p) (hc : p.out c = P.total c) : p.got c = P.total c := by
  have hwindow := h.window c
  have hle := h.within c
  omega

theorem deliver_cases (h : InStep P p) {x : κ × ℕ} (hx : x ∈ p.forward) :
    x.2 + 1 = p.got x.1 ∨ x.2 = p.got x.1 := by
  have hx' := h.forward x hx
  have hwindow := h.window x.1
  omega

theorem confirm_cases (h : InStep P p) {x : κ × ℕ} (hx : x ∈ p.back) :
    x.2 = p.out x.1 ∨ x.2 = p.out x.1 + 1 := by
  have hx' := h.back x hx
  have hwindow := h.window x.1
  omega

theorem send (h : InStep P p) (hc : Open P p.out c) : InStep P (p.send c) where
  window := h.window
  within := h.within
  forward x hx := by
    obtain hx | hx := List.mem_append.mp hx
    · exact h.forward x hx
    · rw [List.mem_singleton] at hx
      subst hx
      exact ⟨(h.window c).2,Nat.le_refl _,hc.channel⟩
  back := h.back
  acked := h.acked
  forwardOrder := by
    refine List.pairwise_append.mpr ⟨h.forwardOrder,List.pairwise_singleton _ _,fun x hx y hy => ?_⟩
    rw [List.mem_singleton] at hy
    subst hy
    constructor
    · by_contra hlt
      have hdone := h.before x.1 (.inr ⟨x.2,hx⟩) c (by dsimp only at hlt; omega)
      have hopen := hc.channel
      omega
    · intro heq
      have hle := (h.forward x hx).2.1
      rw [heq] at hle
      exact hle
  backOrder := h.backOrder
  before c' hc' := by
    obtain hgot | ⟨m,hm⟩ := hc'
    · exact h.before c' (.inl hgot)
    · obtain hm | hm := List.mem_append.mp hm
      · exact h.before c' (.inr ⟨m,hm⟩)
      · rw [List.mem_singleton,Prod.mk.injEq] at hm
        rw [hm.1]
        exact hc.before
  after x hx c' hc' := by
    obtain hx | hx := List.mem_append.mp hx
    · exact h.after x hx c' hc'
    · rw [List.mem_singleton] at hx
      subst hx
      by_contra hlt
      have hdone := h.before c' (.inl hc') c (by dsimp only at hlt; omega)
      have hopen := hc.channel
      omega

/-- Changes of the link towards the receiver that keep its order. -/
theorem forward_of (h : InStep P p) {q : List (κ × ℕ)} (hmem : ∀ x ∈ q, x ∈ p.forward)
    (hq : q.Pairwise fun x y => P.stage x.1 ≤ P.stage y.1 ∧ (x.1 = y.1 → x.2 ≤ y.2)) :
    InStep P { p with forward := q } where
  window := h.window
  within := h.within
  forward x hx := h.forward x (hmem x hx)
  back := h.back
  acked := h.acked
  forwardOrder := hq
  backOrder := h.backOrder
  before c hc := h.before c (hc.imp id fun ⟨m,hm⟩ => ⟨m,hmem _ hm⟩)
  after x hx := h.after x (hmem x hx)

/-- Changes of the link back that keep its order. -/
theorem back_of (h : InStep P p) {q : List (κ × ℕ)} (hmem : ∀ x ∈ q, x ∈ p.back)
    (hq : q.Pairwise fun x y => x.1 = y.1 → x.2 ≤ y.2) : InStep P { p with back := q } where
  window := h.window
  within := h.within
  forward := h.forward
  back x hx := h.back x (hmem x hx)
  acked c hc := ⟨(h.acked c hc).1,fun x hx => (h.acked c hc).2 x (hmem x hx)⟩
  forwardOrder := h.forwardOrder
  backOrder := hq
  before := h.before
  after := h.after

theorem loseForward (h : InStep P p) (n : ℕ) : InStep P { p with forward := lose n p.forward } :=
  h.forward_of (fun _ hx => (lose_sublist n _).subset hx) (h.forwardOrder.sublist (lose_sublist n _))

theorem doubleForward (h : InStep P p) (n : ℕ) :
    InStep P { p with forward := double n p.forward } :=
  h.forward_of (fun _ hx => mem_double.mp hx)
    (pairwise_double (fun _ => ⟨Nat.le_refl _,fun _ => Nat.le_refl _⟩) h.forwardOrder n)

theorem loseBack (h : InStep P p) (n : ℕ) : InStep P { p with back := lose n p.back } :=
  h.back_of (fun _ hx => (lose_sublist n _).subset hx) (h.backOrder.sublist (lose_sublist n _))

theorem doubleBack (h : InStep P p) (n : ℕ) : InStep P { p with back := double n p.back } :=
  h.back_of (fun _ hx => mem_double.mp hx) (pairwise_double (fun _ _ => Nat.le_refl _) h.backOrder n)

theorem answer (h : InStep P p) (c : κ) : InStep P (p.answer c) where
  window := h.window
  within := h.within
  forward := h.forward
  back x hx := by
    obtain hx | hx := List.mem_append.mp hx
    · exact h.back x hx
    · rw [List.mem_singleton] at hx
      subst hx
      exact ⟨(h.window c).1,Nat.le_refl _⟩
  acked c' hc' := by
    obtain ⟨hgot,hback⟩ := h.acked c' hc'
    refine ⟨hgot,fun x hx heq => ?_⟩
    obtain hx | hx := List.mem_append.mp hx
    · exact hback x hx heq
    · rw [List.mem_singleton] at hx
      subst hx
      have hc : c = c' := heq
      show p.out c' < p.got c
      rw [hc,hgot]
      exact Nat.lt_succ_self _
  forwardOrder := h.forwardOrder
  backOrder := by
    refine List.pairwise_append.mpr ⟨h.backOrder,List.pairwise_singleton _ _,fun x hx y hy heq => ?_⟩
    rw [List.mem_singleton] at hy
    subst hy
    have hle := (h.back x hx).2
    rw [heq] at hle
    exact hle
  before := h.before
  after := h.after

section Moves
variable [DecidableEq κ]

theorem advance (h : InStep P p) (hc : p.acked c = true) : InStep P (p.advance c) := by
  obtain ⟨hgot,hback⟩ := h.acked c hc
  have hout : ∀ c', p.out c' ≤ (p.advance c).out c' := by
    intro c'
    by_cases heq : c' = c
    · subst heq
      simp [Pair.advance]
    · simp [Pair.advance,heq]
  have hsame : ∀ c', c' ≠ c → (p.advance c).out c' = p.out c' := by
    intro c' heq
    simp [Pair.advance,heq]
  have hnext : (p.advance c).out c = p.out c + 1 := by simp [Pair.advance]
  refine ⟨fun c' => ?_,h.within,fun x hx => ?_,fun x hx => ?_,fun c' hc' => ?_,h.forwardOrder,
    h.backOrder,fun c' hc' c'' hlt => ?_,h.after⟩
  · show (p.advance c).out c' ≤ p.got c' ∧ p.got c' ≤ (p.advance c).out c' + 1
    by_cases heq : c' = c
    · subst heq
      omega
    · rw [hsame c' heq]
      exact h.window c'
  · obtain ⟨hlow,hhigh,htotal⟩ := h.forward x hx
    exact ⟨hlow,Nat.le_trans hhigh (hout x.1),htotal⟩
  · obtain ⟨hlow,hhigh⟩ := h.back x hx
    by_cases heq : x.1 = c
    · have hlt := hback x hx heq
      refine ⟨?_,hhigh⟩
      rw [heq,hnext]
      exact hlt
    · rw [hsame x.1 heq]
      exact ⟨hlow,hhigh⟩
  · have hne : c' ≠ c := by
      rintro rfl
      simp [Pair.advance] at hc'
    have hold : p.acked c' = true := by simpa [Pair.advance,hne] using hc'
    rw [hsame c' hne]
    exact h.acked c' hold
  · have hdone := h.before c' hc' c'' hlt
    have hne : c'' ≠ c := by
      rintro rfl
      rw [h.not_acked hdone] at hc
      cases hc
    rw [hsame c'' hne]
    exact hdone

/-- Either nothing is taken, or the channel of the message moves up to it. -/
theorem take_cases (got : κ → ℕ) (x : κ × ℕ) (c : κ) :
    Pair.take got x c = got c ∨ c = x.1 ∧ x.2 = got c ∧ Pair.take got x c = x.2 + 1 := by
  unfold Pair.take
  split_ifs with hnext
  · by_cases heq : c = x.1
    · subst heq
      exact .inr ⟨rfl,hnext,by simp⟩
    · exact .inl (by simp [heq])
  · exact .inl rfl

theorem deliver (h : InStep P p) {x : κ × ℕ} {rest : List (κ × ℕ)}
    (hx : p.forward = x::rest) : InStep P (p.deliver x rest) := by
  have hmem : x ∈ p.forward := by rw [hx]; exact List.mem_cons_self
  have hrest : ∀ y ∈ rest, y ∈ p.forward := fun y hy => by rw [hx]; exact List.mem_cons_of_mem x hy
  have horder := h.forwardOrder
  rw [hx,List.pairwise_cons] at horder
  have hx' := h.forward x hmem
  have htake : ∀ c, (p.deliver x rest).got c = p.got c ∨
      c = x.1 ∧ x.2 = p.got c ∧ (p.deliver x rest).got c = x.2 + 1 := take_cases p.got x
  have hnonzero : ∀ c, (p.deliver x rest).got c ≠ 0 → p.got c ≠ 0 ∨ c = x.1 := by
    intro c hc
    obtain hsame | ⟨heq,-,-⟩ := htake c
    · rw [hsame] at hc
      exact .inl hc
    · exact .inr heq
  refine ⟨fun c => ?_,fun c => ?_,fun y hy => ?_,fun y hy => ?_,fun c hc => ?_,horder.2,
    h.backOrder,fun c hc => ?_,fun y hy c hc => ?_⟩
  · show p.out c ≤ (p.deliver x rest).got c ∧ (p.deliver x rest).got c ≤ p.out c + 1
    have hwindow := h.window c
    obtain hsame | ⟨rfl,hnext,hgot⟩ := htake c
    · omega
    · omega
  · have hwithin := h.within c
    obtain hsame | ⟨rfl,hnext,hgot⟩ := htake c
    · omega
    · omega
  · obtain ⟨hlow,hhigh,htotal⟩ := h.forward y (hrest y hy)
    refine ⟨?_,hhigh,htotal⟩
    obtain hsame | ⟨heq,hnext,hgot⟩ := htake y.1
    · omega
    · have hle := (horder.1 y hy).2 heq.symm
      omega
  · obtain ⟨hlow,hhigh⟩ := h.back y hy
    refine ⟨hlow,?_⟩
    obtain hsame | ⟨heq,hnext,hgot⟩ := htake y.1
    · omega
    · omega
  · obtain ⟨hgot,hback⟩ := h.acked c hc
    refine ⟨?_,hback⟩
    show (p.deliver x rest).got c = p.out c + 1
    obtain hsame | ⟨rfl,hnext,-⟩ := htake c
    · rw [hsame]
      exact hgot
    · omega
  · obtain hc | ⟨m,hm⟩ := hc
    · obtain hold | heq := hnonzero c hc
      · exact h.before c (.inl hold)
      · rw [heq]
        exact h.before x.1 (.inr ⟨x.2,hmem⟩)
    · exact h.before c (.inr ⟨m,hrest _ hm⟩)
  · obtain hold | heq := hnonzero c hc
    · exact h.after y (hrest y hy) c hold
    · rw [heq]
      exact (horder.1 y hy).1

theorem confirm (h : InStep P p) {x : κ × ℕ} {rest : List (κ × ℕ)} (hx : p.back = x::rest) :
    InStep P (p.confirm x rest) := by
  have hmem : x ∈ p.back := by rw [hx]; exact List.mem_cons_self
  have hrest : ∀ y ∈ rest, y ∈ p.back := fun y hy => by rw [hx]; exact List.mem_cons_of_mem x hy
  have horder := h.backOrder
  rw [hx,List.pairwise_cons] at horder
  have hlink := h.back_of hrest horder.2
  refine ⟨h.window,h.within,h.forward,hlink.back,fun c hc => ?_,h.forwardOrder,horder.2,
    h.before,h.after⟩
  by_cases hnew : x.2 = p.out x.1 + 1 ∧ c = x.1
  · obtain ⟨hnum,rfl⟩ := hnew
    have hgot := (h.back x hmem).2
    have hwindow := (h.window x.1).2
    refine ⟨?_,fun y hy heq => ?_⟩
    · show p.got x.1 = p.out x.1 + 1
      omega
    · have hle := horder.1 y hy heq.symm
      show p.out x.1 < y.2
      omega
  · have hold : p.acked c = true := by
      unfold Pair.confirm at hc
      dsimp only at hc
      split_ifs at hc with hnum
      · have hne : c ≠ x.1 := fun heq => hnew ⟨hnum,heq⟩
        simpa [hne] using hc
      · exact hc
    exact hlink.acked c hold

end Moves

end InStep

end StopAndWait
end AgbTools
