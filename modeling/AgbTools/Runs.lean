import Mathlib.Data.List.Basic
import Mathlib.Logic.Function.Iterate

/-! Runs of event-driven systems. A system is a total step function; an event that
is not enabled in a state leaves the state as it is. -/
namespace AgbTools
namespace Runs

variable {σ ε α β : Type*}

/-- The state reached from `s` by a list of events. -/
def run (step : σ → ε → σ) (s : σ) (es : List ε) : σ := es.foldl step s

@[simp] theorem run_nil (step : σ → ε → σ) (s : σ) : run step s [] = s := rfl
@[simp] theorem run_cons (step : σ → ε → σ) (s : σ) (e : ε) (es : List ε) :
    run step s (e::es) = run step (step s e) es := rfl
@[simp] theorem run_append (step : σ → ε → σ) (s : σ) (es fs : List ε) :
    run step s (es++fs) = run step (run step s es) fs := List.foldl_append

/-- What every step keeps holds after every run. -/
theorem run_invariant {step : σ → ε → σ} {inv : σ → Prop}
    (hstep : ∀ s e, inv s → inv (step s e)) {s : σ} (hs : inv s) (es : List ε) :
    inv (run step s es) := by
  induction es generalizing s with
  | nil => exact hs
  | cons e es ih => exact ih (hstep s e hs)

/-- A run that is longer than the measure of its first state ends, when each step ends it or lowers
the measure, and what has ended stays so. -/
theorem run_ends {step : σ → ε → σ} {inv done : σ → Prop} {measure : σ → ℕ}
    (hdone : ∀ s e, done s → done (step s e))
    (hstep : ∀ s e, inv s → done (step s e) ∨ inv (step s e) ∧ measure (step s e) < measure s)
    {s : σ} (hs : inv s) {es : List ε} (h : measure s < es.length) : done (run step s es) := by
  induction es generalizing s with
  | nil => simp at h
  | cons e es ih =>
    rcases hstep s e hs with hend | ⟨hinv,hlt⟩
    · exact run_invariant hdone hend es
    · simp only [List.length_cons] at h
      exact ih hinv (by omega)

/-- The first `n` events of an unending schedule. -/
def upTo (es : ℕ → ε) (n : ℕ) : List ε := (List.range n).map es

theorem run_upTo_succ (step : σ → ε → σ) (s : σ) (es : ℕ → ε) (n : ℕ) :
    run step s (upTo es (n+1)) = step (run step s (upTo es n)) (es n) := by
  simp [upTo,List.range_succ]

/-- Every event comes again and again. -/
def Fair (es : ℕ → ε) : Prop := ∀ e n, ∃ m, n ≤ m ∧ es m = e

/-- A fair run ends when in every state some event lowers the measure, and the others neither raise
it nor change which event does. -/
theorem fair_ends {step : σ → ε → σ} {inv done : σ → Prop} {measure : σ → ℕ} {helpful : σ → ε}
    (hinv : ∀ s e, inv s → inv (step s e))
    (hstep : ∀ s e, inv s → ¬done s → measure (step s e) < measure s ∨
      e ≠ helpful s ∧ measure (step s e) = measure s ∧ helpful (step s e) = helpful s)
    {s : σ} (hs : inv s) {es : ℕ → ε} (hfair : Fair es) : ∃ n, done (run step s (upTo es n)) := by
  have hreached (n : ℕ) : inv (run step s (upTo es n)) := run_invariant hinv hs _
  by_contra hnot
  rw [not_exists] at hnot
  have hlower (d : ℕ) : ∀ n, es (n+d) = helpful (run step s (upTo es n)) →
      ∃ n', measure (run step s (upTo es n')) < measure (run step s (upTo es n)) := by
    induction d with
    | zero =>
      intro n hn
      rcases hstep _ (es n) (hreached n) (hnot n) with hlt | ⟨hne,-,-⟩
      · exact ⟨n+1,by rwa [run_upTo_succ]⟩
      · exact absurd hn hne
    | succ d ih =>
      intro n hn
      rcases hstep _ (es n) (hreached n) (hnot n) with hlt | ⟨-,hsame,hhelp⟩
      · exact ⟨n+1,by rwa [run_upTo_succ]⟩
      · rw [← run_upTo_succ step] at hsame hhelp
        obtain ⟨n',hlt⟩ := ih (n+1) (by rw [hhelp,← hn]; congr 1; omega)
        exact ⟨n',hsame ▸ hlt⟩
  have hdescent (k : ℕ) : ∀ n, measure (run step s (upTo es n)) ≠ k := by
    induction k using Nat.strongRecOn with
    | _ k ih =>
      intro n hn
      obtain ⟨m,hm,hhelp⟩ := hfair (helpful (run step s (upTo es n))) n
      obtain ⟨n',hlt⟩ := hlower (m-n) n (by rw [← hhelp]; congr 1; omega)
      exact ih _ (hn ▸ hlt) n' rfl
  exact hdescent _ 0 rfl

/-- Every event of the run is admitted by the state it meets. -/
def Along (step : σ → ε → σ) (ok : σ → ε → Prop) : σ → List ε → Prop
  | _, [] => True
  | s, e::es => ok s e ∧ Along step ok (step s e) es

instance Along.decidable (step : σ → ε → σ) (ok : σ → ε → Prop) [∀ s e, Decidable (ok s e)] :
    (s : σ) → (es : List ε) → Decidable (Along step ok s es)
  | _, [] => .isTrue trivial
  | s, e::es => @instDecidableAnd _ _ _ (Along.decidable step ok (step s e) es)

theorem along_of_forall {step : σ → ε → σ} {ok : ε → Prop} {s : σ} {es : List ε}
    (h : ∀ e ∈ es, ok e) : Along step (fun _ e => ok e) s es := by
  induction es generalizing s with
  | nil => trivial
  | cons e es ih => exact ⟨h e (List.mem_cons_self ..),ih fun e' he => h e' (List.mem_cons_of_mem _ he)⟩

/-- Guarded form of `run_invariant`: only admitted steps have to keep the invariant. -/
theorem Along.invariant {step : σ → ε → σ} {ok : σ → ε → Prop} {inv : σ → Prop}
    (hstep : ∀ s e, inv s → ok s e → inv (step s e)) {s : σ} {es : List ε}
    (hs : inv s) (h : Along step ok s es) : inv (run step s es) := by
  induction es generalizing s with
  | nil => exact hs
  | cons e es ih => exact ih (hstep s e hs h.1) h.2

/-- What the steps of a run record, in order. -/
def trace (step : σ → ε → σ) (log : σ → ε → List α) : σ → List ε → List α
  | _, [] => []
  | s, e::es => log s e ++ trace step log (step s e) es

/-- `Along.invariant` with a record: an admitted run keeps the invariant and records only what
its single steps may record. -/
theorem Along.trace {step : σ → ε → σ} {ok : σ → ε → Prop} (inv : σ → Prop)
    {log : σ → ε → List α} {p : α → Prop}
    (hstep : ∀ s e, inv s → ok s e → inv (step s e) ∧ ∀ x ∈ log s e, p x) {s : σ} {es : List ε}
    (hs : inv s) (h : Along step ok s es) :
    inv (run step s es) ∧ ∀ x ∈ Runs.trace step log s es, p x := by
  induction es generalizing s with
  | nil =>
    refine ⟨hs,fun x hx => ?_⟩
    cases hx
  | cons e es ih =>
    obtain ⟨hnext,hlog⟩ := hstep s e hs h.1
    obtain ⟨hrun,hrest⟩ := ih hnext h.2
    refine ⟨hrun,fun x hx => ?_⟩
    obtain hx | hx := List.mem_append.mp hx
    · exact hlog x hx
    · exact hrest x hx

theorem trace_append (step : σ → ε → σ) (log : σ → ε → List α) (s : σ) (es fs : List ε) :
    trace step log s (es++fs) = trace step log s es ++ trace step log (run step s es) fs := by
  induction es generalizing s with
  | nil => rfl
  | cons e es ih => simp [trace,ih]

/-- The run of `es` splits after its last state with `p`: `before` ends in it, `since` has none. -/
structure SinceLast (step : σ → ε → σ) (p : σ → Prop) (s : σ) (es before since : List ε) : Prop where
  split : es = before ++ since
  last : p (run step s before)
  since : ∀ fs, fs ≠ [] → fs <+: since → ¬p (run step (run step s before) fs)

theorem SinceLast.here {step : σ → ε → σ} {p : σ → Prop} {s : σ} {es : List ε}
    (h : p (run step s es)) : SinceLast step p s es es [] where
  split := (List.append_nil es).symm
  last := h
  since _ hne hpre := absurd (List.prefix_nil.mp hpre) hne

theorem SinceLast.snoc {step : σ → ε → σ} {p : σ → Prop} {s : σ} {es before since : List ε} {e : ε}
    (h : SinceLast step p s es before since) (hnot : ¬p (run step s (es++[e]))) :
    SinceLast step p s (es++[e]) before (since++[e]) where
  split := by rw [h.split,List.append_assoc]
  last := h.last
  since fs hne hpre := by
    obtain rfl | hpre := List.prefix_concat_iff.mp hpre
    · rwa [← run_append,← List.append_assoc,← h.split]
    · exact h.since fs hne hpre

/-- What a run changes, one of its steps has recorded. -/
theorem trace_of_changed {step : σ → ε → σ} {log : σ → ε → List α} {p : α → Prop} {f : σ → β}
    (hstep : ∀ s e, f (step s e) ≠ f s → ∃ x ∈ log s e, p x) {s : σ} {es : List ε}
    (h : f (run step s es) ≠ f s) : ∃ x ∈ trace step log s es, p x := by
  induction es generalizing s with
  | nil => exact absurd rfl h
  | cons e es ih =>
    by_cases hrest : f (run step (step s e) es) = f (step s e)
    · rw [run_cons,hrest] at h
      obtain ⟨x,hx,hp⟩ := hstep s e h
      exact ⟨x,List.mem_append_left _ hx,hp⟩
    · obtain ⟨x,hx,hp⟩ := ih hrest
      exact ⟨x,List.mem_append_right _ hx,hp⟩

/-- A machine that steps on its own comes from `s` to a state with `Q`. -/
def Reaches (next : σ → σ) (s : σ) (Q : σ → Prop) : Prop := ∃ n : ℕ, Q (next^[n] s)

theorem Reaches.done {next : σ → σ} {s : σ} {Q : σ → Prop} (h : Q s) : Reaches next s Q := ⟨0,h⟩

theorem Reaches.step {next : σ → σ} {s : σ} {Q : σ → Prop} (h : Reaches next (next s) Q) :
    Reaches next s Q := by
  obtain ⟨n,hn⟩ := h
  exact ⟨n+1,hn⟩

theorem Reaches.bind {next : σ → σ} {s : σ} {Q R : σ → Prop} (h : Reaches next s Q)
    (hQ : ∀ t, Q t → Reaches next t R) : Reaches next s R := by
  obtain ⟨n,hn⟩ := h
  obtain ⟨m,hm⟩ := hQ _ hn
  refine ⟨m+n,?_⟩
  rwa [Function.iterate_add_apply]

/-- A machine that comes to rest does so in one state only. -/
theorem Reaches.rest {next : σ → σ} {s t : σ} {Q : σ → Prop} (ht : Reaches next s (· = t))
    (hrest : next t = t) (hQ : Reaches next s Q) (hQrest : ∀ u, Q u → next u = u) : Q t := by
  obtain ⟨n,hn⟩ := ht
  obtain ⟨m,hm⟩ := hQ
  have hiterate : next^[m+n] s = next^[n+m] s := by rw [Nat.add_comm]
  rw [Function.iterate_add_apply,Function.iterate_add_apply next n m,hn,
    Function.iterate_fixed hrest,Function.iterate_fixed (hQrest _ hm)] at hiterate
  rwa [hiterate]

/-- What a machine passes on the way to its rest. -/
theorem Reaches.through {next : σ → σ} {s a t : σ} (ha : Reaches next s (· = a))
    (ht : Reaches next s (· = t)) (hrest : next t = t) : Reaches next a (· = t) := by
  obtain ⟨n,hn⟩ := ha
  obtain ⟨m,hm⟩ := ht
  refine ⟨m,?_⟩
  rw [← hn,← Function.iterate_add_apply,Nat.add_comm,Function.iterate_add_apply,hm]
  exact Function.iterate_fixed hrest n

/-- Two machines in lockstep: when one comes to rest, so does the other one. -/
theorem Reaches.lockstep {τ : Type*} {next : σ → σ} {next' : τ → τ} {rest : σ → Prop}
    {rest' : τ → Prop} {r q : σ → τ → Prop} (hrest : ∀ t, rest t → next t = t)
    (hrun : ∀ s p, r s p → ¬rest s)
    (hstep : ∀ s p, r s p → r (next s) (next' p) ∨ ∃ t u, rest t ∧ rest' u ∧
      Reaches next s (· = t) ∧ Reaches next' p (· = u) ∧ q t u)
    {s t : σ} {p : τ} (h : r s p) (hs : Reaches next s (· = t)) (ht : rest t) :
    ∃ u, rest' u ∧ Reaches next' p (· = u) ∧ q t u := by
  obtain ⟨n,hn⟩ := hs
  induction n generalizing s p with
  | zero =>
    obtain rfl : s = t := hn
    exact absurd ht (hrun s p h)
  | succ n ih =>
    obtain hnext | ⟨t',u,ht',hu,hst,hpu,hq⟩ := hstep s p h
    · obtain ⟨u,hu,hpu,hq⟩ := ih hnext hn
      exact ⟨u,hu,Reaches.step hpu,hq⟩
    · have hsame : t' = t :=
        hst.rest (Q := (· = t)) (hrest t' ht') ⟨n+1,hn⟩ fun v hv => by rw [hv,hrest t ht]
      exact ⟨u,hu,hpu,hsame ▸ hq⟩

end Runs
end AgbTools
