import Mathlib.Data.Fintype.Card
import Mathlib.Data.List.Nodup
import Mathlib.Logic.Function.Basic
import Mathlib.Tactic.Common

/-! Doubly linked lists threaded through a fixed set of nodes, one list for every owner, with a
pointer from each node to its owner. -/
namespace AgbTools
namespace OwnedLists

variable {N T : Type*}

structure Links (N T : Type*) where
  next : N → Option N
  prev : N → Option N
  owner : N → Option T
  head : T → Option N

section Operations

variable [DecidableEq N] [DecidableEq T]

/-- Take a node out of the list of its owner; its own links stay behind. -/
def Links.unlink (L : Links N T) (c : N) : Links N T :=
  match L.owner c with
  | none => L
  | some t =>
    { next := match L.prev c with
        | some p => Function.update L.next p (L.next c)
        | none => L.next
      head := match L.prev c with
        | some _ => L.head
        | none => Function.update L.head t (L.next c)
      prev := match L.next c with
        | some q => Function.update L.prev q (L.prev c)
        | none => L.prev
      owner := Function.update L.owner c none }

/-- Put a node in front of the list of an owner. -/
def Links.push (L : Links N T) (t : T) (c : N) : Links N T :=
  { next := Function.update L.next c (L.head t)
    prev := match L.head t with
      | some d => Function.update (Function.update L.prev c none) d (some c)
      | none => Function.update L.prev c none
    head := Function.update L.head t (some c)
    owner := Function.update L.owner c (some t) }

/-- Forget the owner of a node without touching any link. -/
def Links.disown (L : Links N T) (c : N) : Links N T :=
  { L with owner := Function.update L.owner c none }

def Links.setHead (L : Links N T) (t : T) (h : Option N) : Links N T :=
  { L with head := Function.update L.head t h }

end Operations

section Linked

/-- The nodes of `l` are linked in this order, from `start` on and with `p` before the first. -/
def Linked (L : Links N T) : Option N → Option N → List N → Prop
  | _, start, [] => start = none
  | p, start, c::l => start = some c ∧ L.prev c = p ∧ Linked L (some c) (L.next c) l

variable {L L' : Links N T} {p start : Option N} {l : List N} {c : N}

theorem Linked.head (h : Linked L p start l) : start = l.head? := by
  cases l with
  | nil => exact h
  | cons c l => exact h.1

theorem Linked.congr (h : Linked L p start l) (hn : ∀ c ∈ l, L'.next c = L.next c)
    (hp : ∀ c ∈ l, L'.prev c = L.prev c) : Linked L' p start l := by
  induction l generalizing p start with
  | nil => exact h
  | cons c l ih =>
    obtain ⟨hs,hprev,hl⟩ := h
    refine ⟨hs,(hp c List.mem_cons_self).trans hprev,?_⟩
    rw [hn c List.mem_cons_self]
    exact ih hl (fun d hd => hn d (List.mem_cons_of_mem c hd))
      fun d hd => hp d (List.mem_cons_of_mem c hd)

theorem Linked.prev_of_start (h : Linked L p (some c) l) : L.prev c = p := by
  cases l with
  | nil => cases h
  | cons d l =>
    obtain ⟨hs,hprev,_⟩ := h
    cases hs
    exact hprev

theorem Linked.mem_of_start (h : Linked L p (some c) l) : c ∈ l := by
  have hhead := h.head.symm
  exact List.mem_of_mem_head? hhead

theorem Linked.next_of_append {before after : List N}
    (h : Linked L p start (before++c::after)) : L.next c = after.head? := by
  induction before generalizing p start with
  | nil => exact Linked.head h.2.2
  | cons d before ih => exact ih h.2.2

theorem Linked.next_mem (h : Linked L p start l) (hc : c ∈ l) {d : N} (hd : L.next c = some d) :
    d ∈ l := by
  obtain ⟨before,after,rfl⟩ := List.append_of_mem hc
  have hhead := h.next_of_append.symm.trans hd
  have hmem : d ∈ after := List.mem_of_mem_head? hhead
  simp [hmem]

theorem Linked.prev_mem (h : Linked L p start l) (hc : c ∈ l) :
    start = some c ∧ L.prev c = p ∨ ∃ d ∈ l, L.prev c = some d := by
  induction l generalizing p start with
  | nil => cases hc
  | cons d l ih =>
    obtain ⟨hs,hprev,hl⟩ := h
    rcases List.mem_cons.mp hc with rfl | hc
    · exact .inl ⟨hs,hprev⟩
    · rcases ih hl hc with ⟨_,hd⟩ | ⟨e,he,hd⟩
      · exact .inr ⟨d,List.mem_cons_self,hd⟩
      · exact .inr ⟨e,List.mem_cons_of_mem d he,hd⟩

theorem Linked.prev_ne_self (h : Linked L p start l) (hnd : l.Nodup) (hp : p ≠ some c)
    (hc : c ∈ l) : L.prev c ≠ some c := by
  induction l generalizing p start with
  | nil => cases hc
  | cons d l ih =>
    obtain ⟨_,hprev,hl⟩ := h
    obtain ⟨hd,hnd⟩ := List.nodup_cons.mp hnd
    rcases List.mem_cons.mp hc with rfl | hc
    · rwa [hprev]
    · have hdc : some d ≠ some c := fun he => hd (Option.some.inj he ▸ hc)
      exact ih hl hnd hdc hc

/-- A node whose predecessor lies before the list is the first of the list. -/
theorem Linked.prev_iff {d : N} (h : Linked L (some d) start l) (hc : c ∈ l)
    (hd : d ∉ l) : L.prev c = some d ↔ start = some c := by
  constructor
  · intro hprev
    rcases h.prev_mem hc with ⟨hs,_⟩ | ⟨e,he,hprev'⟩
    · exact hs
    · rw [hprev] at hprev'
      cases hprev'
      exact absurd he hd
  · intro hs
    subst hs
    exact h.prev_of_start

end Linked

section Unlink

variable [DecidableEq N] [DecidableEq T] {L : Links N T} {t : T} {c : N}

theorem unlink_none (h : L.owner c = none) : L.unlink c = L := by
  unfold Links.unlink
  rw [h]

theorem unlink_next (h : L.owner c = some t) (x : N) :
    (L.unlink c).next x = if L.prev c = some x then L.next c else L.next x := by
  unfold Links.unlink
  rw [h]
  cases hp : L.prev c with
  | none => simp
  | some d => by_cases hx : x = d <;> simp [hx,eq_comm]

theorem unlink_prev (h : L.owner c = some t) (x : N) :
    (L.unlink c).prev x = if L.next c = some x then L.prev c else L.prev x := by
  unfold Links.unlink
  rw [h]
  cases hn : L.next c with
  | none => simp
  | some d => by_cases hx : x = d <;> simp [hx,eq_comm]

theorem unlink_head (h : L.owner c = some t) (u : T) :
    (L.unlink c).head u = if u = t ∧ L.prev c = none then L.next c else L.head u := by
  unfold Links.unlink
  rw [h]
  cases hp : L.prev c with
  | none => by_cases hu : u = t <;> simp [hu]
  | some d => simp

theorem unlink_owner (L : Links N T) (c x : N) :
    (L.unlink c).owner x = if x = c then none else L.owner x := by
  cases h : L.owner c with
  | none =>
    rw [unlink_none h]
    by_cases hx : x = c
    · simp [hx,h]
    · simp [hx]
  | some t =>
    unfold Links.unlink
    rw [h]
    by_cases hx : x = c <;> simp [hx]

/-- The links around a node of a list after it was taken out. -/
theorem Linked.erase {p start : Option N} {l : List N} (hl : Linked L p start l) (hnd : l.Nodup)
    (hc : c ∈ l) (hp : ∀ x, p = some x → x ∉ l) (ho : L.owner c = some t) :
    Linked (L.unlink c) p (if start = some c then L.next c else start) (l.erase c) := by
  induction l generalizing p start with
  | nil => cases hc
  | cons x l ih =>
    obtain ⟨hs,hprev,hlink⟩ := hl
    obtain ⟨hx,hnd'⟩ := List.nodup_cons.mp hnd
    by_cases hxc : x = c
    · subst hxc
      rw [List.erase_cons_head,if_pos hs]
      -- the successor takes over the predecessor, everything behind it is untouched
      have hnext (y : N) (hy : y ∈ l) : (L.unlink x).next y = L.next y := by
        rw [unlink_next ho,if_neg]
        intro h
        exact hp y (hprev.symm.trans h) (List.mem_cons_of_mem x hy)
      cases l with
      | nil => exact hlink
      | cons q l =>
        obtain ⟨hq,hqp,hql⟩ := hlink
        have hq' := (List.nodup_cons.mp hnd').1
        refine ⟨hq,?_,?_⟩
        · rw [unlink_prev ho,if_pos hq,hprev]
        · rw [hnext q List.mem_cons_self]
          refine hql.congr (fun y hy => hnext y (List.mem_cons_of_mem q hy)) fun y hy => ?_
          rw [unlink_prev ho,if_neg]
          intro h
          rw [hq] at h
          cases h
          exact hq' hy
    · have hc' : c ∈ l := (List.mem_cons.mp hc).resolve_left (Ne.symm hxc)
      have hrec := ih hlink hnd' hc' (by intro y hy; cases hy; exact hx)
      have hstart : start ≠ some c := by
        rw [hs]
        simpa using hxc
      rw [List.erase_cons_tail (by simpa using hxc),if_neg hstart]
      refine ⟨hs,?_,?_⟩
      · rw [unlink_prev ho,if_neg,hprev]
        intro h
        exact hx (hlink.next_mem hc' h)
      · rw [unlink_next ho]
        have hiff := hlink.prev_iff hc' hx
        by_cases hh : L.next x = some c
        · rw [if_pos (hiff.mpr hh)]
          rwa [if_pos hh] at hrec
        · rw [if_neg fun h => hh (hiff.mp h)]
          rwa [if_neg hh] at hrec

end Unlink

section Owned

/-- Every owner has a list: its members are exactly the nodes that point to the owner, and the
list of a live owner is linked from its head. Owners that are not live own nothing. -/
structure Owned (L : Links N T) (live : T → Prop) (lists : T → List N) : Prop where
  mem : ∀ t c, c ∈ lists t ↔ L.owner c = some t
  nodup : ∀ t, (lists t).Nodup
  linked : ∀ t, live t → Linked L none (L.head t) (lists t)
  empty : ∀ t, ¬ live t → lists t = []

variable {L L' : Links N T} {live live' : T → Prop} {lists lists' : T → List N} {t u : T} {c : N}

theorem Owned.live_of_mem (h : Owned L live lists) (hc : c ∈ lists t) : live t := by
  by_contra hl
  rw [h.empty t hl] at hc
  cases hc

theorem Owned.eq_of_mem (h : Owned L live lists) (ht : c ∈ lists t) (hu : c ∈ lists u) : t = u := by
  have h₁ := (h.mem t c).mp ht
  have h₂ := (h.mem u c).mp hu
  exact Option.some.inj (h₁.symm.trans h₂)

theorem Owned.length_le [Fintype N] (h : Owned L live lists) (t : T) :
    (lists t).length ≤ Fintype.card N :=
  (h.nodup t).length_le_card

/-- An owner without nodes may come to life or leave it, as long as its head says so. -/
theorem Owned.relive (h : Owned L live lists) (he : lists t = []) (hlive : ∀ u, u ≠ t → (live' u ↔ live u))
    (hn : L'.next = L.next) (hp : L'.prev = L.prev) (ho : L'.owner = L.owner)
    (hh : ∀ u, u ≠ t → L'.head u = L.head u) (ht : live' t → L'.head t = none) :
    Owned L' live' lists := by
  refine ⟨?_,h.nodup,?_,?_⟩
  · rw [ho]
    exact h.mem
  · intro u hu
    by_cases hut : u = t
    · subst hut
      rw [he]
      exact ht hu
    · rw [hh u hut]
      exact (h.linked u ((hlive u hut).mp hu)).congr (by simp [hn]) (by simp [hp])
  · intro u hu
    by_cases hut : u = t
    · rw [hut,he]
    · exact h.empty u fun hl => hu ((hlive u hut).mpr hl)

variable [DecidableEq N] [DecidableEq T]

theorem Owned.unlink (h : Owned L live lists) (c : N) :
    Owned (L.unlink c) live fun t => (lists t).erase c := by
  cases ho : L.owner c with
  | none =>
    have hnot (t : T) : c ∉ lists t := by
      rw [h.mem,ho]
      simp
    have hsame : (fun t => (lists t).erase c) = lists := by
      funext t
      exact List.erase_of_not_mem (hnot t)
    rw [unlink_none ho,hsame]
    exact h
  | some t =>
    have hc : c ∈ lists t := (h.mem t c).mpr ho
    have hlink := h.linked t (h.live_of_mem hc)
    refine ⟨?_,fun u => (h.nodup u).erase c,?_,?_⟩
    · intro u x
      rw [(h.nodup u).mem_erase_iff,unlink_owner,h.mem]
      by_cases hx : x = c <;> simp [hx]
    · intro u hu
      by_cases hut : u = t
      · subst hut
        have herase := hlink.erase (h.nodup u) hc (by simp) ho
        rw [unlink_head ho]
        rcases hlink.prev_mem hc with ⟨hs,hp⟩ | ⟨d,hd,hp⟩
        · rw [if_pos ⟨rfl,hp⟩]
          rwa [if_pos hs] at herase
        · have hs : L.head u ≠ some c := by
            intro hs
            rw [hs] at hlink
            simp [hlink.prev_of_start] at hp
          rw [if_neg (by simp [hp])]
          rwa [if_neg hs] at herase
      · have hnot : c ∉ lists u := fun hcu => hut (h.eq_of_mem hcu hc)
        rw [List.erase_of_not_mem hnot,unlink_head ho,if_neg (by simp [hut])]
        refine (h.linked u hu).congr (fun x hx => ?_) fun x hx => ?_
        · rw [unlink_next ho,if_neg]
          intro hp
          rcases hlink.prev_mem hc with ⟨_,hp'⟩ | ⟨d,hd,hp'⟩
          · simp [hp'] at hp
          · rw [hp'] at hp
            cases hp
            exact hut (h.eq_of_mem hx hd)
        · rw [unlink_prev ho,if_neg]
          intro hn
          exact hut (h.eq_of_mem hx (hlink.next_mem hc hn))
    · intro u hu
      rw [h.empty u hu]
      rfl

/-- A node keeps its own link when it is taken out, so a walk can go on from it. -/
theorem Owned.unlink_next_self (h : Owned L live lists) (hc : c ∈ lists t) :
    (L.unlink c).next c = L.next c := by
  have hlink := h.linked t (h.live_of_mem hc)
  have hprev := hlink.prev_ne_self (h.nodup t) (by simp) hc
  rw [unlink_next ((h.mem t c).mp hc),if_neg hprev]

theorem push_next {x : N} (hx : x ≠ c) : (L.push t c).next x = L.next x := by
  simp [Links.push,hx]

theorem push_prev {x : N} (hx : x ≠ c) (hh : L.head t ≠ some x) :
    (L.push t c).prev x = L.prev x := by
  unfold Links.push
  cases hd : L.head t with
  | none => simp [hx]
  | some d =>
    have hxd : x ≠ d := fun he => hh (by rw [hd,he])
    simp [hx,hxd]

/-- A list without the new node and without the old head stays as it is. -/
theorem Linked.push_apart {p start : Option N} {l : List N} (h : Linked L p start l) (hc : c ∉ l)
    (hhead : ∀ x ∈ l, L.head t ≠ some x) : Linked (L.push t c) p start l := by
  have hne (x : N) (hx : x ∈ l) : x ≠ c := fun he => hc (he ▸ hx)
  exact h.congr (fun x hx => push_next (hne x hx)) fun x hx => push_prev (hne x hx) (hhead x hx)

theorem Linked.push {l : List N} (h : Linked L none (L.head t) l) (hnd : l.Nodup) (hc : c ∉ l) :
    Linked (L.push t c) none ((L.push t c).head t) (c::l) := by
  have hhead : L.head t ≠ some c := by
    intro hs
    rw [hs] at h
    exact hc h.mem_of_start
  refine ⟨by simp [Links.push],?_,?_⟩
  · unfold Links.push
    cases hd : L.head t with
    | none => simp
    | some d =>
      have hcd : c ≠ d := fun he => hhead (by rw [hd,he])
      simp [hcd]
  · have hnext : (L.push t c).next c = L.head t := by simp [Links.push]
    rw [hnext]
    cases l with
    | nil => exact h
    | cons d l =>
      obtain ⟨hd,-,hl⟩ := h
      obtain ⟨hdl,-⟩ := List.nodup_cons.mp hnd
      obtain ⟨hcd,hcl⟩ := not_or.mp (mt List.mem_cons.mpr hc)
      refine ⟨hd,by simp [Links.push,hd],?_⟩
      rw [push_next (Ne.symm hcd)]
      refine hl.push_apart hcl fun x hx hh => ?_
      rw [hd] at hh
      cases hh
      exact hdl hx

theorem Owned.push (h : Owned L live lists) (hc : L.owner c = none) (ht : live t) :
    Owned (L.push t c) live (Function.update lists t (c::lists t)) := by
  have hnot (u : T) : c ∉ lists u := by
    rw [h.mem,hc]
    simp
  have hlink := h.linked t ht
  refine ⟨?_,?_,?_,?_⟩
  · intro u x
    by_cases hx : x = c
    · subst hx
      by_cases hut : u = t
      · simp [Links.push,hut]
      · simp [Links.push,hut,hnot u,Ne.symm hut]
    · by_cases hut : u = t
      · subst hut
        simp [Links.push,hx,h.mem]
      · simp [Links.push,hx,hut,h.mem]
  · intro u
    by_cases hut : u = t
    · subst hut
      simpa using ⟨hnot u,h.nodup u⟩
    · simpa [hut] using h.nodup u
  · intro u hu
    by_cases hut : u = t
    · subst hut
      rw [Function.update_self]
      exact hlink.push (h.nodup u) (hnot u)
    · have hhead : (L.push t c).head u = L.head u := by simp [Links.push,hut]
      rw [Function.update_of_ne hut,hhead]
      refine (h.linked u hu).push_apart (hnot u) fun x hx hh => ?_
      rw [hh] at hlink
      exact hut (h.eq_of_mem hx hlink.mem_of_start)
  · intro u hu
    by_cases hut : u = t
    · exact absurd (hut ▸ ht) hu
    · rw [Function.update_of_ne hut]
      exact h.empty u hu

/-- All nodes of one owner are disowned and its head is cleared, the links stay behind. -/
theorem Owned.drop (h : Owned L live lists) (hn : L'.next = L.next) (hp : L'.prev = L.prev)
    (ho : ∀ c, L'.owner c = if c ∈ lists t then none else L.owner c)
    (hh : L'.head = Function.update L.head t none) :
    Owned L' live (Function.update lists t []) := by
  refine ⟨?_,?_,?_,?_⟩
  · intro u c
    rw [ho]
    by_cases hut : u = t
    · subst hut
      by_cases hc : c ∈ lists u
      · simp [hc]
      · simpa [hc] using (h.mem u c).not.mp hc
    · rw [Function.update_of_ne hut,h.mem]
      by_cases hc : c ∈ lists t
      · have hc' := (h.mem t c).mp hc
        simp [hc,hc',Ne.symm hut]
      · simp [hc]
  · intro u
    by_cases hut : u = t
    · simp [hut]
    · simpa [hut] using h.nodup u
  · intro u hu
    by_cases hut : u = t
    · subst hut
      simp [hh,Linked]
    · rw [hh,Function.update_of_ne hut,Function.update_of_ne hut]
      exact (h.linked u hu).congr (by simp [hn]) (by simp [hp])
  · intro u hu
    by_cases hut : u = t
    · simp [hut]
    · simpa [hut] using h.empty u hu

end Owned

section Walks

variable {σ : Type*}

/-- A walk along a list: `visit` handles a node and says whether to leave, then the next node is
read from the new state. Without fuel the walk is given up. -/
def walk (visit : σ → N → σ × Bool) (next : σ → N → Option N) : ℕ → σ → Option N → Option σ
  | _, s, none => some s
  | 0, _, some _ => none
  | k+1, s, some c =>
    match visit s c with
    | (s,true) => some s
    | (s,false) => walk visit next k s (next s c)

/-- What every visit relates, a whole walk relates. -/
theorem walk_relates {visit : σ → N → σ × Bool} {next : σ → N → Option N} {R : σ → σ → Prop}
    (hrefl : ∀ s, R s s) (htrans : ∀ s s' s'', R s s' → R s' s'' → R s s'')
    (hvisit : ∀ s c, R s (visit s c).1) {k : ℕ} {s s' : σ} {start : Option N}
    (h : walk visit next k s start = some s') : R s s' := by
  induction k generalizing s start with
  | zero =>
    cases start with
    | none => exact Option.some.inj h ▸ hrefl s
    | some c => cases h
  | succ k ih =>
    cases start with
    | none => exact Option.some.inj h ▸ hrefl s
    | some c =>
      have hc := hvisit s c
      simp only [walk] at h
      split at h
      · rename_i x heq
        cases h
        rwa [heq] at hc
      · rename_i x heq
        rw [heq] at hc
        exact htrans s x s' hc (ih h)

/-- A walk that meets the remaining nodes of a list one after the other ends. -/
theorem walk_ends {visit : σ → N → σ × Bool} {next : σ → N → Option N}
    {inv : σ → List N → Prop} {post : σ → Prop}
    (hleave : ∀ s c l, inv s (c::l) → (visit s c).2 = true → post (visit s c).1)
    (hstay : ∀ s c l, inv s (c::l) → (visit s c).2 = false →
      inv (visit s c).1 l ∧ next (visit s c).1 c = l.head?)
    (hend : ∀ s, inv s [] → post s) {k : ℕ} {s : σ} {l : List N} (hs : inv s l)
    (hk : l.length ≤ k) : ∃ s', walk visit next k s l.head? = some s' ∧ post s' := by
  induction l generalizing k s with
  | nil =>
    cases k with
    | zero => exact ⟨s,rfl,hend s hs⟩
    | succ k => exact ⟨s,rfl,hend s hs⟩
  | cons c l ih =>
    cases k with
    | zero => simp at hk
    | succ k =>
      simp only [List.head?_cons,walk]
      cases hv : visit s c with
      | mk s₁ leave =>
        cases leave with
        | true =>
          have := hleave s c l hs (by rw [hv])
          rw [hv] at this
          exact ⟨s₁,rfl,this⟩
        | false =>
          have hi := hstay s c l hs (by rw [hv])
          rw [hv] at hi
          obtain ⟨hi,hnext⟩ := hi
          simp only
          rw [hnext]
          exact ih hi (by simpa using hk)

end Walks

end OwnedLists
end AgbTools
