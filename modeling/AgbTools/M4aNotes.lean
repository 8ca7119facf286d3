import Mathlib.Data.Prod.Lex
import AgbTools.LastMin
import AgbTools.M4aSequencer

/-! The channel that a note gets: the search of `ply_note` over the direct-sound channels. -/
namespace AgbTools
namespace M4a
namespace Sequencer

open OwnedLists LastMin

section Search
variable {s : State} {t : ℕ} {priority : Byte} {cs : List ChanId} {c : ChanId}

def State.Releasing (s : State) (c : ChanId) : Prop := (s.chan c).status &&& 0x40 ≠ 0

/-- The note in the channel is not preferred to a new one of track `t`. -/
def State.Yields (s : State) (t : ℕ) (priority : Byte) (c : ChanId) : Prop :=
  (s.chan c).priority < priority ∨ (s.chan c).priority = priority ∧ t ≤ s.ownerAddress c

/-- The lowest priority comes first, then the highest address of the owner. -/
def State.rank (s : State) (c : ChanId) : ℕ ×ₗ ℕᵒᵈ :=
  toLex ((s.chan c).priority.toNat,OrderDual.toDual (s.ownerAddress c))

instance (s : State) (c : ChanId) : Decidable (s.Releasing c) := inferInstanceAs (Decidable (_ ≠ _))

instance (s : State) (t : ℕ) (priority : Byte) (c : ChanId) : Decidable (s.Yields t priority c) :=
  inferInstanceAs (Decidable (_ ∨ _))

/-- The rank of the candidate, or of the new note while there is none. -/
def Candidate.rank (a : Candidate) : ℕ ×ₗ ℕᵒᵈ := toLex (a.priority.toNat,OrderDual.toDual a.owner)

theorem rank_le_iff (a : Candidate) (s : State) (c : ChanId) :
    s.rank c ≤ a.rank ↔ (s.chan c).priority < a.priority ∨
      (s.chan c).priority = a.priority ∧ a.owner ≤ s.ownerAddress c := by
  rw [State.rank,Candidate.rank,Prod.Lex.toLex_le_toLex,BitVec.lt_def,← BitVec.toNat_inj]
  exact Iff.rfl

/-- What the comparison does: a channel that is not behind the candidate replaces it. -/
theorem Candidate.compare_eq (a : Candidate) (s : State) (c : ChanId) :
    a.compare s c = if s.rank c ≤ a.rank then
      { a with priority := (s.chan c).priority, owner := s.ownerAddress c, best := some c } else a := by
  simp only [rank_le_iff]
  unfold Candidate.compare
  dsimp only
  by_cases hlt : (s.chan c).priority < a.priority
  · rw [if_pos hlt,if_pos (.inl hlt)]
  rw [if_neg hlt]
  by_cases hgt : a.priority < (s.chan c).priority
  · rw [if_pos hgt,if_neg]
    rintro (h | ⟨h,-⟩)
    · exact hlt h
    · rw [h] at hgt
      exact BitVec.lt_irrefl _ hgt
  rw [if_neg hgt]
  have heq : (s.chan c).priority = a.priority :=
    BitVec.le_antisymm (BitVec.not_lt.mp hgt) (BitVec.not_lt.mp hlt)
  by_cases habove : a.owner < s.ownerAddress c
  · rw [if_pos habove,if_pos (.inr ⟨heq,habove.le⟩),heq]
  rw [if_neg habove]
  by_cases hbelow : s.ownerAddress c < a.owner
  · rw [if_pos hbelow,if_neg]
    rintro (h | ⟨-,h⟩)
    · exact hlt h
    · exact absurd h (not_le.mpr hbelow)
  · have howner : s.ownerAddress c = a.owner := le_antisymm (not_lt.mp habove) (not_lt.mp hbelow)
    rw [if_neg hbelow,if_pos (.inr ⟨heq,howner.ge⟩),heq,howner]

/-- What the channels visited so far say about the candidate. -/
structure Candidate.Found (s : State) (t : ℕ) (priority : Byte) (visited : List ChanId)
    (a : Candidate) : Prop where
  /-- With a releasing channel among them, the best of these. -/
  releasing : a.releasing = true → ∃ c, a.best = some c ∧ a.rank = s.rank c ∧
    IsLastMin s.rank s.Releasing visited c
  /-- Otherwise the best of those that yield to the new note. -/
  held : a.releasing = false → (∀ d ∈ visited, ¬s.Releasing d) ∧
    ((a.best = none ∧ a.priority = priority ∧ a.owner = t ∧ ∀ d ∈ visited, ¬s.Yields t priority d) ∨
      ∃ c, a.best = some c ∧ a.rank = s.rank c ∧
        IsLastMin s.rank (s.Yields t priority) visited c)

theorem Candidate.Found.init (s : State) (t : ℕ) (priority : Byte) :
    Candidate.Found s t priority []
      { releasing := false, priority := priority, owner := t, best := none } where
  releasing h := nomatch h
  held _ := ⟨by simp,.inl ⟨rfl,rfl,rfl,by simp⟩⟩

theorem yields_iff {a : Candidate} (hpriority : a.priority = priority) (howner : a.owner = t) :
    s.Yields t priority c ↔ s.rank c ≤ a.rank := by
  subst hpriority howner
  exact (rank_le_iff a s c).symm

/-- A channel that is not behind one that yields does so too. -/
theorem State.Yields.mono {d : ChanId} (h : s.Yields t priority c) (hd : s.rank d ≤ s.rank c) :
    s.Yields t priority d := by
  have hnote : ∀ c, s.Yields t priority c ↔ s.rank c ≤ Candidate.rank ⟨false,priority,t,none⟩ :=
    fun _ => yields_iff rfl rfl
  exact (hnote d).mpr (hd.trans ((hnote c).mp h))

theorem Candidate.consider_eq (a : Candidate) (s : State) (c : ChanId) :
    a.consider s c = if s.Releasing c then
        if a.releasing then a.compare s c
        else ⟨true,(s.chan c).priority,s.ownerAddress c,some c⟩
      else if a.releasing then a else a.compare s c := rfl

/-- A channel in use, with no releasing one up to it. -/
theorem Candidate.Found.held_compare {visited : List ChanId} {a : Candidate}
    (h : a.Found s t priority visited) (hmode : a.releasing = false) (hrel : ¬s.Releasing c) :
    (a.compare s c).Found s t priority (visited++[c]) := by
  obtain ⟨hnone,hcand⟩ := h.held hmode
  have hnone' : ∀ d ∈ visited++[c], ¬s.Releasing d := by
    intro d hd
    obtain hd | hd := List.mem_append.mp hd
    · exact hnone d hd
    · exact List.mem_singleton.mp hd ▸ hrel
  rw [Candidate.compare_eq]
  by_cases hle : s.rank c ≤ a.rank
  · rw [if_pos hle]
    refine ⟨fun htrue => (nomatch hmode.symm.trans htrue),fun _ => ⟨hnone',.inr ⟨c,rfl,rfl,?_⟩⟩⟩
    obtain ⟨-,hpriority,howner,hkept⟩ | ⟨b,-,hrank,hmin⟩ := hcand
    · exact .first hkept ((yields_iff hpriority howner).mpr hle)
    · rw [hrank] at hle
      exact hmin.replace (hmin.prop.mono hle) hle
  · rw [if_neg hle]
    refine ⟨fun htrue => (nomatch hmode.symm.trans htrue),fun _ => ⟨hnone',?_⟩⟩
    obtain ⟨hbest,hpriority,howner,hkept⟩ | ⟨b,hbest,hrank,hmin⟩ := hcand
    · refine .inl ⟨hbest,hpriority,howner,fun d hd => ?_⟩
      obtain hd | hd := List.mem_append.mp hd
      · exact hkept d hd
      · rw [List.mem_singleton.mp hd,yields_iff hpriority howner]
        exact hle
    · rw [hrank] at hle
      exact .inr ⟨b,hbest,hrank,hmin.keep fun _ => not_le.mp hle⟩

/-- A releasing channel, with one before it. -/
theorem Candidate.Found.releasing_compare {visited : List ChanId} {a : Candidate}
    (h : a.Found s t priority visited) (hmode : a.releasing = true) (hrel : s.Releasing c) :
    (a.compare s c).Found s t priority (visited++[c]) := by
  obtain ⟨b,hbest,hrank,hmin⟩ := h.releasing hmode
  rw [Candidate.compare_eq,hrank]
  by_cases hle : s.rank c ≤ s.rank b
  · rw [if_pos hle]
    exact ⟨fun _ => ⟨c,rfl,rfl,hmin.replace hrel hle⟩,fun hfalse => nomatch hmode.symm.trans hfalse⟩
  · rw [if_neg hle]
    exact ⟨fun _ => ⟨b,hbest,hrank,hmin.keep fun _ => not_le.mp hle⟩,
      fun hfalse => nomatch hmode.symm.trans hfalse⟩

theorem Candidate.Found.consider {visited : List ChanId} {a : Candidate}
    (h : a.Found s t priority visited) (c : ChanId) :
    (a.consider s c).Found s t priority (visited++[c]) := by
  rw [Candidate.consider_eq]
  by_cases hrel : s.Releasing c
  · rw [if_pos hrel]
    split_ifs with hmode
    · exact h.releasing_compare hmode hrel
    · obtain ⟨hnone,-⟩ := h.held (Bool.not_eq_true _ ▸ hmode)
      exact ⟨fun _ => ⟨c,rfl,rfl,.first hnone hrel⟩,fun hfalse => nomatch hfalse⟩
  · rw [if_neg hrel]
    split_ifs with hmode
    · obtain ⟨b,hbest,hrank,hmin⟩ := h.releasing hmode
      exact ⟨fun _ => ⟨b,hbest,hrank,hmin.keep fun hc => absurd hc hrel⟩,
        fun hfalse => nomatch hmode.symm.trans hfalse⟩
    · exact h.held_compare (Bool.not_eq_true _ ▸ hmode) hrel

end Search

section Allocation
variable {s : State} {p t : ℕ} {x : NoteArgs}

/-- A started channel leaves the others with their notes and their owners. -/
theorem startChannel_other (s : State) (t : ℕ) (priority : Byte) {c d : ChanId} (h : d ≠ c) :
    (startChannel s t priority c).chan d = s.chan d ∧
      (startChannel s t priority c).links.owner d = s.links.owner d := by
  constructor
  · simp [startChannel,State.setFlags,State.setTrack,State.setChan,realClearChain,h]
  · have hunlink : (s.links.unlink c).owner d = s.links.owner d := by
      unfold Links.unlink
      split
      · rfl
      · exact Function.update_of_ne h ..
    simp [startChannel,State.setFlags,State.setTrack,State.setChan,realClearChain,Links.push,h,hunlink]

end Allocation

end Sequencer
end M4a
end AgbTools
