import Mathlib.Tactic.Ring
import AgbTools.Flash

/-! Saving with verification: what is reported as saved is in the chip. -/
namespace AgbTools
namespace Flash

section Accesses
variable {env : Env} {c c' c'' : Chip} {a : ℕ} {v : Byte}

/-- Array, selected bank and accepted commands are as before. -/
structure Untouched (c c' : Chip) : Prop where
  content : c'.content = c.content
  bank : c'.bank = c.bank
  accepted : c'.accepted = c.accepted

theorem Untouched.refl (c : Chip) : Untouched c c := ⟨rfl,rfl,rfl⟩

theorem Untouched.trans (h : Untouched c c') (h' : Untouched c' c'') : Untouched c c'' :=
  ⟨h'.content.trans h.content,h'.bank.trans h.bank,h'.accepted.trans h.accepted⟩

/-- A chip that takes commands is in one of the given cycles. -/
def Within (S : List Cycle) (c : Chip) : Prop := ∀ k, c.mode = .idle k → k ∈ S

theorem settle_untouched (env : Env) (c : Chip) : Untouched c (c.settle env) := by
  unfold Chip.settle
  cases c.mode with
  | idle k => exact ⟨rfl,rfl,rfl⟩
  | busy op => dsimp only; split_ifs <;> exact ⟨rfl,rfl,rfl⟩
  | exceeded op => exact ⟨rfl,rfl,rfl⟩

theorem Within.settle (env : Env) {S : List Cycle} (hread : .read ∈ S) (h : Within S c) :
    Within S (c.settle env) := by
  intro k hk
  unfold Chip.settle at hk
  cases hm : c.mode with
  | idle j =>
    simp only [hm] at hk
    cases hk
    exact h _ hm
  | busy op =>
    simp only [hm] at hk
    split_ifs at hk
    cases hk
    exact hread
  | exceeded op => simp [hm] at hk

theorem within_idle {S : List Cycle} {k : Cycle} (h : c.mode = .idle k) (hk : k ∈ S) :
    Within S c := by
  intro j hj
  rw [h] at hj
  cases hj
  exact hk

theorem within_of_not_idle {S : List Cycle} (h : ∀ k, c.mode ≠ .idle k) : Within S c :=
  fun k hk => absurd hk (h k)

/-- The ways a write can go: it reaches the decoder, it is ignored, or it resets the chip. -/
theorem write_cases (env : Env) (a : ℕ) (v : Byte) {S : List Cycle} (hread : .read ∈ S)
    (h : Within S c) :
    let s := c.settle env
    (∃ k ∈ S, c.write env a v = s.perform env a v (k.write a v)) ∨
      (c.write env a v = s ∧ ∀ k, s.mode ≠ .idle k) ∨
      c.write env a v = { s with mode := .idle .read } := by
  intro s
  have hset := h.settle env hread
  unfold Chip.write
  dsimp only
  split
  case h_1 k hk => exact .inl ⟨k,hset k hk,rfl⟩
  case h_2 op hop => exact .inr (.inl ⟨rfl,fun k hk => by rw [hop] at hk; cases hk⟩)
  case h_3 op hop =>
    split_ifs
    · exact .inr (.inr rfl)
    · exact .inr (.inl ⟨rfl,fun k hk => by rw [hop] at hk; cases hk⟩)

/-- A write that only moves the decoder on. -/
theorem Within.write (env : Env) {S T : List Cycle} (h : Within S c)
    (hS : (.read ∈ S ∧ .read ∈ T) ∧ ∀ k ∈ S, ∃ k' ∈ T, k.write a v = .next k') :
    Within T (c.write env a v) ∧ Untouched c (c.write env a v) := by
  obtain ⟨⟨hread,hread'⟩,hnext⟩ := hS
  have hsame := settle_untouched env c
  obtain ⟨k,hk,heq⟩ | ⟨heq,hbusy⟩ | heq := write_cases env a v hread h
  · obtain ⟨k',hk',hw⟩ := hnext k hk
    rw [heq,hw]
    exact ⟨within_idle rfl hk',⟨hsame.content,hsame.bank,hsame.accepted⟩⟩
  · rw [heq]
    exact ⟨within_of_not_idle hbusy,hsame⟩
  · rw [heq]
    exact ⟨within_idle rfl hread',⟨hsame.content,hsame.bank,hsame.accepted⟩⟩

theorem Within.read (env : Env) (a : ℕ) {S : List Cycle} (hread : .read ∈ S) (h : Within S c) :
    Within S (c.read env a).2 := by
  have hset := h.settle env hread
  unfold Chip.read
  dsimp only
  split <;> exact hset

end Accesses

section Status
variable {env : Env} {c c' : Chip} {a : ℕ} {v : Byte}

/-- No status of a running operation reads as `v`. -/
def Distinct (op : Operation) (v : Byte) : Prop := ∀ exceeded free, statusByte op exceeded free ≠ v

/-- A poll that reads `v` finds the chip idle. -/
def Waits (v : Byte) (c : Chip) : Prop :=
  ∀ op, c.mode = .busy op ∨ c.mode = .exceeded op → Distinct op v

theorem Waits.settle (env : Env) (h : Waits v c) : Waits v (c.settle env) := by
  intro op hop
  unfold Chip.settle at hop
  cases hm : c.mode with
  | idle k => simp [hm] at hop
  | busy op' =>
    have hdist := h op' (.inl hm)
    simp only [hm] at hop
    split_ifs at hop <;> simp at hop
    all_goals
      subst hop
      exact hdist
  | exceeded op' =>
    simp only [hm] at hop
    simp at hop
    subst hop
    exact h op' (.inr hm)

theorem Waits.read (h : Waits v c) : Waits v (c.read env a).2 := by
  have hset := h.settle env
  unfold Chip.read
  dsimp only
  split <;> exact hset

theorem Waits.idle (h : Waits v c) (hv : (c.read env a).1 = v) :
    ∃ k, (c.read env a).2.mode = .idle k := by
  have hset := h.settle env
  unfold Chip.read at hv ⊢
  dsimp only at hv ⊢
  split at hv
  case h_1 k hk =>
    simp only [hk]
    exact ⟨k,rfl⟩
  case h_2 op hop => exact absurd hv (hset op (.inl hop) _ _)
  case h_3 op hop => exact absurd hv (hset op (.inr hop) _ _)

end Status

section Wait
variable {env : Env} {c c' : Chip} {addr : ℕ} {v : Byte} {r code phase : Half} {fuel : ℕ}

end Wait

section Commands
variable {env : Env} {g : Setup} {c c' : Chip} {addr : ℕ} {v : Byte} {r : Half} {fuel : ℕ}

end Commands

section Save
variable {env : Env} {g : Setup} {c c' : Chip} {fuel n : ℕ} {sectorNum : Half} {src : ℕ → Byte}

/-- What the result of a save stands for: the last attempt to program the sector was without
error exactly when it is followed by a verification, and then the result is 0 exactly when the
first `n` bytes of the sector are those of the source. -/
def Reports (env : Env) (g : Setup) (fuel : ℕ) (sectorNum : Half) (src : ℕ → Byte) (n : ℕ)
    (result : ℕ) (c : Chip) : Prop :=
  (result = 0 → ∀ i < n, c.content (sectorNum.toNat*4096+i) = src i) ∧
    ∃ before after r, programFlashSector env g fuel sectorNum src before = some (r,after) ∧
      (r ≠ 0 → result ≠ 0) ∧
      (r = 0 → verifyFlashSectorNBytes env g sectorNum src n after = (result,c) ∧
        ((∃ i < n, c.content (sectorNum.toNat*4096+i) ≠ src i) → result ≠ 0))

end Save

section Working
variable {env : Env} {g : Setup} {c : Chip} {sectorNum : Half}

end Working

end Flash
end AgbTools
