import Mathlib.Tactic
import AgbTools.Stwi

/-! What a refused request does to a command that is still in flight. -/
namespace AgbTools
namespace Stwi

open Runs

/-- Only the error code and the call of the error callback are new. -/
def LeftAlone (s s' : Driver) (request : BitVec 8) : Prop :=
  ∃ code, s' = callM { s with unk12 := code } .rejection request code

/-- What belongs to the command in flight. -/
structure InFlightKept (s s' : Driver) : Prop where
  flag : s'.unk2c = s.unk2c
  packet : s'.txPacket = s.txPacket
  state : s'.unk0 = s.unk0
  retries : s'.unk15 = s.unk15

theorem InFlightKept.refl (s : Driver) : InFlightKept s s := ⟨rfl,rfl,rfl,rfl⟩

theorem InFlightKept.trans {s t u : Driver} (h : InFlightKept s t) (h' : InFlightKept t u) :
    InFlightKept s u :=
  ⟨h'.flag.trans h.flag,h'.packet.trans h.packet,h'.state.trans h.state,h'.retries.trans h.retries⟩

theorem InFlightKept.symm {s t : Driver} (h : InFlightKept s t) : InFlightKept t s :=
  ⟨h.flag.symm,h.packet.symm,h.state.symm,h.retries.symm⟩

theorem callM_kept (s : Driver) (r : Report) (command : BitVec 8) (code : BitVec 16) :
    InFlightKept s (callM s r command code) := by
  unfold callM
  split <;> exact ⟨rfl,rfl,rfl,rfl⟩

theorem LeftAlone.kept {s s' : Driver} {request : BitVec 8} (h : LeftAlone s s' request) :
    InFlightKept s s' := by
  obtain ⟨code,rfl⟩ := h
  have hset : InFlightKept s { s with unk12 := code } := ⟨rfl,rfl,rfl,rfl⟩
  exact hset.trans (callM_kept _ _ _ _)

/-- A request that meets the busy flag with interrupts enabled clears it. -/
theorem init_busy {s : Driver} (h : s.unk2c = 1) (request : BitVec 8) :
    (init s true request).2 = true ∧ (init s true request).1.unk2c = 0 := by
  have hflag := (callM_kept { s with unk12 := 2, unk2c := 0 } .rejection request 2).flag
  rw [init,if_neg (by simp),if_pos h]
  exact ⟨rfl,hflag⟩

/-- Every other refusal leaves the driver alone. -/
theorem init_leftAlone {s : Driver} {ime : Bool} {request : BitVec 8}
    (h : ime = false ∨ s.unk2c ≠ 1) (hr : (init s ime request).2 = true) :
    LeftAlone s (init s ime request).1 request := by
  unfold init at hr ⊢
  split_ifs at hr ⊢ with h1 h2 h3
  · exact ⟨6,rfl⟩
  · simp_all
  · exact ⟨4,rfl⟩

theorem init_leftAlone_iff (s : Driver) (ime : Bool) (request : BitVec 8) :
    ((init s ime request).2 = true → LeftAlone s (init s ime request).1 request) ↔
      (ime = false ∨ s.unk2c ≠ 1) := by
  constructor
  · intro h
    by_contra hc
    obtain ⟨h1,h2⟩ : ime = true ∧ s.unk2c = 1 := by simpa using hc
    subst h1
    obtain ⟨hr,hz⟩ := init_busy h2 request
    have hk := (h hr).kept.flag
    rw [hz,h2] at hk
    exact absurd hk (by decide)
  · exact init_leftAlone

/-- A sequence of calls, each with the value of IME it meets. -/
def sendAll (s : Driver) (rs : List (Bool × Request)) : Driver :=
  run (fun s r => send s r.1 r.2) s rs

theorem send_masked (s : Driver) (r : Request) : InFlightKept s (send s false r) := by
  have hr : (init s false r.command).2 = true := by simp [init]
  have h := (init_leftAlone (Or.inl rfl) hr).kept
  simpa [send,hr] using h

theorem send_busy {s : Driver} (h : s.unk2c = 1) (r : Request) : (send s true r).unk2c = 0 := by
  obtain ⟨hr,hz⟩ := init_busy h r.command
  simpa [send,hr] using hz

theorem sendAll_kept_iff {s : Driver} (h : s.unk2c = 1) (rs : List (Bool × Request)) :
    (∀ pre, pre <+: rs → InFlightKept s (sendAll s pre)) ↔ ∀ r ∈ rs, r.1 = false := by
  induction rs generalizing s with
  | nil =>
    simp only [List.prefix_nil,List.not_mem_nil,false_implies,implies_true,iff_true]
    rintro pre rfl
    exact .refl s
  | cons r rs ih =>
    obtain ⟨ime,r⟩ := r
    constructor
    · intro hk
      have h1 := hk [(ime,r)] (by simp)
      cases ime with
      | true =>
        have hz := h1.flag
        rw [sendAll,run_cons,run_nil,send_busy h,h] at hz
        exact absurd hz (by decide)
      | false =>
        have hs := send_masked s r
        have hrest := (ih (s := send s false r) (hs.flag.trans h)).mp fun pre hpre =>
          hs.symm.trans (hk ((false,r)::pre) (by simpa using hpre))
        simpa using hrest
    · intro hm pre hpre
      obtain rfl : ime = false := hm (ime,r) List.mem_cons_self
      have hs := send_masked s r
      cases pre with
      | nil => exact .refl s
      | cons q pre =>
        obtain ⟨rfl,hpre'⟩ := List.cons_prefix_cons.mp hpre
        have hrest := (ih (s := send s false r) (hs.flag.trans h)).mpr
          (fun q hq => hm q (List.mem_cons_of_mem _ hq)) pre hpre'
        exact hs.trans hrest

/-- A refused request leaves the driver alone exactly when interrupts are disabled or no
command is in flight; requests made during a command spare it, call for call, exactly when
all of them are made with interrupts disabled. -/
theorem refused_request_spares_command (s : Driver) :
    (∀ ime request, ((init s ime request).2 = true → LeftAlone s (init s ime request).1 request) ↔
      (ime = false ∨ s.unk2c ≠ 1)) ∧
    (∀ rs, (s.unk2c = 1 → ∀ pre, pre <+: rs → InFlightKept s (sendAll s pre)) ↔
      (s.unk2c = 1 → ∀ r ∈ rs, r.1 = false)) :=
  ⟨init_leftAlone_iff s,fun rs => imp_congr_right fun h => sendAll_kept_iff h rs⟩

/-- A reset command in flight. -/
def resetInFlight : Driver := send (initAll blank) true .reset

theorem refused_request_clears_flag :
    resetInFlight.unk2c = 1 ∧ (init resetInFlight true 0x11).2 = true ∧
    ¬ LeftAlone resetInFlight (init resetInFlight true 0x11).1 0x11 ∧
    (sendAll resetInFlight [(true,.linkStatus)]).unk2c = 0 ∧
    (sendAll resetInFlight [(true,.linkStatus),(true,.stopMode)]).txPacket 0 ≠
      resetInFlight.txPacket 0 := by
  refine ⟨by decide,by decide,?_,by decide,by decide⟩
  intro h
  exact absurd h.kept.flag (by decide)

end Stwi
end AgbTools
