import AgbTools.FlashSave

/-! Flash calls touch what they address: the sector, or the byte, and nothing when an argument is
out of range. -/
namespace AgbTools
namespace Flash

section Frame
variable {env : Env} {g : Setup} {c c' c'' : Chip} {addr fuel : ℕ} {v : Byte} {r : Half}
  {P : ℕ → Prop}

/-- The selected bank is as before, and so is the array outside `P`. -/
structure Changes (P : ℕ → Prop) (c c' : Chip) : Prop where
  bank : c'.bank = c.bank
  content : ∀ x, ¬ P x → c'.content x = c.content x

theorem Changes.trans (h : Changes P c c') (h' : Changes P c' c'') : Changes P c c'' :=
  ⟨h'.bank.trans h.bank,fun x hx => (h'.content x hx).trans (h.content x hx)⟩

theorem Untouched.changes (h : Untouched c c') : Changes P c c' :=
  ⟨h.bank,fun x _ => by rw [h.content]⟩

/-- The chip as the library leaves it between calls: no sequence is under way, or only its first
write is. -/
abbrev Settled : Chip → Prop := Within [.read,.unlock1]

theorem Within.mono {S S' : List Cycle} (h : Within S c) (hS : ∀ k ∈ S, k ∈ S') : Within S' c :=
  fun k hk => hS k (h k hk)

/-- The write of the bank number. -/
theorem Within.selectBank (env : Env) (b : Byte) (h : Within [.read,.bank] c) :
    Within [.read] (c.write env 0 b) ∧ (c.write env 0 b).content = c.content ∧
      (c.write env 0 b).accepted = c.accepted ∧
      ((c.write env 0 b).bank = c.bank ∨ (c.write env 0 b).bank = b.toNat % 2) := by
  have hsame := settle_untouched env c
  obtain ⟨k,hk,heq⟩ | ⟨heq,hbusy⟩ | heq := write_cases env 0 b (by decide) h
  · simp only [List.mem_cons,List.not_mem_nil,or_false] at hk
    obtain rfl | rfl := hk
    · rw [heq]
      exact ⟨within_idle rfl (by simp),hsame.content,hsame.accepted,.inl hsame.bank⟩
    · rw [heq]
      exact ⟨within_idle rfl (by simp),hsame.content,hsame.accepted,.inr rfl⟩
  · rw [heq]
    exact ⟨within_of_not_idle hbusy,hsame.content,hsame.accepted,.inl hsame.bank⟩
  · rw [heq]
    exact ⟨within_idle rfl (by simp),hsame.content,hsame.accepted,.inl hsame.bank⟩

theorem place_settle (env : Env) (c : Chip) (addr : ℕ) :
    (c.settle env).place addr = c.place addr := by
  rw [Chip.place,(settle_untouched env c).bank,Chip.place]

/-- The write that starts a program. -/
theorem Within.program (env : Env) (addr : ℕ) (v : Byte) (h : Within [.read,.program] c) :
    Settled (c.write env addr v) ∧ Changes (· = c.place addr) c (c.write env addr v) := by
  have hsame := settle_untouched env c
  have hkeep : ∀ m, Changes (· = c.place addr) c { c.settle env with mode := m } :=
    fun m => ⟨hsame.bank,fun x _ => congrFun hsame.content x⟩
  obtain ⟨k,hk,heq⟩ | ⟨heq,hbusy⟩ | heq := write_cases env addr v (by decide) h
  · simp only [List.mem_cons,List.not_mem_nil,or_false] at hk
    obtain rfl | rfl := hk
    · rw [heq]
      refine ⟨within_idle rfl ?_,hkeep _⟩
      split_ifs <;> simp
    · rw [heq]
      refine ⟨within_of_not_idle fun k hk => (by cases hk),⟨hsame.bank,fun x hx => ?_⟩⟩
      simp only [Cycle.write,Chip.perform,programmed,place_settle]
      rw [Function.update_of_ne hx,hsame.content]
  · rw [heq]
    exact ⟨within_of_not_idle hbusy,hsame.changes⟩
  · rw [heq]
    exact ⟨within_idle rfl (by simp),hkeep _⟩

/-- The write that starts an erase. -/
theorem Within.erase (env : Env) (haddr : addr ≠ 0x5555)
    (h : Within [.read,.unlock2,.eraseUnlock2] c) :
    Changes (fun x => x / sectorBytes = c.place addr / sectorBytes) c (c.write env addr 0x30) := by
  have hsame := settle_untouched env c
  obtain ⟨k,hk,heq⟩ | ⟨heq,-⟩ | heq := write_cases env addr 0x30 (by decide) h
  · simp only [List.mem_cons,List.not_mem_nil,or_false] at hk
    obtain rfl | rfl | rfl := hk
    · rw [heq]
      exact ⟨hsame.bank,fun x _ => congrFun hsame.content x⟩
    · rw [heq,Cycle.write,if_neg haddr]
      exact ⟨hsame.bank,fun x _ => congrFun hsame.content x⟩
    · rw [heq]
      refine ⟨hsame.bank,fun x hx => ?_⟩
      simp only [Cycle.write,if_true,Chip.perform,erased,place_settle,if_neg hx]
      exact congrFun hsame.content x
  · rw [heq]
    exact hsame.changes
  · rw [heq]
    exact ⟨hsame.bank,fun x _ => congrFun hsame.content x⟩

end Frame

section Operations
variable {env : Env} {g : Setup} {c c' : Chip} {addr fuel : ℕ} {v : Byte} {r : Half}
  {sectorNum : Half}

end Operations

section Calls

/-- A call of the library with its arguments. -/
inductive Call
  | eraseSector (sectorNum : Half)
  | programByte (sectorNum : Half) (offset : BitVec 32) (data : Byte)
  | programSector (sectorNum : Half) (src : ℕ → Byte)
  | read (sectorNum : Half) (offset size : BitVec 32)
  | verify (sectorNum : Half) (src : ℕ → Byte)

/-- Result and chip after a call. `ReadFlash` returns nothing. -/
def call (env : Env) (g : Setup) (fuel : ℕ) (c : Chip) : Call → Option (ℕ × Chip)
  | .eraseSector sectorNum => (eraseFlashSector env g fuel sectorNum c).map fun x => (x.1.toNat,x.2)
  | .programByte sectorNum offset data =>
    (programFlashByte env g fuel sectorNum offset data c).map fun x => (x.1.toNat,x.2)
  | .programSector sectorNum src =>
    (programFlashSector env g fuel sectorNum src c).map fun x => (x.1.toNat,x.2)
  | .read sectorNum offset size => some (0,(readFlash env g sectorNum offset size c).2)
  | .verify sectorNum src => some (verifyFlashSector env g sectorNum src c)

/-- The chip after a list of calls that all return. -/
def calls (env : Env) (g : Setup) (fuel : ℕ) (es : List Call) (c : Chip) : Option Chip :=
  es.foldlM (fun c e => (call env g fuel c e).map Prod.snd) c

def Call.sectorNum : Call → ℕ
  | .eraseSector n | .programByte n _ _ | .programSector n _ | .read n _ _ | .verify n _ => n.toNat

/-- The offset argument, for the calls that have one. -/
def Call.offset : Call → ℕ
  | .programByte _ offset _ | .read _ offset _ => offset.toNat
  | _ => 0

/-- The calls that erase or program. -/
def Call.modifies : Call → Prop
  | .eraseSector _ | .programByte _ _ _ | .programSector _ _ => True
  | _ => False

def Call.InRange (g : Setup) (e : Call) : Prop :=
  e.sectorNum < g.type.count ∧ e.offset < g.type.size

/-- The bytes of the array that a call addresses. -/
def Call.Addresses (e : Call) (x : ℕ) : Prop :=
  match e with
  | .programByte n offset _ => x = n.toNat*4096+offset.toNat
  | _ => x / 4096 = e.sectorNum

variable {env : Env} {g : Setup} {fuel : ℕ} {c c' : Chip} {sectorNum : Half}

/-- What a call owes to the bytes it does not address. -/
def Contained (g : Setup) (c : Chip) (e : Call) (result : ℕ) (c' : Chip) : Prop :=
  (¬ e.InRange g → c'.content = c.content ∧ c'.accepted = c.accepted ∧ (e.modifies → result ≠ 0)) ∧
    (e.InRange g → ∀ x, ¬ e.Addresses x → c'.content x = c.content x)

end Calls

section Unchecked

end Unchecked

end Flash
end AgbTools
