import AgbTools.RingQueue
import AgbTools.Runs

/-! The debug printer of libisagbprn: the bytes on their way to the flush routine, which is not part
of the library, and the registers around every access to the cartridge. -/
namespace AgbTools
namespace AgbPrint

open Runs WordArray RingQueue

abbrev Byte := BitVec 8
abbrev Half := BitVec 16
abbrev Word := BitVec 32

variable {χ : Type*}

section Code

/-- `WSCNT_DATA` -/
def wscntData : Half := 3 <<< 11

/-- The struct at `AGB_PRINT_STRUCT_ADDR`, the half-words of the cartridge, WAITCNT, IME and the
register at `AGB_PRINT_PROTECT_ADDR`. `world` is what the flush routine keeps for itself; `consumed`
is history: the bytes it has taken. -/
structure Printer (χ : Type*) where
  nRequest : Half
  nBank : Half
  nGet : Half
  nPut : Half
  mem : Word → Half
  wscnt : Half
  ime : Half
  protect : Half
  world : χ
  consumed : List Byte

/-- The address of `pPrintBuf[i / 2]`. -/
def Printer.cell (s : Printer χ) (i : Half) : Word :=
  0x8000000+s.nBank.setWidth 32 <<< 16+2*(i/2).setWidth 32

/-- The byte with the number `i`: two of them share a half-word. -/
def Printer.charAt (s : Printer χ) (i : Half) : Byte :=
  if i &&& 1 ≠ 0 then (s.mem (s.cell i) >>> 8).setWidth 8 else (s.mem (s.cell i)).setWidth 8

def Printer.pending (s : Printer χ) : ℕ := (s.nPut-s.nGet).toNat

def agbPrintInit (s : Printer χ) : Printer χ :=
  let nOldWSCNT := s.wscnt
  let s := { s with wscnt := wscntData }
  let s := { s with protect := 0x20 }
  let s := { s with nPut := 0, nGet := 0, nRequest := 0 }
  let s := { s with nBank := 0xFD }
  let s := { s with protect := 0 }
  { s with wscnt := nOldWSCNT }

/-- A `char` as an `int`, for compilers with signed ones and for those with unsigned ones. -/
def charInt (signed : Bool) (cChr : Byte) : Word :=
  if signed then cChr.signExtend 32 else cChr.setWidth 32

/-- The half-word with the character merged into it. -/
def merge (signed : Bool) (cChr : Byte) (nPut nData : Half) : Half :=
  let nData : Word := nData.setWidth 32
  let nData : Word := if nPut &&& 1 ≠ 0 then (nData &&& (0xFF : Word)) ||| (charInt signed cChr <<< 8)
    else (nData &&& (0xFF00 : Word)) ||| charInt signed cChr
  nData.setWidth 16

def agbPutcInternal (signed : Bool) (cChr : Byte) (s : Printer χ) : Printer χ :=
  let nData := s.mem (s.cell s.nPut)
  let s := { s with protect := 0x20 }
  let s := { s with mem := Function.update s.mem (s.cell s.nPut) (merge signed cChr s.nPut nData) }
  let s := { s with nPut := s.nPut+1 }
  { s with protect := 0 }

/-- The flush routine has taken `n` of the pending bytes. What it does to the registers is left
open. -/
structure Taken (n : ℕ) (s t : Printer χ) : Prop where
  some : 0 < n
  le : n ≤ s.pending
  nGet : t.nGet = slot 1 s.nGet n
  nPut : t.nPut = s.nPut
  nBank : t.nBank = s.nBank
  mem : t.mem = s.mem
  consumed : t.consumed = s.consumed++cells s.charAt s.nGet n

/-- The routine at `AGB_PRINT_FLUSH_ADDR`: when bytes are pending it takes some of them. -/
structure PrintFlush (χ : Type*) where
  call : Printer χ → Printer χ
  takes : ∀ s, s.nPut ≠ s.nGet → ∃ n, Taken n s (call s)

/-- One that takes a byte at a time. -/
instance : Inhabited (PrintFlush χ) where
  default :=
    { call := fun s => { s with nGet := s.nGet+1, consumed := s.consumed++[s.charAt s.nGet] }
      takes := by
        intro s h
        refine ⟨1,Nat.one_pos,?_,?_,rfl,rfl,rfl,?_⟩
        · show 0 < (s.nPut-s.nGet).toNat
          generalize s.nPut = nPut at *
          generalize s.nGet = nGet at *
          bv_omega
        · simp [slot]
        · simp [cells,slot] }

/-- The call between the two writes to `pProtect`. -/
def flushOnce (f : PrintFlush χ) (s : Printer χ) : Printer χ :=
  let s := { s with protect := 0x20 }
  let s := f.call s
  { s with protect := 0 }

theorem flushOnce_taken (f : PrintFlush χ) {s : Printer χ} (h : s.nPut ≠ s.nGet) :
    ∃ n, Taken n s (flushOnce f s) := by
  obtain ⟨n,hsome,hle,hget,hput,hbank,hmem,hconsumed⟩ := f.takes { s with protect := 0x20 } h
  exact ⟨n,hsome,hle,hget,hput,hbank,hmem,hconsumed⟩

theorem Taken.pending {n : ℕ} {s t : Printer χ} (h : Taken n s t) : t.pending = s.pending-n := by
  have hle : n ≤ (s.nPut-s.nGet).toNat := h.le
  have hlt := (s.nPut-s.nGet).isLt
  have hn : (BitVec.ofNat 16 n).toNat = n := by
    rw [BitVec.toNat_ofNat]
    omega
  rw [Printer.pending,Printer.pending,h.nGet,h.nPut,slot_one]
  generalize BitVec.ofNat 16 n = m at hn
  bv_omega

/-- The loop of `AGBPrintTransferDataInternal`. -/
def flushAll (f : PrintFlush χ) (s : Printer χ) : Printer χ :=
  if _h : s.nPut ≠ s.nGet then flushAll f (flushOnce f s) else s
termination_by s.pending
decreasing_by
  obtain ⟨n,hn⟩ := flushOnce_taken f _h
  have hpending := hn.pending
  have hsome := hn.some
  have hle := hn.le
  omega

def agbPrintTransferDataInternal (f : PrintFlush χ) (bAllData : Bool) (s : Printer χ) : Printer χ :=
  let nIME := s.ime
  let nOldWSCNT := s.wscnt
  let s := { s with ime := nIME &&& ~~~1 }
  let s := { s with wscnt := wscntData }
  let s := if bAllData then flushAll f s
    else if s.nPut ≠ s.nGet then flushOnce f s
    else s
  let s := { s with wscnt := nOldWSCNT }
  { s with ime := nIME }

def agbPrintFlush1Block (f : PrintFlush χ) : Printer χ → Printer χ := agbPrintTransferDataInternal f false
def agbPrintFlush (f : PrintFlush χ) : Printer χ → Printer χ := agbPrintTransferDataInternal f true

def agbPutc (signed : Bool) (f : PrintFlush χ) (cChr : Byte) (s : Printer χ) : Printer χ :=
  let nOldWSCNT := s.wscnt
  let s := { s with wscnt := wscntData }
  let s := agbPutcInternal signed cChr s
  let s := { s with wscnt := nOldWSCNT }
  if s.nPut = s.nGet-1 then agbPrintFlush1Block f s else s

/-- The loop of `AGBPrint`. The string ends with the list, or at a zero in it. -/
def agbPrintLoop (signed : Bool) (f : PrintFlush χ) : List Byte → Printer χ → Printer χ
  | [], s => s
  | c::pBuf, s => if c = 0 then s else agbPrintLoop signed f pBuf (agbPutc signed f c s)

def agbPrint (signed : Bool) (f : PrintFlush χ) (pBuf : List Byte) (s : Printer χ) : Printer χ :=
  let nOldWSCNT := s.wscnt
  let s := { s with wscnt := wscntData }
  let s := agbPrintLoop signed f pBuf s
  { s with wscnt := nOldWSCNT }

inductive Call
  | putc (cChr : Byte)
  | print (pBuf : List Byte)
  | flush1Block
  | flush
deriving DecidableEq

def exec (signed : Bool) (f : PrintFlush χ) (s : Printer χ) : Call → Printer χ
  | .putc cChr => agbPutc signed f cChr s
  | .print pBuf => agbPrint signed f pBuf s
  | .flush1Block => agbPrintFlush1Block f s
  | .flush => agbPrintFlush f s

/-- The bytes that a call prints. -/
def Call.printed : Call → List Byte
  | .putc cChr => [cChr]
  | .print pBuf => pBuf.takeWhile (· ≠ 0)
  | .flush1Block | .flush => []

end Code

section Characters

variable {s : Printer χ} {i j : Half} {cChr : Byte} {signed : Bool}

theorem odd_iff (i : Half) : i &&& 1 ≠ 0 ↔ i.toNat%2 = 1 := by
  have hbit : (i &&& 1).toNat = i.toNat%2 := by
    rw [BitVec.toNat_and]
    exact Nat.and_one_is_mod _
  rw [← hbit]
  have hlt : (i &&& 1).toNat < 2 := by
    rw [hbit]
    exact Nat.mod_lt _ (by omega)
  constructor
  · intro hne
    by_contra hnot
    exact hne (BitVec.eq_of_toNat_eq (show (i &&& 1).toNat = 0 by omega))
  · intro hone hzero
    rw [hzero] at hone
    simp at hone

theorem cell_inj (h : s.cell i = s.cell j) : i.toNat/2 = j.toNat/2 := by
  have hi : (i/2).toNat = i.toNat/2 := BitVec.toNat_udiv
  have hj : (j/2).toNat = j.toNat/2 := BitVec.toNat_udiv
  have hi' := i.isLt
  have hj' := j.isLt
  rw [← hi,← hj]
  unfold Printer.cell at h
  generalize i/2 = a at *
  generalize j/2 = b at *
  generalize (0x8000000+s.nBank.setWidth 32 <<< 16 : Word) = base at *
  bv_omega

theorem charInt_low (signed : Bool) (cChr : Byte) {k : ℕ} (hk : k < 8) :
    (charInt signed cChr).getLsbD k = cChr.getLsbD k := by
  have hlt : k < 32 := by omega
  cases signed with
  | false =>
    show (cChr.setWidth 32 : Word).getLsbD k = _
    rw [BitVec.getLsbD_setWidth,decide_eq_true hlt,Bool.true_and]
  | true =>
    show (cChr.signExtend 32 : Word).getLsbD k = _
    rw [BitVec.getLsbD_signExtend,decide_eq_true hlt,Bool.true_and,if_pos hk]

theorem mask_low {k : ℕ} (hk : k < 32) : (0xFF : Word).getLsbD k = decide (k < 8) := by
  revert k
  decide

theorem mask_high {k : ℕ} (hk : k < 32) :
    (0xFF00 : Word).getLsbD k = decide (8 ≤ k ∧ k < 16) := by
  revert k
  decide

/-- The character is merged into its own half. -/
theorem merge_odd (signed : Bool) (cChr : Byte) {nPut : Half} (nData : Half) (h : nPut &&& 1 ≠ 0) :
    (merge signed cChr nPut nData >>> 8).setWidth 8 = cChr ∧
      (merge signed cChr nPut nData).setWidth 8 = nData.setWidth 8 := by
  rw [merge,if_pos h]
  constructor
  · apply BitVec.eq_of_getLsbD_eq
    intro k hk
    simp only [BitVec.getLsbD_setWidth,BitVec.getLsbD_ushiftRight,BitVec.getLsbD_or,BitVec.getLsbD_and,
      BitVec.getLsbD_shiftLeft,mask_low (show 8+k < 32 by omega),Nat.add_sub_cancel_left,
      charInt_low signed cChr hk]
    simp [hk,show 8+k < 16 by omega,show 8+k < 32 by omega,show ¬8+k < 8 by omega]
  · apply BitVec.eq_of_getLsbD_eq
    intro k hk
    simp only [BitVec.getLsbD_setWidth,BitVec.getLsbD_or,BitVec.getLsbD_and,BitVec.getLsbD_shiftLeft,
      mask_low (show k < 32 by omega)]
    simp [hk,show k < 16 by omega,show k < 32 by omega]

theorem merge_even (signed : Bool) (cChr : Byte) {nPut : Half} (nData : Half)
    (h : ¬nPut &&& 1 ≠ 0) : (merge signed cChr nPut nData).setWidth 8 = cChr := by
  rw [merge,if_neg h]
  apply BitVec.eq_of_getLsbD_eq
  intro k hk
  simp only [BitVec.getLsbD_setWidth,BitVec.getLsbD_or,BitVec.getLsbD_and,
    mask_high (show k < 32 by omega),charInt_low signed cChr hk]
  simp [hk,show k < 16 by omega,show ¬8 ≤ k by omega]

theorem charAt_put (signed : Bool) (cChr : Byte) (s : Printer χ) :
    (agbPutcInternal signed cChr s).charAt s.nPut = cChr := by
  have hmem : (agbPutcInternal signed cChr s).mem (s.cell s.nPut) =
      merge signed cChr s.nPut (s.mem (s.cell s.nPut)) := Function.update_self ..
  have hcell : (agbPutcInternal signed cChr s).cell s.nPut = s.cell s.nPut := rfl
  rw [Printer.charAt,hcell,hmem]
  split_ifs with h
  · exact (merge_odd signed cChr _ h).1
  · exact merge_even signed cChr _ h

/-- With signed characters the byte behind the written one may change too. -/
theorem charAt_other (signed : Bool) (cChr : Byte) {s : Printer χ} {i : Half} (h : i ≠ s.nPut)
    (h' : i ≠ s.nPut+1) : (agbPutcInternal signed cChr s).charAt i = s.charAt i := by
  have hcell : (agbPutcInternal signed cChr s).cell i = s.cell i := rfl
  rw [Printer.charAt,hcell]
  by_cases hsame : s.cell i = s.cell s.nPut
  · have hhalf := cell_inj hsame
    -- the only byte in the half-word that is neither is the one below an odd index
    have hodd : s.nPut &&& 1 ≠ 0 := by
      rw [odd_iff]
      by_contra heven
      have hnext : (s.nPut+1).toNat = s.nPut.toNat+1 := by bv_omega
      have hne : i.toNat ≠ s.nPut.toNat := fun heq => h (BitVec.eq_of_toNat_eq heq)
      have hne' : i.toNat ≠ (s.nPut+1).toNat := fun heq => h' (BitVec.eq_of_toNat_eq heq)
      omega
    have heven : ¬i &&& 1 ≠ 0 := by
      rw [odd_iff] at hodd ⊢
      intro hi
      exact h (BitVec.eq_of_toNat_eq (by omega))
    have hmem : (agbPutcInternal signed cChr s).mem (s.cell s.nPut) =
        merge signed cChr s.nPut (s.mem (s.cell s.nPut)) := Function.update_self ..
    rw [if_neg heven,hsame,hmem,(merge_odd signed cChr _ hodd).2,Printer.charAt,if_neg heven,hsame]
  · have hmem : (agbPutcInternal signed cChr s).mem (s.cell i) = s.mem (s.cell i) :=
      Function.update_of_ne hsame ..
    rw [hmem]
    rfl

end Characters

section Bytes

variable {before printed : List Byte} {k n : ℕ} {s t : Printer χ}

/-- Of the bytes that were printed, `k` have been taken, and the others wait in order. -/
structure Fifo (before printed : List Byte) (k : ℕ) (s : Printer χ) : Prop where
  le : k ≤ printed.length
  consumed : s.consumed = before++printed.take k
  queue : Queue s.charAt s.nGet s.nPut (printed.drop k)

theorem fifo_init (s : Printer χ) : Fifo s.consumed [] 0 (agbPrintInit s) where
  le := le_rfl
  consumed := by simp [agbPrintInit]
  queue := queue_nil ..

theorem Fifo.pending (h : Fifo before printed k s) : s.pending = printed.length-k := by
  rw [Printer.pending,h.queue.length_eq,List.length_drop]

/-- Only the indices and the memory of the cartridge matter. -/
theorem Fifo.of_same (h : Fifo before printed k s) (hmem : t.mem = s.mem) (hbank : t.nBank = s.nBank)
    (hget : t.nGet = s.nGet) (hput : t.nPut = s.nPut) (hconsumed : t.consumed = s.consumed) :
    Fifo before printed k t where
  le := h.le
  consumed := by rw [hconsumed,h.consumed]
  queue := by
    have hchar : t.charAt = s.charAt := by
      funext i
      simp only [Printer.charAt,Printer.cell,hmem,hbank]
    rw [hchar,hget,hput]
    exact h.queue

/-- The byte that signed characters may change behind the written one does not wait. -/
theorem Fifo.kept (h : Fifo before printed k s) (hroom : printed.length < k+65535) (signed : Bool)
    (cChr : Byte) {j : ℕ} (hj : j < (printed.drop k).length) :
    (agbPutcInternal signed cChr s).charAt (slot 1 s.nGet j) = s.charAt (slot 1 s.nGet j) := by
  have hlength : (printed.drop k).length = printed.length-k := List.length_drop
  have hput := h.queue.apart (i := 0) (by omega) hj
  have hnext := h.queue.apart (i := 1) (by omega) hj
  rw [slot_zero] at hput
  rw [slot_one_succ,slot_zero] at hnext
  exact charAt_other signed cChr hput hnext

theorem agbPutcInternal_fifo (h : Fifo before printed k s) (hroom : printed.length < k+65535)
    (signed : Bool) (cChr : Byte) :
    Fifo before (printed++[cChr]) k (agbPutcInternal signed cChr s) where
  le := by
    have hle := h.le
    simp
    omega
  consumed := by
    rw [List.take_append_of_le_length h.le]
    exact h.consumed
  queue := by
    rw [List.drop_append_of_le_length h.le]
    refine h.queue.push ?_ (charAt_put signed cChr s) fun j hj => h.kept hroom signed cChr hj
    simp
    omega

/-- What the flush routine takes comes next among the printed bytes. -/
theorem Taken.fifo (ht : Taken n s t) (h : Fifo before printed k s) :
    Fifo before printed (k+n) t := by
  have hle := ht.le
  rw [h.pending] at hle
  have hdrop : n ≤ (printed.drop k).length := by simpa using hle
  have hk := h.le
  have hchar : t.charAt = s.charAt := by
    funext i
    simp only [Printer.charAt,Printer.cell,ht.mem,ht.nBank]
  refine ⟨by omega,?_,?_⟩
  · rw [ht.consumed,h.consumed,h.queue.cells_eq hdrop,List.append_assoc,List.take_add]
  · have hpop := h.queue.pop n hdrop
    rw [hchar,ht.nGet,ht.nPut]
    simpa [List.drop_drop] using hpop

theorem flushOnce_fifo (f : PrintFlush χ) (h : Fifo before printed k s) (hne : s.nPut ≠ s.nGet) :
    ∃ k', k < k' ∧ Fifo before printed k' (flushOnce f s) := by
  obtain ⟨n,hn⟩ := flushOnce_taken f hne
  have hsome := hn.some
  exact ⟨k+n,by omega,hn.fifo h⟩

/-- The loop ends with every printed byte taken. -/
theorem flushAll_fifo (f : PrintFlush χ) (h : Fifo before printed k s) :
    Fifo before printed printed.length (flushAll f s) := by
  induction s using flushAll.induct f generalizing k with
  | case1 s hne ih =>
    obtain ⟨k',-,hk⟩ := flushOnce_fifo f h hne
    rw [flushAll,dif_pos hne]
    exact ih hk
  | case2 s heq =>
    rw [flushAll,dif_neg heq]
    rw [not_not,h.queue.eq_iff,List.drop_eq_nil_iff] at heq
    have hk := h.le
    have hall : k = printed.length := by omega
    exact hall ▸ h

theorem agbPrintFlush_fifo (f : PrintFlush χ) (h : Fifo before printed k s) :
    Fifo before printed printed.length (agbPrintFlush f s) := by
  have hloop : Fifo before printed printed.length
      (flushAll f { s with ime := s.ime &&& ~~~1, wscnt := wscntData }) :=
    flushAll_fifo f (h.of_same rfl rfl rfl rfl rfl)
  exact hloop.of_same rfl rfl rfl rfl rfl

theorem agbPrintFlush1Block_fifo (f : PrintFlush χ) (h : Fifo before printed k s) :
    ∃ k', k ≤ k' ∧ (s.nPut ≠ s.nGet → k < k') ∧ Fifo before printed k' (agbPrintFlush1Block f s) := by
  have hset : Fifo before printed k { s with ime := s.ime &&& ~~~1, wscnt := wscntData } :=
    h.of_same rfl rfl rfl rfl rfl
  by_cases hne : s.nPut ≠ s.nGet
  · obtain ⟨k',hlt,hk⟩ := flushOnce_fifo f hset hne
    refine ⟨k',hlt.le,fun _ => hlt,?_⟩
    simp only [agbPrintFlush1Block,agbPrintTransferDataInternal,if_pos hne]
    exact hk.of_same rfl rfl rfl rfl rfl
  · refine ⟨k,le_rfl,fun h => absurd h hne,?_⟩
    simp only [agbPrintFlush1Block,agbPrintTransferDataInternal,if_neg hne]
    exact hset.of_same rfl rfl rfl rfl rfl

/-- Between calls there is room for one more character. -/
def Ready (before printed : List Byte) (s : Printer χ) : Prop :=
  ∃ k, Fifo before printed k s ∧ printed.length < k+65535

theorem ready_init (s : Printer χ) : Ready s.consumed [] (agbPrintInit s) :=
  ⟨0,fifo_init s,by simp⟩

theorem Ready.of_same (h : Ready before printed s) (hmem : t.mem = s.mem) (hbank : t.nBank = s.nBank)
    (hget : t.nGet = s.nGet) (hput : t.nPut = s.nPut) (hconsumed : t.consumed = s.consumed) :
    Ready before printed t := by
  obtain ⟨k,hk,hroom⟩ := h
  exact ⟨k,hk.of_same hmem hbank hget hput hconsumed,hroom⟩

theorem Ready.putc (h : Ready before printed s) (signed : Bool) (f : PrintFlush χ) (cChr : Byte) :
    Ready before (printed++[cChr]) (agbPutc signed f cChr s) := by
  obtain ⟨k,hk,hroom⟩ := h
  have hput : Fifo before (printed++[cChr]) k
      { agbPutcInternal signed cChr { s with wscnt := wscntData } with wscnt := s.wscnt } :=
    (agbPutcInternal_fifo (hk.of_same rfl rfl rfl rfl rfl) hroom signed cChr).of_same
      rfl rfl rfl rfl rfl
  have hfull := hput.queue.full_iff
  simp only [List.length_drop,List.length_append,List.length_singleton] at hfull
  rw [agbPutc]
  split_ifs with hmeet
  · -- the last free cell has been filled, and the flush routine is called
    obtain ⟨k',-,hlt,hk'⟩ := agbPrintFlush1Block_fifo f hput
    have hle := hk.le
    have hwaits : (printed++[cChr]).drop k ≠ [] := by
      rw [Ne,List.drop_eq_nil_iff,List.length_append,List.length_singleton]
      omega
    have hlt := hlt ((not_congr hput.queue.eq_iff).2 hwaits)
    exact ⟨k',hk',by simp; omega⟩
  · have hne := (not_congr hfull).1 hmeet
    exact ⟨k,hput,by simp; omega⟩

theorem Ready.flush1Block (h : Ready before printed s) (f : PrintFlush χ) :
    Ready before printed (agbPrintFlush1Block f s) := by
  obtain ⟨k,hk,hroom⟩ := h
  obtain ⟨k',hle,-,hk'⟩ := agbPrintFlush1Block_fifo f hk
  exact ⟨k',hk',by omega⟩

theorem Ready.flush (h : Ready before printed s) (f : PrintFlush χ) :
    Ready before printed (agbPrintFlush f s) := by
  obtain ⟨k,hk,-⟩ := h
  exact ⟨printed.length,agbPrintFlush_fifo f hk,by omega⟩

theorem Ready.loop (signed : Bool) (f : PrintFlush χ) (pBuf : List Byte)
    (h : Ready before printed s) :
    Ready before (printed++pBuf.takeWhile (· ≠ 0)) (agbPrintLoop signed f pBuf s) := by
  induction pBuf generalizing s printed with
  | nil => simpa [agbPrintLoop] using h
  | cons c pBuf ih =>
    by_cases hc : c = 0
    · simpa [agbPrintLoop,hc] using h
    · have hrest := ih (h.putc signed f c)
      rw [List.append_assoc,List.singleton_append] at hrest
      rw [agbPrintLoop,if_neg hc,List.takeWhile_cons_of_pos (by simpa using hc)]
      exact hrest

theorem Ready.exec (h : Ready before printed s) (signed : Bool) (f : PrintFlush χ) (c : Call) :
    Ready before (printed++c.printed) (exec signed f s c) := by
  cases c with
  | putc cChr => exact h.putc signed f cChr
  | print pBuf =>
    have hset : Ready before printed { s with wscnt := wscntData } := h.of_same rfl rfl rfl rfl rfl
    exact (hset.loop signed f pBuf).of_same rfl rfl rfl rfl rfl
  | flush1Block => simpa [Call.printed,AgbPrint.exec] using h.flush1Block f
  | flush => simpa [Call.printed,AgbPrint.exec] using h.flush f

theorem Ready.run (signed : Bool) (f : PrintFlush χ) (calls : List Call)
    (h : Ready before printed s) :
    Ready before (printed++calls.flatMap Call.printed) (run (AgbPrint.exec signed f) s calls) := by
  induction calls generalizing s printed with
  | nil => simpa using h
  | cons c calls ih =>
    have hrest := ih (h.exec signed f c)
    simpa using hrest

end Bytes

section Registers

variable {s t u : Printer χ} {signed : Bool} {f : PrintFlush χ}

/-- The registers are as they were, and the cartridge is protected. -/
structure Restored (s t : Printer χ) : Prop where
  wscnt : t.wscnt = s.wscnt
  ime : t.ime = s.ime
  protect : t.protect = 0

theorem Restored.trans (h : Restored s t) (h' : Restored t u) : Restored s u where
  wscnt := h'.wscnt.trans h.wscnt
  ime := h'.ime.trans h.ime
  protect := h'.protect

theorem flushAll_protect (f : PrintFlush χ) (h : s.protect = 0) : (flushAll f s).protect = 0 := by
  induction s using flushAll.induct f with
  | case1 s hne ih =>
    rw [flushAll,dif_pos hne]
    exact ih rfl
  | case2 s heq =>
    rw [flushAll,dif_neg heq]
    exact h

theorem agbPrintTransferDataInternal_restored (f : PrintFlush χ) (bAllData : Bool)
    (h : s.protect = 0) : Restored s (agbPrintTransferDataInternal f bAllData s) where
  wscnt := rfl
  ime := rfl
  protect := by
    cases bAllData with
    | true => exact flushAll_protect f h
    | false =>
      by_cases hne : s.nPut ≠ s.nGet
      · simp [agbPrintTransferDataInternal,hne,flushOnce]
      · simpa [agbPrintTransferDataInternal,hne] using h

theorem agbPutc_restored (signed : Bool) (f : PrintFlush χ) (cChr : Byte) (s : Printer χ) :
    Restored s (agbPutc signed f cChr s) := by
  have hput : Restored s
      { agbPutcInternal signed cChr { s with wscnt := wscntData } with wscnt := s.wscnt } :=
    ⟨rfl,rfl,rfl⟩
  rw [agbPutc]
  split_ifs with hmeet
  · exact hput.trans (agbPrintTransferDataInternal_restored f false hput.protect)
  · exact hput

theorem agbPrintLoop_restored (signed : Bool) (f : PrintFlush χ) (pBuf : List Byte)
    (h : s.protect = 0) : Restored s (agbPrintLoop signed f pBuf s) := by
  induction pBuf generalizing s with
  | nil => exact ⟨rfl,rfl,h⟩
  | cons c pBuf ih =>
    rw [agbPrintLoop]
    split_ifs with hc
    · exact ⟨rfl,rfl,h⟩
    · have hputc := agbPutc_restored signed f c s
      exact hputc.trans (ih hputc.protect)

theorem exec_restored (signed : Bool) (f : PrintFlush χ) (h : s.protect = 0) (c : Call) :
    Restored s (exec signed f s c) := by
  cases c with
  | putc cChr => exact agbPutc_restored signed f cChr s
  | print pBuf =>
    have hloop := agbPrintLoop_restored (s := { s with wscnt := wscntData }) signed f pBuf h
    exact ⟨rfl,hloop.ime,hloop.protect⟩
  | flush1Block => exact agbPrintTransferDataInternal_restored f false h
  | flush => exact agbPrintTransferDataInternal_restored f true h

theorem run_restored (signed : Bool) (f : PrintFlush χ) (s : Printer χ) (calls : List Call) :
    Restored s (run (exec signed f) (agbPrintInit s) calls) := by
  have hinit : Restored s (agbPrintInit s) := ⟨rfl,rfl,rfl⟩
  exact run_invariant (fun _ c h => h.trans (exec_restored signed f h.protect c)) hinit calls

end Registers

section Runs

/-- Writing one more character leaves the pending ones as they are. -/
def Kept (signed : Bool) (s : Printer χ) : Prop :=
  ∀ cChr, ∀ j < s.pending,
    (agbPutcInternal signed cChr s).charAt (slot 1 s.nGet j) = s.charAt (slot 1 s.nGet j)

theorem Ready.kept {before printed : List Byte} {s : Printer χ} (h : Ready before printed s)
    (signed : Bool) : Kept signed s := by
  obtain ⟨k,hk,hroom⟩ := h
  intro cChr j hj
  rw [hk.pending] at hj
  exact hk.kept hroom signed cChr (by simpa using hj)

/-- What has been taken and what is pending is what was printed, whatever the flush routine takes
at a time. No pending byte is overwritten, by a character or by one inside of a string, and every
call leaves the registers as they were. -/
theorem print_fifo (signed : Bool) (f : PrintFlush χ) (s : Printer χ) (calls : List Call) :
    let printed := calls.flatMap Call.printed
    let t := run (exec signed f) (agbPrintInit s) calls
    (∃ k ≤ printed.length, t.consumed = s.consumed++printed.take k ∧
      t.pending = printed.length-k ∧ t.pending < 65535 ∧
      cells t.charAt t.nGet t.pending = printed.drop k) ∧
    Kept signed t ∧
    (∀ pBuf, Kept signed (agbPrintLoop signed f pBuf { t with wscnt := wscntData })) ∧
    Restored s t ∧ (∀ c, Restored t (exec signed f t c)) ∧
    (agbPrintFlush f t).nPut = (agbPrintFlush f t).nGet ∧
    (agbPrintFlush f t).consumed = s.consumed++printed := by
  intro printed t
  have hready : Ready s.consumed printed t := by
    have hrun := (ready_init s).run signed f calls
    simpa using hrun
  have hset : Ready s.consumed printed { t with wscnt := wscntData } :=
    hready.of_same rfl rfl rfl rfl rfl
  have hrestored := run_restored signed f s calls
  obtain ⟨k,hk,hroom⟩ := id hready
  have hlength : (printed.drop k).length = printed.length-k := List.length_drop
  have hflush := agbPrintFlush_fifo f hk
  refine ⟨⟨k,hk.le,hk.consumed,hk.pending,?_,?_⟩,hready.kept signed,
    fun pBuf => (hset.loop signed f pBuf).kept signed,hrestored,
    fun c => exec_restored signed f hrestored.protect c,?_,?_⟩
  · rw [hk.pending]
    omega
  · rw [hk.pending,hk.queue.cells_eq (by omega),← hlength,List.take_length]
  · rw [hflush.queue.eq_iff,List.drop_length]
  · rw [hflush.consumed,List.take_length]

end Runs

end AgbPrint
end AgbTools
