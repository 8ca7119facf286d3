import AgbTools.MaskSets
import AgbTools.Rfu
import AgbTools.Runs

/-! The connections of a console: the slots that are connected or lost, their count, and the
routines that follow the reports of the adapter. -/
namespace AgbTools
namespace Rfu

open MaskSets

/-- A console with the rest of its link data: bytes 1 and 0xA to 0xD of the link status, and
of the fixed data bits 2 and 4 of byte 0, the bytes 5, 6, 0xA to 0xD and 0xE to 0x11, the
ids at 0x12, the limit at 0x1A and the timer at 0x20. -/
structure Console extends Station where
  connCount : ℕ
  strength : Fin 4 → ℕ
  lastSlave : Bool
  slaveTimer : Bool
  target : Byte
  watchTimer : ℕ
  failCount : Fin 4 → ℕ
  newSlot : Fin 4 → ℕ
  ids : Fin 4 → BitVec 16
  failLimit : ℕ
  timer : ℕ

/-- `rfu_initializeAPI`. -/
def Console.initial (address : ℕ) (mem : ℕ → Byte) : Console where
  toStation := initializeAPI address mem
  connCount := 0
  strength := fun _ => 0
  lastSlave := false
  slaveTimer := false
  target := 0
  watchTimer := 0
  failCount := fun _ => 0
  newSlot := fun _ => 0
  ids := fun _ => 0
  failLimit := 0
  timer := 0

namespace Console

/-- `rfu_STC_removeLinkData` with the count and the counter of a new slot. -/
def removeLinkData (s : Console) (i : Fin 4) (forget : Bool) : Console :=
  { s with
    toStation := Rfu.removeLinkData s.toStation i forget
    newSlot := Function.update s.newSlot i 0
    connCount := if s.connSlot.getLsbD i ∧ s.connCount ≠ 0 then s.connCount-1 else s.connCount
    strength := if forget then Function.update s.strength i 0 else s.strength }

/-- `rfu_STC_clearLinkStatus`. -/
def clearLinkStatus (s : Console) (forget : Bool) : Console :=
  let t := clearAllSlot s.toStation
  let wiped := CellMemory.write t.mem (t.linkAddress + 0x14) (List.replicate 0x80 0)
  { s with
    toStation := { t with
      connSlot := 0, linkLoss := 0, nameFlag := 0, mem := if forget then wiped else t.mem }
    connCount := 0
    strength := fun _ => 0 }

section Connect

/-- An entry of a child list: id and slot number. -/
structure ChildEntry where
  id : BitVec 16
  slot : Byte

def readEntry (s : Console) (e : ChildEntry) : Console :=
  if h : e.slot.toNat < 4 then
    let i : Fin 4 := ⟨e.slot.toNat,h⟩
    if s.connSlot.getLsbD i ∨ s.linkLoss.getLsbD i then s
    else
      { s with
        toStation := readChild s.toStation i
        newSlot := Function.update s.newSlot i 0xF0
        strength := Function.update s.strength i 0x10
        connCount := (s.connCount+1) % 256
        ids := Function.update s.ids i e.id }
  else s

/-- `rfu_STC_readChildList`. -/
def readChildList (s : Console) (entries : List ChildEntry) : Console :=
  entries.foldl readEntry s

/-- `rfu_CB_pollConnectParent`: the result of the request, the slot and the status byte. -/
def cbPollConnectParent (s : Console) (result : BitVec 16) (i : Fin 4) (status : Byte) : Console :=
  if result ≠ 0 ∨ status ≠ 0 ∨ s.connSlot.getLsbD i then s
  else
    { s with
      toStation := connectParent s.toStation i
      connCount := (s.connCount+1) % 256 }

end Connect

section Recover

/-- A lost slot is connected again. -/
def recover (s : Console) (i : Fin 4) : Console :=
  { s with
    connSlot := bit i ||| s.connSlot
    linkLoss := s.linkLoss &&& ~~~bit i
    connCount := (s.connCount+1) % 256
    failCount := Function.update s.failCount i 0 }

/-- `rfu_REQ_CHILD_startConnectRecovery`, as far as the link data go. -/
def startConnectRecovery (s : Console) (bm : Byte) : Console := { s with target := bm }

def recoverTarget (s : Console) (i : Fin 4) : Console :=
  if s.target.getLsbD i ∧ s.linkLoss.getLsbD i then recover s i else s

/-- `rfu_CB_CHILD_pollConnectRecovery`. -/
def cbPollConnectRecovery (s : Console) (result : BitVec 16) (status : Byte) : Console :=
  if result ≠ 0 ∨ status ≠ 0 ∨ s.target = 0 then s
  else
    { (List.finRange 4).foldl recoverTarget { s with mode := .child } with target := 0 }

end Recover

section Disconnect

def removeTarget (s : Console) (i : Fin 4) : Console :=
  if s.target.getLsbD i then removeLinkData s i true else s

/-- Without any slot left a console has no role. -/
def leaveMode (s : Console) : Console :=
  if s.connSlot ||| s.linkLoss = 0 then { s with mode := .off } else s

/-- `rfu_CB_disconnect` with the result of its request, and the answer to the status request it
makes of its own when a child's result is 3: `some` of the state byte if that succeeds. -/
def cbDisconnect (s : Console) (result : BitVec 16) (status : Option Byte) : Console :=
  let result := if result = 3 ∧ s.mode = .child ∧ status = some 0 then 0 else result
  let s := { s with target := (s.connSlot ||| s.linkLoss) &&& s.target }
  leaveMode (if result = 0 then (List.finRange 4).foldl removeTarget s else s)

/-- `rfu_REQ_disconnect`: the targets are noted, and a child without a link that has lost one
of them is done at once; otherwise `rfu_CB_disconnect` follows the adapter. -/
def reqDisconnect (s : Console) (bm : Byte) : Console :=
  if (s.connSlot ||| s.linkLoss) &&& bm = 0 then s
  else
    let s := { s with target := bm }
    if s.mode = .off ∧ s.child then
      if s.linkLoss &&& bm = 0 then s else cbDisconnect s 0 none
    else s

end Disconnect

section Watch

/-- What the adapter says during `rfu_REQBN_watchLink`: bytes 4 and 5 of the receive buffer
before the call, the answer to the link status request, and for each slot the answer to a
system status request. -/
structure WatchReport where
  lost : Byte
  reason : Byte
  link : Except Byte (Fin 4 → Byte)
  system : Fin 4 → Option Byte

/-- The three bytes the caller gets back. -/
structure WatchResult where
  lossSlot : Byte
  reason : Byte
  recovered : Byte

/-- A connected slot without signal, in the round that follows the watch timer. -/
def watchSignal (s : Console) (w : WatchResult) (r : WatchReport) (i : Fin 4) :
    Console × WatchResult :=
  let fails := (s.failCount i + 1) % 256
  let counted := { s with failCount := Function.update s.failCount i fails }
  let lost := { w with lossSlot := bit i ||| w.lossSlot, reason := 1 }
  if s.strength i ≠ 0 then ({ s with failCount := Function.update s.failCount i 0 },w)
  else if s.mode = .parent then (counted,if 3 < fails then lost else w)
  else
    match r.system i with
    | none => (s,w)
    | some 0 => (s,lost)
    | some _ =>
      if s.failLimit < fails then ({ s with failCount := Function.update s.failCount i 0 },lost)
      else (counted,w)

/-- A parent finds a signal on a lost slot. -/
def watchLost (s : Console) (w : WatchResult) (i : Fin 4) : Console × WatchResult :=
  if s.mode = .parent ∧ s.strength i ≠ 0 ∧ s.linkLoss.getLsbD i then
    if 0xA < s.strength i then (recover s i,{ w with recovered := bit i ||| w.recovered })
    else ({ s with strength := Function.update s.strength i 0 },w)
  else (s,w)

/-- A new slot counts as heard for a while. -/
def watchNew (s : Console) (i : Fin 4) : Console :=
  if s.newSlot i = 0 then s
  else
    { s with
      newSlot := Function.update s.newSlot i ((s.newSlot i + 252) % 256)
      strength := if s.strength i ≤ 0xF then Function.update s.strength i 0x10 else s.strength }

/-- One round of the loop over the slots. The disconnect requests it may send for slots that
are not ours change nothing here. -/
def watchSlot (timed : Bool) (r : WatchReport) (sw : Console × WatchResult) (i : Fin 4) :
    Console × WatchResult :=
  let s := watchNew sw.1 i
  let (s,w) := if timed ∧ s.connSlot.getLsbD i then watchSignal s sw.2 r i else (s,sw.2)
  let (s,w) := watchLost s w i
  if (s.connSlot &&& w.lossSlot).getLsbD i then (removeLinkData s i false,w) else (s,w)

/-- The slots a failed request names are removed at once. -/
def watchFailed (lost : Byte) (s : Console) (i : Fin 4) : Console :=
  if lost.getLsbD i then
    removeLinkData { s with strength := Function.update s.strength i 0 } i false
  else s

/-- The timers at the start of a watch. -/
def watchTimers (s : Console) : Console :=
  { s with
    timer := if s.slaveTimer then 0x168 else s.timer
    watchTimer := if s.watchTimer = 0 then 4 else s.watchTimer }

/-- The request is one that reports lost slots itself. -/
def reportsLoss (req : BitVec 16) : Bool := req &&& 0xFF = 0x29

/-- The request failed because of lost slots. -/
def failedByLoss (req : BitVec 16) : Bool := reportsLoss req = false ∧ req = 0x136

/-- The slots a failed request no longer reaches. -/
def unreached (s : Console) (r : WatchReport) : Byte := (r.reason ^^^ s.connSlot) &&& s.connSlot

def watchStart (s : Console) (req : BitVec 16) (r : WatchReport) : WatchResult :=
  if reportsLoss req then ⟨if r.reason = 1 then s.connSlot else r.lost,r.reason,0⟩
  else if failedByLoss req then ⟨unreached s r,1,0⟩
  else ⟨0,0,0⟩

/-- `rfu_REQBN_watchLink` for the request `req`; `master` when the serial port is in master
mode. -/
def watchLink (s : Console) (req : BitVec 16) (master : Bool) (r : WatchReport) :
    Console × WatchResult :=
  if s.mode = .off ∨ master = false then (s,⟨0,0,0⟩)
  else
    let w := watchStart s req r
    let s' := if failedByLoss req then
        (List.finRange 4).foldl (watchFailed (unreached s r)) (watchTimers s)
      else watchTimers s
    if s.watchTimer ≠ 0 ∧ reportsLoss req = false then (s',w)
    else
      match r.link with
      | .error _ => (s',w)
      | .ok strengths =>
        (List.finRange 4).foldl (watchSlot (s.watchTimer = 0 ∧ reportsLoss req = false) r)
          ({ s' with strength := fun i => (strengths i).toNat },w)

end Watch

def removeKnown (known : Byte) (s : Console) (i : Fin 4) : Console :=
  if known.getLsbD i then removeLinkData s i true else s

/-- The timers of a frame: `slaveTimer` runs from the time the port becomes slave. -/
def vblankTimers (s : Console) (master : Bool) : Console :=
  let start : Bool := s.lastSlave = false ∧ master = false
  let stop : Bool := s.lastSlave ∧ master
  { s with
    watchTimer := s.watchTimer-1
    slaveTimer := if start then true else if stop then false else s.slaveTimer
    timer := if start then 0x168 else s.timer
    lastSlave := !master }

/-- A console that stayed slave for too long has lost its links. -/
def loseLinks (s : Console) : Console :=
  { (List.finRange 4).foldl (removeKnown (s.connSlot ||| s.linkLoss))
      { s with slaveTimer := false } with
    mode := .off }

/-- `rfu_syncVBlank`; `rfu_NI_checkCommFailCounter`, which it starts with, is about the slots. -/
def syncVBlank (s : Console) (master : Bool) : Console :=
  if s.mode = .off then s
  else
    let s := vblankTimers s master
    if s.slaveTimer = false then s
    else if s.timer ≠ 0 then { s with timer := s.timer-1 }
    else loseLinks s

/-- What can happen to the connections. -/
inductive LinkEvent
  | clearLinkStatus (forget : Bool)
  | readChildList (entries : List ChildEntry)
  | pollConnectParent (result : BitVec 16) (slot : Fin 4) (status : Byte)
  | startConnectRecovery (bm : Byte)
  | pollConnectRecovery (result : BitVec 16) (status : Byte)
  | reqDisconnect (bm : Byte)
  | disconnected (result : BitVec 16) (status : Option Byte)
  | watchLink (req : BitVec 16) (master : Bool) (report : WatchReport)
  | syncVBlank (master : Bool)

def linkStep (s : Console) : LinkEvent → Console
  | .clearLinkStatus forget => clearLinkStatus s forget
  | .readChildList entries => readChildList s entries
  | .pollConnectParent result i status => cbPollConnectParent s result i status
  | .startConnectRecovery bm => startConnectRecovery s bm
  | .pollConnectRecovery result status => cbPollConnectRecovery s result status
  | .reqDisconnect bm => reqDisconnect s bm
  | .disconnected result status => cbDisconnect s result status
  | .watchLink req master report => (watchLink s req master report).1
  | .syncVBlank master => syncVBlank s master

section Counted

/-- The count is the number of connected slots, and no slot is both connected and lost. -/
structure Counted (s : Console) : Prop where
  count : s.connCount = (ones s.connSlot).card
  disjoint : s.connSlot &&& s.linkLoss = 0

variable {s s' : Console} {i : Fin 4}

theorem Counted.congr (h : Counted s) (hcount : s'.connCount = s.connCount)
    (hconn : s'.connSlot = s.connSlot) (hloss : s'.linkLoss = s.linkLoss) : Counted s' :=
  ⟨by rw [hcount,hconn]; exact h.count,by rw [hconn,hloss]; exact h.disjoint⟩

/-- A slot that was not connected is now, and it does not count as lost. -/
theorem Counted.connect (h : Counted s) (hi : s.connSlot.getLsbD i = false)
    (hcount : s'.connCount = (s.connCount+1) % 256) (hconn : s'.connSlot = bit i ||| s.connSlot)
    (hloss : ∀ b, s'.linkLoss.getLsbD b = true → s.linkLoss.getLsbD b = true ∧ b ≠ i) :
    Counted s' := by
  have hcard : (ones s'.connSlot).card = (ones s.connSlot).card + 1 := by
    have hlt : (i : ℕ) < 8 := by omega
    refine card_ones_set (b := ⟨i,hlt⟩) hi fun c => ?_
    rw [hconn,BitVec.getLsbD_or,getLsbD_bit]
    simp [Fin.ext_iff]
  have hle : (ones s.connSlot).card ≤ 8 := (Finset.card_le_univ _).trans (by simp)
  constructor
  · rw [hcount,h.count,hcard]
    omega
  · rw [and_eq_zero_iff]
    intro b hb
    rw [hconn,BitVec.getLsbD_or,getLsbD_bit,Bool.or_eq_true,decide_eq_true_eq] at hb
    by_contra hnot
    obtain ⟨hold,hne⟩ := hloss b (by simpa using hnot)
    obtain hb | hb := hb
    · exact hne hb
    · rw [and_eq_zero_iff.mp h.disjoint b hb] at hold
      cases hold

/-- `rfu_STC_removeLinkData`. -/
theorem Counted.removeLinkData (h : Counted s) (i : Fin 4) (forget : Bool) :
    Counted (s.removeLinkData i forget) := by
  have hconn : (s.removeLinkData i forget).connSlot = ~~~bit i &&& s.connSlot := by
    cases forget <;> rfl
  have hloss : ∀ b, (s.removeLinkData i forget).linkLoss.getLsbD b = true →
      b = i ∨ s.linkLoss.getLsbD b = true := by
    intro b hb
    cases forget with
    | false => simpa [Console.removeLinkData,Rfu.removeLinkData] using hb
    | true =>
      have hand : ((b < 8 ∧ b ≠ i) ∧ (b = i ∨ s.linkLoss.getLsbD b = true)) := by
        simpa [Console.removeLinkData,Rfu.removeLinkData] using hb
      exact hand.2
  constructor
  · rw [hconn]
    show (if s.connSlot.getLsbD i ∧ s.connCount ≠ 0 then s.connCount-1 else s.connCount) = _
    by_cases hi : s.connSlot.getLsbD i = true
    · have hlt : (i : ℕ) < 8 := by omega
      have hcard : (ones (~~~bit i &&& s.connSlot)).card + 1 = (ones s.connSlot).card := by
        refine card_ones_clear (b := ⟨i,hlt⟩) hi fun c => ?_
        rw [BitVec.getLsbD_and,BitVec.getLsbD_not,getLsbD_bit]
        simp [Fin.ext_iff]
      rw [if_pos ⟨hi,by rw [h.count]; omega⟩,h.count]
      omega
    · have hsame : ~~~bit i &&& s.connSlot = s.connSlot := by
        refine BitVec.eq_of_getLsbD_eq fun b hb => ?_
        rw [BitVec.getLsbD_and,BitVec.getLsbD_not,getLsbD_bit]
        by_cases hbi : b = i
        · subst hbi
          simp [hi]
        · simp [hb,hbi]
      rw [if_neg (fun hc => hi hc.1),hsame,h.count]
  · rw [and_eq_zero_iff]
    intro b hb
    rw [hconn,BitVec.getLsbD_and,BitVec.getLsbD_not,getLsbD_bit] at hb
    have hb' : (b < 8 ∧ b ≠ i) ∧ s.connSlot.getLsbD b = true := by simpa using hb
    by_contra hnot
    obtain hbi | hold := hloss b (by simpa using hnot)
    · exact hb'.1.2 hbi
    · rw [and_eq_zero_iff.mp h.disjoint b hb'.2] at hold
      cases hold

theorem Counted.recover (h : Counted s) (hi : s.linkLoss.getLsbD i = true) :
    Counted (s.recover i) := by
  have hconn : s.connSlot.getLsbD i = false := by
    by_contra hnot
    rw [and_eq_zero_iff.mp h.disjoint i (by simpa using hnot)] at hi
    cases hi
  refine h.connect hconn rfl rfl fun b hb => ?_
  have hb' : s.linkLoss.getLsbD b = true ∧ b < 8 ∧ b ≠ i := by
    simpa [Console.recover] using hb
  exact ⟨hb'.1,hb'.2.2⟩

/-- Loops over the slots. -/
theorem Counted.foldl {f : Console → Fin 4 → Console} (hf : ∀ s i, Counted s → Counted (f s i))
    (h : Counted s) (is : List (Fin 4)) : Counted (is.foldl f s) :=
  Runs.run_invariant hf h is

theorem Counted.readEntry (h : Counted s) (e : ChildEntry) : Counted (s.readEntry e) := by
  unfold Console.readEntry
  dsimp only
  split_ifs with hslot hknown
  · exact h
  · have hconn := (not_or.mp hknown).1
    have hloss := (not_or.mp hknown).2
    have hread : readChild s.toStation ⟨e.slot.toNat,hslot⟩ =
        { s.toStation with
          connSlot := bit ⟨e.slot.toNat,hslot⟩ ||| s.connSlot, mode := .parent, child := false } :=
      if_neg hknown
    refine h.connect (i := ⟨e.slot.toNat,hslot⟩) (by simpa using hconn) rfl ?_ ?_
    · simp only [hread]
    · simp only [hread]
      intro b hb
      refine ⟨hb,?_⟩
      rintro rfl
      exact hloss hb
  · exact h

theorem Counted.cbPollConnectParent (h : Counted s) (result : BitVec 16) (i : Fin 4)
    (status : Byte) : Counted (s.cbPollConnectParent result i status) := by
  unfold Console.cbPollConnectParent
  split_ifs with hrefuse
  · exact h
  · have hconn := (not_or.mp (not_or.mp hrefuse).2).2
    have hnew : connectParent s.toStation i =
        { s.toStation with
          connSlot := bit i ||| s.connSlot, linkLoss := s.linkLoss &&& ~~~bit i
          mode := .child, child := true } :=
      if_neg hconn
    refine h.connect (i := i) (by simpa using hconn) rfl ?_ ?_
    · simp only [hnew]
    · simp only [hnew]
      intro b hb
      have hb' : s.linkLoss.getLsbD b = true ∧ b < 8 ∧ b ≠ i := by simpa using hb
      exact ⟨hb'.1,hb'.2.2⟩

theorem Counted.cbPollConnectRecovery (h : Counted s) (result : BitVec 16) (status : Byte) :
    Counted (s.cbPollConnectRecovery result status) := by
  have hslot : ∀ (s : Console) i, Counted s → Counted (s.recoverTarget i) := by
    intro s i hs
    unfold Console.recoverTarget
    split_ifs with hi
    · exact hs.recover hi.2
    · exact hs
  unfold Console.cbPollConnectRecovery
  split_ifs
  · exact h
  · have hchild : Counted { s with mode := .child } := h.congr rfl rfl rfl
    exact (Counted.foldl hslot hchild (List.finRange 4)).congr rfl rfl rfl

theorem Counted.cbDisconnect (h : Counted s) (result : BitVec 16) (status : Option Byte) :
    Counted (s.cbDisconnect result status) := by
  have hslot : ∀ (s : Console) i, Counted s → Counted (s.removeTarget i) := by
    intro s i hs
    unfold Console.removeTarget
    split_ifs
    · exact hs.removeLinkData i true
    · exact hs
  have htarget : Counted { s with target := (s.connSlot ||| s.linkLoss) &&& s.target } :=
    h.congr rfl rfl rfl
  have hloop := Counted.foldl hslot htarget (List.finRange 4)
  have hleave : ∀ s : Console, Counted s → Counted s.leaveMode := by
    intro s hs
    unfold Console.leaveMode
    split_ifs
    · exact hs.congr rfl rfl rfl
    · exact hs
  unfold Console.cbDisconnect
  apply hleave
  split_ifs
  · exact hloop
  · exact htarget
  · exact hloop
  · exact htarget

theorem Counted.reqDisconnect (h : Counted s) (bm : Byte) : Counted (s.reqDisconnect bm) := by
  have htarget : Counted { s with target := bm } := h.congr rfl rfl rfl
  unfold Console.reqDisconnect
  dsimp only
  split_ifs
  · exact h
  · exact htarget
  · exact htarget.cbDisconnect 0 none
  · exact htarget

theorem Counted.watchNew (h : Counted s) (i : Fin 4) : Counted (s.watchNew i) := by
  unfold Console.watchNew
  split_ifs
  · exact h
  · exact h.congr rfl rfl rfl
  · exact h.congr rfl rfl rfl

theorem Counted.watchSignal (h : Counted s) (w : WatchResult) (r : WatchReport) (i : Fin 4) :
    Counted (s.watchSignal w r i).1 := by
  unfold Console.watchSignal
  dsimp only
  split_ifs
  · exact h.congr rfl rfl rfl
  · exact h.congr rfl rfl rfl
  · exact h.congr rfl rfl rfl
  · split
    · exact h
    · exact h
    · exact h.congr rfl rfl rfl
  · split
    · exact h
    · exact h
    · exact h.congr rfl rfl rfl

theorem Counted.watchLost (h : Counted s) (w : WatchResult) (i : Fin 4) :
    Counted (s.watchLost w i).1 := by
  unfold Console.watchLost
  split_ifs with hlost
  · exact h.recover hlost.2.2
  · exact h.congr rfl rfl rfl
  · exact h

theorem Counted.watchSlot (timed : Bool) (r : WatchReport) (sw : Console × WatchResult)
    (i : Fin 4) (h : Counted sw.1) : Counted (watchSlot timed r sw i).1 := by
  have hnew := h.watchNew i
  have hsignal : Counted (if timed ∧ (sw.1.watchNew i).connSlot.getLsbD i then
      (sw.1.watchNew i).watchSignal sw.2 r i else (sw.1.watchNew i,sw.2)).1 := by
    split_ifs
    · exact hnew.watchSignal sw.2 r i
    · exact hnew
  unfold Console.watchSlot
  dsimp only
  generalize (if timed ∧ (sw.1.watchNew i).connSlot.getLsbD i then
      (sw.1.watchNew i).watchSignal sw.2 r i else (sw.1.watchNew i,sw.2)) = q at hsignal ⊢
  have hlost := hsignal.watchLost q.2 i
  split_ifs
  · exact hlost.removeLinkData i false
  · exact hlost

theorem Counted.watchFailed (h : Counted s) (lost : Byte) (i : Fin 4) :
    Counted (watchFailed lost s i) := by
  have hweak : Counted { s with strength := Function.update s.strength i 0 } :=
    h.congr rfl rfl rfl
  unfold Console.watchFailed
  split_ifs
  · exact hweak.removeLinkData i false
  · exact h

theorem Counted.watchLink (h : Counted s) (req : BitVec 16) (master : Bool) (r : WatchReport) :
    Counted (s.watchLink req master r).1 := by
  have htimers : Counted s.watchTimers := h.congr rfl rfl rfl
  have hdrop : Counted (if failedByLoss req then
      (List.finRange 4).foldl (Console.watchFailed (s.unreached r)) s.watchTimers
      else s.watchTimers) := by
    split_ifs
    · exact Counted.foldl (fun s i hs => hs.watchFailed (i := i) _) htimers _
    · exact htimers
  unfold Console.watchLink
  dsimp only
  generalize (if failedByLoss req then
      (List.finRange 4).foldl (Console.watchFailed (s.unreached r)) s.watchTimers
      else s.watchTimers) = s' at hdrop ⊢
  split_ifs
  · exact h
  · exact hdrop
  · split
    · exact hdrop
    · exact @Runs.run_invariant _ _ _ (fun sw : Console × WatchResult => Counted sw.1)
        (fun sw i => Counted.watchSlot _ r sw i) _ (hdrop.congr rfl rfl rfl) (List.finRange 4)

theorem Counted.syncVBlank (h : Counted s) (master : Bool) : Counted (s.syncVBlank master) := by
  have hknown : ∀ (known : Byte) (s : Console) i, Counted s → Counted (removeKnown known s i) := by
    intro known s i hs
    unfold Console.removeKnown
    split_ifs
    · exact hs.removeLinkData i true
    · exact hs
  have hlose : ∀ s : Console, Counted s → Counted s.loseLinks := by
    intro s hs
    have hstop : Counted { s with slaveTimer := false } := hs.congr rfl rfl rfl
    exact (Counted.foldl (hknown _) hstop (List.finRange 4)).congr rfl rfl rfl
  have htimers : Counted (s.vblankTimers master) := h.congr rfl rfl rfl
  unfold Console.syncVBlank
  dsimp only
  split_ifs
  · exact h
  · exact htimers
  · exact htimers.congr rfl rfl rfl
  · exact hlose _ htimers

theorem Counted.linkStep (s : Console) (e : LinkEvent) (h : Counted s) :
    Counted (s.linkStep e) := by
  cases e with
  | clearLinkStatus forget => exact ⟨by simp [Console.linkStep,Console.clearLinkStatus],by
      simp [Console.linkStep,Console.clearLinkStatus]⟩
  | readChildList entries => exact Runs.run_invariant (fun s e hs => hs.readEntry e) h entries
  | pollConnectParent result i status => exact h.cbPollConnectParent result i status
  | startConnectRecovery bm => exact h.congr rfl rfl rfl
  | pollConnectRecovery result status => exact h.cbPollConnectRecovery result status
  | reqDisconnect bm => exact h.reqDisconnect bm
  | disconnected result status => exact h.cbDisconnect result status
  | watchLink req master report => exact h.watchLink req master report
  | syncVBlank master => exact h.syncVBlank master

/-- In every run of adapter reports and calls the connection count is the number of connected
slots, and the connected and the lost slots are disjoint. -/
theorem connection_bookkeeping (address : ℕ) (mem : ℕ → Byte) (es : List LinkEvent) :
    let s := Runs.run Console.linkStep (Console.initial address mem) es
    s.connCount = (ones s.connSlot).card ∧ s.connSlot &&& s.linkLoss = 0 := by
  have hinit : Counted (Console.initial address mem) :=
    ⟨by simp [Console.initial,initializeAPI],by simp [Console.initial,initializeAPI]⟩
  have hrun := Runs.run_invariant Counted.linkStep hinit es
  exact ⟨hrun.count,hrun.disjoint⟩

end Counted

end Console
end Rfu
end AgbTools
