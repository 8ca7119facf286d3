import AgbTools.Flash
import AgbTools.Runs
import Mathlib.Tactic.IntervalCases

/-! `WaitForFlashWrite_Common` access by access, with the interrupts of the flash timer between any
two accesses: it restores what it has changed, says how the operation ended, and ends. -/
namespace AgbTools
namespace Flash

open Runs

section Code

def timerEnable : Half := 0x80
def timerIntrEnable : Half := 0x40
def timer256Clk : Half := 2
def intrFlagTimer0 : Half := 8

def mxMaxTime : List Half :=
  [10,65469,timerEnable ||| timerIntrEnable ||| timer256Clk,
    10,65469,timerEnable ||| timerIntrEnable ||| timer256Clk,
    2000,65469,timerEnable ||| timerIntrEnable ||| timer256Clk,
    2000,65469,timerEnable ||| timerIntrEnable ||| timer256Clk]

def leMaxTime : List Half :=
  [10,65469,timerEnable ||| timerIntrEnable ||| timer256Clk,
    10,65469,timerEnable ||| timerIntrEnable ||| timer256Clk,
    2000,65469,timerEnable ||| timerIntrEnable ||| timer256Clk,
    2000,65469,timerEnable ||| timerIntrEnable ||| timer256Clk]

def Setup.maxTime : Setup → List Half
  | .mx29L010 => mxMaxTime
  | .le26FV10N1TS => leMaxTime
  | .defaultFlash => mxMaxTime

/-- The chip during the wait: a poll at the address of the operation, and the reset command. -/
structure Device (δ : Type) where
  pollFlashStatus : δ → Byte × δ
  reset : δ → δ

/-- The registers and static variables that the wait works with. `timer` holds the registers of the
timers as halfwords, two for each timer, and `sTimerReg` is an index into them. -/
structure Machine (δ : Type) where
  ime : Half
  ie : Half
  iflags : Half
  timer : ℕ → Half
  sTimerNum : Byte
  sTimerCount : Half
  sTimerReg : ℕ
  sSavedIme : Half
  gFlashTimeoutFlag : Byte
  chip : δ

/-- The next access of the wait: those of `StartFlashTimer`, of the loop, and of `StopFlashTimer`. -/
inductive Point
  | saveIme
  | mask
  | stopTimer
  | enableIntr
  | clearFlag
  | setCount
  | setReload
  | setControl
  | acknowledge
  | unmask
  | poll
  | checkFlag
  | pollAgain (code : Half)
  | reset (code : Half)
  | maskAgain
  | clearReload
  | clearControl
  | disableIntr
  | restoreIme
  | done
deriving DecidableEq, Repr

/-- A wait under way, with the bytes it has polled, the last one first, and the number of its reset
commands. -/
structure Wait (δ : Type) extends Machine δ where
  point : Point
  result : Half
  polled : List Byte
  resets : ℕ

variable {δ : Type}

def Machine.intrFlag (m : Machine δ) : Half := intrFlagTimer0 <<< m.sTimerNum.toNat

def setFlashTimerIntr (timerNum : Byte) (m : Machine δ) : Half × Machine δ :=
  if timerNum.toNat ≥ 4 then (1,m)
  else (0,{ m with sTimerNum := timerNum, sTimerReg := 2*timerNum.toNat })

def flashTimerIntr (s : Wait δ) : Wait δ :=
  if s.sTimerCount ≠ 0 then
    { s with
      sTimerCount := s.sTimerCount-1
      gFlashTimeoutFlag := if s.sTimerCount-1 = 0 then 1 else s.gFlashTimeoutFlag }
  else s

/-- The call of `WaitForFlashWrite_Common`. -/
def waiting (m : Machine δ) : Wait δ :=
  { toMachine := m, point := .saveIme, result := 0, polled := [], resets := 0 }

variable (dev : Device δ) (maxTime : ℕ → Half) (phase lastData : Byte)

/-- A poll, which leads to `next` unless it returns the expected byte. -/
def pollTo (next : Byte → Point) (s : Wait δ) : Wait δ :=
  let (status,chip) := dev.pollFlashStatus s.chip
  { s with
    chip := chip
    polled := status::s.polled
    point := if status = lastData then .maskAgain else next status }

/-- One access of the program. -/
def access (s : Wait δ) : Wait δ :=
  match s.point with
  | .saveIme => { s with point := .mask, sSavedIme := s.ime }
  | .mask => { s with point := .stopTimer, ime := 0 }
  | .stopTimer =>
    { s with point := .enableIntr, timer := Function.update s.timer (s.sTimerReg+1) 0 }
  | .enableIntr => { s with point := .clearFlag, ie := s.ie ||| s.intrFlag }
  | .clearFlag => { s with point := .setCount, gFlashTimeoutFlag := 0 }
  | .setCount => { s with point := .setReload, sTimerCount := maxTime (phase.toNat*3) }
  | .setReload =>
    { s with
      point := .setControl
      timer := Function.update s.timer s.sTimerReg (maxTime (phase.toNat*3+1))
      sTimerReg := s.sTimerReg+1 }
  | .setControl =>
    { s with
      point := .acknowledge
      timer := Function.update s.timer s.sTimerReg (maxTime (phase.toNat*3+2))
      sTimerReg := s.sTimerReg-1 }
  | .acknowledge => { s with point := .unmask, iflags := s.iflags &&& ~~~s.intrFlag }
  | .unmask => { s with point := .poll, ime := 1 }
  | .poll =>
    pollTo dev lastData
      (fun status => if status &&& 0x20 ≠ 0 then .pollAgain 0xA000 else .checkFlag) s
  | .checkFlag =>
    { s with point := if s.gFlashTimeoutFlag ≠ 0 then .pollAgain 0xC000 else .poll }
  | .pollAgain code => pollTo dev lastData (fun _ => .reset code) s
  | .reset code =>
    { s with
      point := .maskAgain
      chip := dev.reset s.chip
      resets := s.resets+1
      result := phase.setWidth 16 ||| code }
  | .maskAgain => { s with point := .clearReload, ime := 0 }
  | .clearReload =>
    { s with
      point := .clearControl
      timer := Function.update s.timer s.sTimerReg 0
      sTimerReg := s.sTimerReg+1 }
  | .clearControl =>
    { s with
      point := .disableIntr
      timer := Function.update s.timer s.sTimerReg 0
      sTimerReg := s.sTimerReg-1 }
  | .disableIntr => { s with point := .restoreIme, ie := s.ie &&& ~~~s.intrFlag }
  | .restoreIme => { s with point := .done, ime := s.sSavedIme }
  | .done => s

/-- The timer overflows: it requests its interrupt when its control register says so. -/
def overflow (s : Wait δ) : Wait δ :=
  if s.timer (2*s.sTimerNum.toNat+1) &&& (timerEnable ||| timerIntrEnable) =
      timerEnable ||| timerIntrEnable then
    { s with iflags := s.iflags ||| s.intrFlag }
  else s

/-- The interrupt of the timer can be taken. -/
def Wait.Pending (s : Wait δ) : Prop := s.iflags &&& s.intrFlag ≠ 0

/-- The processor takes the interrupt of the timer when it is requested and enabled. -/
def serve (s : Wait δ) : Wait δ :=
  if s.ime &&& 1 ≠ 0 ∧ s.ie &&& s.intrFlag ≠ 0 ∧ s.iflags &&& s.intrFlag ≠ 0 then
    flashTimerIntr { s with iflags := s.iflags &&& ~~~s.intrFlag }
  else s

inductive Event
  | access
  | overflow
  | serve
deriving DecidableEq, Repr

def waitStep (s : Wait δ) : Event → Wait δ
  | .access => Flash.access dev maxTime phase lastData s
  | .overflow => Flash.overflow s
  | .serve => Flash.serve s

end Code

section Restored

variable {δ : Type} {dev : Device δ} {maxTime : ℕ → Half} {phase lastData : Byte} {m : Machine δ}
  {s : Wait δ}

def imeAt (m : Machine δ) : Point → Half
  | .saveIme | .mask | .done => m.ime
  | .poll | .checkFlag | .pollAgain _ | .reset _ | .maskAgain => 1
  | _ => 0

def ieAt (m : Machine δ) : Point → Half
  | .saveIme | .mask | .stopTimer | .enableIntr => m.ie
  | .restoreIme | .done => m.ie &&& ~~~m.intrFlag
  | _ => m.ie ||| m.intrFlag

def regAt (m : Machine δ) : Point → ℕ
  | .setControl | .clearControl => m.sTimerReg+1
  | _ => m.sTimerReg

/-- The registers of the timer that the wait has stopped already. -/
def Stopped : Point → ℕ → Prop
  | .clearControl, i => i = 0
  | .disableIntr, i | .restoreIme, i | .done, i => i ≤ 1
  | _, _ => False

/-- What the wait has changed at each point. -/
structure Kept (m : Machine δ) (s : Wait δ) : Prop where
  num : s.sTimerNum = m.sTimerNum
  saved : s.point ≠ .saveIme → s.sSavedIme = m.ime
  ime : s.ime = imeAt m s.point
  ie : s.ie = ieAt m s.point
  reg : s.sTimerReg = regAt m s.point
  others : ∀ i, i ≠ m.sTimerReg → i ≠ m.sTimerReg+1 → s.timer i = m.timer i
  stopped : ∀ i, Stopped s.point i → s.timer (m.sTimerReg+i) = 0

theorem or_and_not (x y : Half) : (x ||| y) &&& ~~~y = x &&& ~~~y := by
  ext i
  simp only [BitVec.getElem_and,BitVec.getElem_or,BitVec.getElem_not]
  cases x[i] <;> cases y[i] <;> rfl

theorem or_and_right (x y : Half) : (x ||| y) &&& y = y := by
  ext i
  simp only [BitVec.getElem_and,BitVec.getElem_or]
  cases x[i] <;> cases y[i] <;> rfl

theorem Kept.intrFlag (h : Kept m s) : s.intrFlag = m.intrFlag := by
  rw [Machine.intrFlag,Machine.intrFlag,h.num]

variable (dev lastData) in
/-- A poll goes on in the loop, or to the end of it. -/
theorem Kept.pollTo (h : Kept m s) (next : Byte → Point) (hime : imeAt m s.point = 1)
    (hie : ieAt m s.point = m.ie ||| m.intrFlag) (hreg : regAt m s.point = m.sTimerReg)
    (hs : s.point ≠ .saveIme)
    (hnext : ∀ b, next b = .checkFlag ∨ (∃ code, next b = .pollAgain code) ∨
      ∃ code, next b = .reset code) : Kept m (Flash.pollTo dev lastData next s) := by
  have hloop : ∀ p, p = .maskAgain ∨ p = .checkFlag ∨ (∃ code, p = .pollAgain code) ∨
      (∃ code, p = .reset code) → Kept m { Flash.pollTo dev lastData next s with point := p } := by
    rintro p (rfl | rfl | ⟨code,rfl⟩ | ⟨code,rfl⟩) <;>
      exact ⟨h.num,fun _ => h.saved hs,h.ime.trans hime,h.ie.trans hie,h.reg.trans hreg,h.others,nofun⟩
  have hpoint := hloop (Flash.pollTo dev lastData next s).point
  apply hpoint
  unfold Flash.pollTo
  dsimp only
  split_ifs
  · exact .inl rfl
  · exact .inr (hnext _)

theorem Kept.access (h : Kept m s) : Kept m (Flash.access dev maxTime phase lastData s) := by
  have hflag := h.intrFlag
  obtain ⟨⟨ime,ie,iflags,timer,num,count,reg,saved,flag,chip⟩,point,result,polled,resets⟩ := s
  have h' := h
  obtain ⟨hnum,hsaved,hime,hie,hreg,hothers,hstopped⟩ := h
  have hset (i : ℕ) (v : Half) (hi : i = m.sTimerReg ∨ i = m.sTimerReg+1) : ∀ j, j ≠ m.sTimerReg →
      j ≠ m.sTimerReg+1 → Function.update timer i v j = m.timer j := by
    intro j hj hj'
    rw [Function.update_of_ne (by omega)]
    exact hothers j hj hj'
  cases point with
  | saveIme => exact ⟨hnum,fun _ => hime,hime,hie,hreg,hothers,nofun⟩
  | mask => exact ⟨hnum,fun _ => hsaved nofun,rfl,hie,hreg,hothers,nofun⟩
  | stopTimer =>
    exact ⟨hnum,fun _ => hsaved nofun,hime,hie,hreg,hset _ _ (.inr (congrArg (·+1) hreg)),nofun⟩
  | enableIntr =>
    exact ⟨hnum,fun _ => hsaved nofun,hime,congrArg₂ (· ||| ·) hie hflag,hreg,hothers,nofun⟩
  | clearFlag => exact ⟨hnum,fun _ => hsaved nofun,hime,hie,hreg,hothers,nofun⟩
  | setCount => exact ⟨hnum,fun _ => hsaved nofun,hime,hie,hreg,hothers,nofun⟩
  | setReload =>
    exact ⟨hnum,fun _ => hsaved nofun,hime,hie,congrArg (·+1) hreg,hset _ _ (.inl hreg),nofun⟩
  | setControl =>
    exact ⟨hnum,fun _ => hsaved nofun,hime,hie,congrArg (·-1) hreg,hset _ _ (.inr hreg),nofun⟩
  | acknowledge => exact ⟨hnum,fun _ => hsaved nofun,hime,hie,hreg,hothers,nofun⟩
  | unmask => exact ⟨hnum,fun _ => hsaved nofun,rfl,hie,hreg,hothers,nofun⟩
  | poll =>
    refine h'.pollTo dev lastData (fun b => if b &&& 0x20 ≠ 0 then .pollAgain 0xA000 else .checkFlag)
      rfl rfl rfl nofun fun b => ?_
    split_ifs
    · exact .inr (.inl ⟨_,rfl⟩)
    · exact .inl rfl
  | checkFlag =>
    show Kept m { point := if flag ≠ 0 then _ else _, .. }
    split_ifs <;> exact ⟨hnum,fun _ => hsaved nofun,hime,hie,hreg,hothers,nofun⟩
  | pollAgain code =>
    exact h'.pollTo dev lastData (fun _ => .reset code) rfl rfl rfl nofun fun _ => .inr (.inr ⟨_,rfl⟩)
  | reset code => exact ⟨hnum,fun _ => hsaved nofun,hime,hie,hreg,hothers,nofun⟩
  | maskAgain => exact ⟨hnum,fun _ => hsaved nofun,rfl,hie,hreg,hothers,nofun⟩
  | clearReload =>
    refine ⟨hnum,fun _ => hsaved nofun,hime,hie,congrArg (·+1) hreg,hset _ _ (.inl hreg),?_⟩
    rintro i rfl
    exact (congrArg _ hreg.symm).trans (Function.update_self ..)
  | clearControl =>
    refine ⟨hnum,fun _ => hsaved nofun,hime,hie,congrArg (·-1) hreg,hset _ _ (.inr hreg),?_⟩
    intro i hi
    have hreg' : reg = m.sTimerReg+1 := hreg
    show Function.update timer reg 0 (m.sTimerReg+i) = 0
    rcases Nat.le_one_iff_eq_zero_or_eq_one.mp hi with rfl | rfl
    · rw [Function.update_of_ne (by omega)]
      exact hstopped 0 rfl
    · rw [hreg',Function.update_self]
  | disableIntr =>
    refine ⟨hnum,fun _ => hsaved nofun,hime,?_,hreg,hothers,hstopped⟩
    show ie &&& ~~~_ = m.ie &&& ~~~m.intrFlag
    rw [hflag,show ie = m.ie ||| m.intrFlag from hie,or_and_not]
  | restoreIme => exact ⟨hnum,fun _ => hsaved nofun,hsaved nofun,hie,hreg,hothers,hstopped⟩
  | done => exact h'

/-- The timer changes its request, and its handler the count and the flag. -/
structure Interrupted (s t : Wait δ) : Prop where
  same : t = { s with
    iflags := t.iflags, sTimerCount := t.sTimerCount, gFlashTimeoutFlag := t.gFlashTimeoutFlag }
  flag : s.gFlashTimeoutFlag ≠ 0 → t.gFlashTimeoutFlag ≠ 0
  armed : s.gFlashTimeoutFlag ≠ 0 ∨ s.sTimerCount ≠ 0 →
    t.gFlashTimeoutFlag ≠ 0 ∨ t.sTimerCount ≠ 0

theorem interrupted_overflow (s : Wait δ) : Interrupted s (overflow s) := by
  unfold overflow
  split_ifs <;> exact ⟨rfl,id,id⟩

theorem interrupted_flashTimerIntr (s : Wait δ) : Interrupted s (flashTimerIntr s) := by
  unfold flashTimerIntr
  by_cases hcount : s.sTimerCount ≠ 0
  · rw [if_pos hcount]
    by_cases hlast : s.sTimerCount-1 = 0
    · rw [if_pos hlast]
      exact ⟨rfl,fun _ => show (1 : Byte) ≠ 0 by decide,fun _ => .inl (show (1 : Byte) ≠ 0 by decide)⟩
    · rw [if_neg hlast]
      exact ⟨rfl,id,fun _ => .inr hlast⟩
  · rw [if_neg hcount]
    exact ⟨rfl,id,id⟩

theorem interrupted_serve (s : Wait δ) : Interrupted s (serve s) := by
  unfold serve
  split_ifs
  · obtain ⟨hsame,hflag,harmed⟩ :=
      interrupted_flashTimerIntr { s with iflags := s.iflags &&& ~~~s.intrFlag }
    exact ⟨hsame,hflag,harmed⟩
  · exact ⟨rfl,id,id⟩

theorem Kept.interrupted {t : Wait δ} (h : Kept m s) (ht : Interrupted s t) : Kept m t := by
  rw [ht.same]
  exact ⟨h.num,h.saved,h.ime,h.ie,h.reg,h.others,h.stopped⟩

theorem Kept.step (h : Kept m s) (e : Event) : Kept m (waitStep dev maxTime phase lastData s e) := by
  cases e with
  | access => exact h.access
  | overflow => exact h.interrupted (interrupted_overflow s)
  | serve => exact h.interrupted (interrupted_serve s)

theorem kept_waiting (m : Machine δ) : Kept m (waiting m) :=
  ⟨rfl,fun h => absurd rfl h,rfl,rfl,rfl,fun _ _ _ => rfl,nofun⟩

theorem kept_run (dev : Device δ) (maxTime : ℕ → Half) (phase lastData : Byte) (m : Machine δ)
    (es : List Event) : Kept m (run (waitStep dev maxTime phase lastData) (waiting m) es) :=
  have hstep : ∀ s e, Kept m s → Kept m (waitStep dev maxTime phase lastData s e) :=
    fun _ e h => h.step e
  run_invariant hstep (kept_waiting m) es

/-- What the caller finds again: its IME, a stopped timer without its interrupt, and the pointer. -/
structure Restored (m t : Machine δ) : Prop where
  ime : t.ime = m.ime
  timer : t.timer = Function.update (Function.update m.timer m.sTimerReg 0) (m.sTimerReg+1) 0
  ie : t.ie = m.ie &&& ~~~m.intrFlag
  reg : t.sTimerReg = m.sTimerReg

theorem Kept.restored (h : Kept m s) (hdone : s.point = .done) : Restored m s.toMachine := by
  obtain ⟨-,-,hime,hie,hreg,hothers,hstopped⟩ := h
  rw [hdone] at hime hie hreg hstopped
  refine ⟨hime,funext fun i => ?_,hie,hreg⟩
  by_cases h1 : i = m.sTimerReg+1
  · rw [h1,Function.update_self]
    exact hstopped 1 le_rfl
  · rw [Function.update_of_ne h1]
    by_cases h0 : i = m.sTimerReg
    · rw [h0,Function.update_self]
      exact hstopped 0 (Nat.zero_le _)
    · rw [Function.update_of_ne h0]
      exact hothers i h0 h1

end Restored

section Reported

variable {δ : Type} {dev : Device δ} {maxTime : ℕ → Half} {phase lastData : Byte} {m : Machine δ}
  {s : Wait δ}

/-- Why the wait gives up after the status `status`: an error of the chip, or the timer. -/
def Cause (status flag : Byte) (code : Half) : Prop :=
  code = 0xA000 ∧ status &&& 0x20 ≠ 0 ∨ code = 0xC000 ∧ status &&& 0x20 = 0 ∧ flag ≠ 0

/-- How a wait ends. -/
inductive Ended (phase lastData flag : Byte) : Half → List Byte → ℕ → Prop
  | success (rest : List Byte) : Ended phase lastData flag 0 (lastData::rest) 0
  | failure (status last : Byte) (rest : List Byte) (code : Half) (hlast : last ≠ lastData)
      (hcause : Cause status flag code) :
      Ended phase lastData flag (phase.setWidth 16 ||| code) (last::status::rest) 1

/-- What the wait has seen at each point. -/
def Seen (phase lastData flag : Byte) (result : Half) (polled : List Byte) (resets : ℕ) :
    Point → Prop
  | .checkFlag => result = 0 ∧ resets = 0 ∧ ∃ status rest, polled = status::rest ∧
      status &&& 0x20 = 0
  | .pollAgain code => result = 0 ∧ resets = 0 ∧ ∃ status rest, polled = status::rest ∧
      Cause status flag code
  | .reset code => result = 0 ∧ resets = 0 ∧ ∃ status last rest, polled = last::status::rest ∧
      last ≠ lastData ∧ Cause status flag code
  | .maskAgain | .clearReload | .clearControl | .disableIntr | .restoreIme | .done =>
    Ended phase lastData flag result polled resets
  | _ => result = 0 ∧ resets = 0

theorem Cause.flag {status flag flag' : Byte} {code : Half} (h : Cause status flag code)
    (hflag : flag ≠ 0 → flag' ≠ 0) : Cause status flag' code := by
  rcases h with h | ⟨hcode,hstatus,hne⟩
  · exact .inl h
  · exact .inr ⟨hcode,hstatus,hflag hne⟩

theorem Ended.flag {flag flag' : Byte} {result : Half} {polled : List Byte} {resets : ℕ}
    (h : Ended phase lastData flag result polled resets) (hflag : flag ≠ 0 → flag' ≠ 0) :
    Ended phase lastData flag' result polled resets := by
  cases h with
  | success rest => exact .success rest
  | failure status last rest code hlast hcause =>
    exact .failure status last rest code hlast (hcause.flag hflag)

theorem Seen.flag {flag flag' : Byte} {result : Half} {polled : List Byte} {resets : ℕ} {p : Point}
    (h : Seen phase lastData flag result polled resets p) (hflag : flag ≠ 0 → flag' ≠ 0) :
    Seen phase lastData flag' result polled resets p := by
  cases p with
  | pollAgain code =>
    obtain ⟨hresult,hresets,status,rest,hpolled,hcause⟩ := h
    exact ⟨hresult,hresets,status,rest,hpolled,hcause.flag hflag⟩
  | reset code =>
    obtain ⟨hresult,hresets,status,last,rest,hpolled,hlast,hcause⟩ := h
    exact ⟨hresult,hresets,status,last,rest,hpolled,hlast,hcause.flag hflag⟩
  | maskAgain | clearReload | clearControl | disableIntr | restoreIme | done =>
    exact Ended.flag h hflag
  | _ => exact h

/-- `Seen` at the point of a wait. -/
def Wait.Seen (phase lastData : Byte) (s : Wait δ) : Prop :=
  Flash.Seen phase lastData s.gFlashTimeoutFlag s.result s.polled s.resets s.point

theorem Wait.Seen.access (h : s.Seen phase lastData) :
    (Flash.access dev maxTime phase lastData s).Seen phase lastData := by
  have h' := h
  obtain ⟨⟨ime,ie,iflags,timer,num,count,reg,saved,flag,chip⟩,point,result,polled,resets⟩ := s
  cases point with
  | clearFlag => exact h
  | poll =>
    obtain ⟨rfl,rfl⟩ := h
    show Flash.Seen phase lastData flag 0 ((dev.pollFlashStatus chip).1::polled) 0
      (if (dev.pollFlashStatus chip).1 = lastData then _ else _)
    split_ifs with hlast herror
    · rw [hlast]
      exact .success polled
    · exact ⟨rfl,rfl,_,_,rfl,.inl ⟨rfl,herror⟩⟩
    · exact ⟨rfl,rfl,_,_,rfl,not_not.mp herror⟩
  | checkFlag =>
    obtain ⟨rfl,rfl,status,rest,rfl,hstatus⟩ := h
    show Flash.Seen phase lastData flag 0 (status::rest) 0 (if flag ≠ 0 then _ else _)
    split_ifs with hflag
    · exact ⟨rfl,rfl,_,_,rfl,.inr ⟨rfl,hstatus,hflag⟩⟩
    · exact ⟨rfl,rfl⟩
  | pollAgain code =>
    obtain ⟨rfl,rfl,status,rest,rfl,hcause⟩ := h
    show Flash.Seen phase lastData flag 0 ((dev.pollFlashStatus chip).1::status::rest) 0
      (if (dev.pollFlashStatus chip).1 = lastData then _ else _)
    split_ifs with hlast
    · rw [hlast]
      exact .success _
    · exact ⟨rfl,rfl,_,_,_,rfl,hlast,hcause⟩
  | reset code =>
    obtain ⟨rfl,rfl,status,last,rest,rfl,hlast,hcause⟩ := h
    exact .failure status last rest code hlast hcause
  | _ => exact h'

theorem Wait.Seen.interrupted {t : Wait δ} (h : s.Seen phase lastData) (ht : Interrupted s t) :
    t.Seen phase lastData := by
  have hseen := Flash.Seen.flag h ht.flag
  rw [ht.same]
  exact hseen

theorem Wait.Seen.step (h : s.Seen phase lastData) (e : Event) :
    (waitStep dev maxTime phase lastData s e).Seen phase lastData := by
  cases e with
  | access => exact h.access
  | overflow => exact h.interrupted (interrupted_overflow s)
  | serve => exact h.interrupted (interrupted_serve s)

theorem seen_waiting (m : Machine δ) : (waiting m).Seen phase lastData := ⟨rfl,rfl⟩

theorem seen_run (dev : Device δ) (maxTime : ℕ → Half) (phase lastData : Byte) (m : Machine δ)
    (es : List Event) :
    (run (waitStep dev maxTime phase lastData) (waiting m) es).Seen phase lastData :=
  have hstep : ∀ s : Wait δ, ∀ e, s.Seen phase lastData →
      (waitStep dev maxTime phase lastData s e).Seen phase lastData := fun _ e h => h.step e
  run_invariant hstep (seen_waiting m) es

/-- What the result tells about the bytes that were polled. -/
structure Reported (phase lastData : Byte) (s : Wait δ) : Prop where
  success : s.result = 0 ↔ s.polled.head? = some lastData
  noReset : s.result = 0 → s.resets = 0
  failure : s.result ≠ 0 → s.resets = 1 ∧ s.result.toNat % 256 = phase.toNat ∧
    ∃ last status rest, s.polled = last::status::rest ∧
      (s.result.toNat / 256 = 0xA0 ∧ status &&& 0x20 ≠ 0 ∨
        s.result.toNat / 256 = 0xC0 ∧ status &&& 0x20 = 0 ∧ s.gFlashTimeoutFlag ≠ 0)

theorem or_code (b : Byte) : (b.setWidth 16 ||| (0xA000 : Half)).toNat = 0xA000+b.toNat ∧
    (b.setWidth 16 ||| (0xC000 : Half)).toNat = 0xC000+b.toNat := by
  revert b
  decide +kernel

theorem Cause.code_toNat {status flag : Byte} {code : Half} (h : Cause status flag code) :
    (phase.setWidth 16 ||| code).toNat = code.toNat+phase.toNat := by
  rcases h with ⟨rfl,-⟩ | ⟨rfl,-⟩
  · exact (or_code phase).1
  · exact (or_code phase).2

theorem Ended.reported
    (h : Ended phase lastData s.gFlashTimeoutFlag s.result s.polled s.resets) :
    Reported phase lastData s := by
  obtain ⟨⟨ime,ie,iflags,timer,num,count,reg,saved,flag,chip⟩,point,result,polled,resets⟩ := s
  cases h with
  | success rest => exact ⟨⟨fun _ => rfl,fun _ => rfl⟩,fun _ => rfl,fun h => absurd rfl h⟩
  | failure status last rest code hlast hcause =>
    have hphase := phase.isLt
    have hvalue : (phase.setWidth 16 ||| code).toNat = code.toNat+phase.toNat := hcause.code_toNat
    have hcode : code.toNat = 0xA000 ∧ status &&& 0x20 ≠ 0 ∨
        code.toNat = 0xC000 ∧ status &&& 0x20 = 0 ∧ flag ≠ 0 :=
      hcause.imp (And.imp_left (congrArg BitVec.toNat)) (And.imp_left (congrArg BitVec.toNat))
    have hne : phase.setWidth 16 ||| code ≠ 0 := by
      intro hzero
      have hnat : (phase.setWidth 16 ||| code).toNat = 0 := congrArg BitVec.toNat hzero
      omega
    refine ⟨⟨fun h => absurd h hne,fun h => absurd (Option.some.inj h) hlast⟩,fun h => absurd h hne,
      fun _ => ⟨rfl,?_,last,status,rest,rfl,hcode.imp (And.imp_left fun h => ?_)
        (And.imp_left fun h => ?_)⟩⟩
    · show (phase.setWidth 16 ||| code).toNat % 256 = phase.toNat
      omega
    · show (phase.setWidth 16 ||| code).toNat / 256 = 0xA0
      omega
    · show (phase.setWidth 16 ||| code).toNat / 256 = 0xC0
      omega

theorem Wait.Seen.reported (h : s.Seen phase lastData) (hdone : s.point = .done) :
    Reported phase lastData s := by
  unfold Wait.Seen at h
  rw [hdone] at h
  exact Ended.reported h

end Reported

section Ends

variable {δ : Type} {dev : Device δ} {maxTime : ℕ → Half} {phase lastData : Byte} {m : Machine δ}
  {s : Wait δ} {g : Setup}

/-- `gFlashMaxTime` points to the table of the chip. -/
def Table (maxTime : ℕ → Half) (g : Setup) : Prop :=
  ∀ i < g.maxTime.length, maxTime i = g.maxTime.getD i 0

/-- The timer was chosen by `SetFlashTimerIntr`. -/
def Machine.Selected (m : Machine δ) : Prop :=
  m.sTimerNum.toNat < 4 ∧ m.sTimerReg = 2*m.sTimerNum.toNat

theorem selected_setFlashTimerIntr {timerNum : Byte} (h : (setFlashTimerIntr timerNum m).1 = 0) :
    (setFlashTimerIntr timerNum m).2.Selected := by
  unfold setFlashTimerIntr at h ⊢
  split_ifs at h ⊢ with hnum
  · exact absurd h (show (1 : Half) ≠ 0 by decide)
  · exact ⟨Nat.lt_of_not_le hnum,rfl⟩

/-- A phase of the tables counts at least one interrupt of a timer that runs. -/
theorem Table.counts (h : Table maxTime g) (hphase : phase.toNat < 4) :
    maxTime (phase.toNat*3) ≠ 0 ∧
      maxTime (phase.toNat*3+2) = timerEnable ||| timerIntrEnable ||| timer256Clk := by
  have htable : g.maxTime = mxMaxTime := by cases g <;> rfl
  have hlength : g.maxTime.length = 12 := by rw [htable]; rfl
  rw [h (phase.toNat*3) (by omega),h (phase.toNat*3+2) (by omega)]
  simp only [htable]
  generalize phase.toNat = k at hphase
  interval_cases k <;> decide

/-- Whether the loop may go on: the flag is not set and the count not zero. -/
def Counted : Point → Prop
  | .setReload | .setControl | .acknowledge | .unmask | .poll | .checkFlag => True
  | _ => False

def Running : Point → Prop
  | .acknowledge | .unmask | .poll | .checkFlag => True
  | _ => False

/-- The count down of the timer is on its way, from a control register that requests interrupts. -/
structure Armed (m : Machine δ) (maxTime : ℕ → Half) (phase : Byte) (s : Wait δ) : Prop where
  kept : Kept m s
  counted : Counted s.point → s.gFlashTimeoutFlag ≠ 0 ∨ s.sTimerCount ≠ 0
  control : Running s.point → s.timer (m.sTimerReg+1) = maxTime (phase.toNat*3+2)

theorem Armed.access (h : Armed m maxTime phase s) (hcount : maxTime (phase.toNat*3) ≠ 0) :
    Armed m maxTime phase (Flash.access dev maxTime phase lastData s) := by
  have hkept : Kept m (Flash.access dev maxTime phase lastData s) := h.kept.access
  have hreg := h.kept.reg
  obtain ⟨_,hcounted,hcontrol⟩ := h
  obtain ⟨⟨ime,ie,iflags,timer,num,count,reg,saved,flag,chip⟩,point,result,polled,resets⟩ := s
  refine ⟨hkept,?_,?_⟩
  · cases point with
    | setCount => exact fun _ => .inr hcount
    | setReload | setControl | acknowledge | unmask => exact fun _ => hcounted trivial
    | poll | checkFlag => exact fun _ => hcounted trivial
    | pollAgain code =>
      show Counted (if (dev.pollFlashStatus chip).1 = lastData then _ else _) → _
      split_ifs <;> exact nofun
    | _ => exact nofun
  · cases point with
    | setControl =>
      intro _
      show Function.update timer reg _ (m.sTimerReg+1) = _
      rw [show reg = m.sTimerReg+1 from hreg,Function.update_self]
    | acknowledge | unmask | poll | checkFlag => exact fun _ => hcontrol trivial
    | pollAgain code =>
      show Running (if (dev.pollFlashStatus chip).1 = lastData then _ else _) → _
      split_ifs <;> exact nofun
    | _ => exact nofun

theorem Armed.interrupted {t : Wait δ} (h : Armed m maxTime phase s) (ht : Interrupted s t) :
    Armed m maxTime phase t := by
  refine ⟨h.kept.interrupted ht,fun hp => ht.armed (h.counted ?_),fun hp => ?_⟩
  · rwa [ht.same] at hp
  · rw [ht.same] at hp ⊢
    exact h.control hp

theorem Armed.step (h : Armed m maxTime phase s) (hcount : maxTime (phase.toNat*3) ≠ 0) (e : Event) :
    Armed m maxTime phase (waitStep dev maxTime phase lastData s e) := by
  cases e with
  | access => exact h.access hcount
  | overflow => exact h.interrupted (interrupted_overflow s)
  | serve => exact h.interrupted (interrupted_serve s)

theorem armed_waiting (m : Machine δ) : Armed m maxTime phase (waiting m) :=
  ⟨kept_waiting m,nofun,nofun⟩

instance (s : Wait δ) : Decidable s.Pending := inferInstanceAs (Decidable (_ ≠ _))

/-- The measure of the loop before the flag is set: two for each interrupt that is to come, and one
for a request that is to come. -/
def countdown (s : Wait δ) : ℕ := 12+2*s.sTimerCount.toNat+if s.Pending then 0 else 1

/-- The accesses to come, the loop apart. -/
def Point.ahead : Point → ℕ
  | .saveIme => 0x2000A+20
  | .mask => 0x2000A+19
  | .stopTimer => 0x2000A+18
  | .enableIntr => 0x2000A+17
  | .clearFlag => 0x2000A+16
  | .setCount => 0x2000A+15
  | .setReload => 0x2000A+14
  | .setControl => 0x2000A+13
  | .acknowledge => 0x2000A+12
  | .unmask => 0x2000A+11
  | .poll => 10
  | .checkFlag => 9
  | .pollAgain _ => 8
  | .reset _ => 7
  | .maskAgain => 5
  | .clearReload => 4
  | .clearControl => 3
  | .disableIntr => 2
  | .restoreIme => 1
  | .done => 0

def Point.Loop (p : Point) : Prop := p = .poll ∨ p = .checkFlag

instance (p : Point) : Decidable p.Loop := inferInstanceAs (Decidable (_ ∨ _))

/-- What still has to happen before the wait ends. -/
def toCome (s : Wait δ) : ℕ :=
  if s.point.Loop ∧ s.gFlashTimeoutFlag = 0 then countdown s else s.point.ahead

/-- The event that the wait depends on. -/
def awaited (s : Wait δ) : Event :=
  if s.point.Loop ∧ s.gFlashTimeoutFlag = 0 then if s.Pending then .serve else .overflow else .access

theorem toCome_of_not_loop (h : ¬s.point.Loop) : toCome s = s.point.ahead :=
  if_neg fun hs => h hs.1

theorem toCome_of_flag (h : s.gFlashTimeoutFlag ≠ 0) : toCome s = s.point.ahead :=
  if_neg fun hs => h hs.2

theorem countdown_le (s : Wait δ) : countdown s ≤ 0x2000B := by
  have hcount := s.sTimerCount.isLt
  unfold countdown
  split_ifs <;> omega

theorem access_point (hdone : s.point ≠ .done) :
    (Flash.access dev maxTime phase lastData s).point.ahead < s.point.ahead ∨
      s.point = .checkFlag ∧ s.gFlashTimeoutFlag = 0 := by
  unfold Flash.access
  cases hp : s.point with
  | poll =>
    left
    unfold pollTo
    dsimp only
    split_ifs <;> decide
  | checkFlag =>
    by_cases hflag : s.gFlashTimeoutFlag = 0
    · exact .inr ⟨rfl,hflag⟩
    · left
      dsimp only
      rw [if_pos hflag]
      simp only [Point.ahead]
      decide
  | pollAgain code =>
    left
    unfold pollTo
    dsimp only
    split_ifs <;> simp only [Point.ahead] <;> decide
  | done => exact absurd hp hdone
  | _ =>
    left
    simp only [Point.ahead]
    decide

theorem access_loop (h : (Flash.access dev maxTime phase lastData s).point.Loop) :
    s.point = .unmask ∨ s.point.Loop ∧
      (Flash.access dev maxTime phase lastData s).gFlashTimeoutFlag = s.gFlashTimeoutFlag := by
  unfold Flash.access at h ⊢
  cases hp : s.point with
  | unmask => exact .inl rfl
  | poll => exact .inr ⟨.inl rfl,rfl⟩
  | checkFlag => exact .inr ⟨.inr rfl,rfl⟩
  | pollAgain code =>
    simp only [hp,pollTo] at h
    split_ifs at h <;> simp [Point.Loop] at h
  | _ => simp [hp,Point.Loop] at h

/-- Outside of the loop, and in it once the flag is set, an access of the program helps. -/
theorem access_helps (hdone : s.point ≠ .done)
    (hloop : ¬(s.point.Loop ∧ s.gFlashTimeoutFlag = 0)) :
    toCome (Flash.access dev maxTime phase lastData s) < toCome s := by
  have hnow : toCome s = s.point.ahead := if_neg hloop
  rw [hnow]
  by_cases hnext : (Flash.access dev maxTime phase lastData s).point.Loop ∧
      (Flash.access dev maxTime phase lastData s).gFlashTimeoutFlag = 0
  · rcases access_loop hnext.1 with hunmask | ⟨hin,hflag⟩
    · rw [toCome,if_pos hnext,hunmask]
      exact (countdown_le _).trans_lt (by decide)
    · exact absurd ⟨hin,hflag ▸ hnext.2⟩ hloop
  · rw [toCome,if_neg hnext]
    rcases access_point hdone with hlt | ⟨hcheck,hflag⟩
    · exact hlt
    · exact absurd ⟨.inr hcheck,hflag⟩ hloop

theorem interrupted_outside {t : Wait δ} (ht : Interrupted s t)
    (h : ¬(s.point.Loop ∧ s.gFlashTimeoutFlag = 0)) :
    toCome t = toCome s ∧ awaited t = awaited s := by
  have hpoint : t.point = s.point := by rw [ht.same]
  have hnot : ¬(t.point.Loop ∧ t.gFlashTimeoutFlag = 0) := by
    rintro ⟨hloop,hflag⟩
    rw [hpoint] at hloop
    exact ht.flag (fun hzero => h ⟨hloop,hzero⟩) hflag
  unfold toCome awaited
  rw [if_neg h,if_neg hnot,if_neg h,if_neg hnot,hpoint]
  exact ⟨rfl,rfl⟩

/-- In the loop, before the flag is set, only the count and the request matter. -/
theorem loop_same {t : Wait δ} (hs : s.point.Loop ∧ s.gFlashTimeoutFlag = 0)
    (ht : t.point.Loop ∧ t.gFlashTimeoutFlag = 0) (hcount : t.sTimerCount = s.sTimerCount)
    (hpending : t.Pending ↔ s.Pending) : toCome t = toCome s ∧ awaited t = awaited s := by
  unfold toCome awaited countdown
  simp only [if_pos hs,if_pos ht,hcount,hpending,and_self]

theorem loop_exit (h : s.point.Loop) :
    (Flash.access dev maxTime phase lastData s).point.Loop ∨
      (Flash.access dev maxTime phase lastData s).point.ahead ≤ 8 := by
  unfold Flash.access
  rcases h with hp | hp
  · simp only [hp,pollTo]
    split_ifs <;> decide
  · simp only [hp]
    split_ifs <;> decide

theorem loop_access (hs : s.point.Loop ∧ s.gFlashTimeoutFlag = 0) :
    toCome (Flash.access dev maxTime phase lastData s) < toCome s ∨
      toCome (Flash.access dev maxTime phase lastData s) = toCome s ∧
      awaited (Flash.access dev maxTime phase lastData s) = awaited s := by
  have hsame : (Flash.access dev maxTime phase lastData s).toMachine =
      { s.toMachine with chip := (Flash.access dev maxTime phase lastData s).chip } := by
    unfold Flash.access
    rcases hs.1 with hp | hp
    · rw [hp]
      rfl
    · rw [hp]
  by_cases hloop : (Flash.access dev maxTime phase lastData s).point.Loop
  · refine .inr (loop_same hs ⟨hloop,?_⟩ ?_ ?_)
    · rw [hsame]
      exact hs.2
    · rw [hsame]
    · unfold Wait.Pending
      rw [hsame]
      exact Iff.rfl
  · have hahead := (loop_exit hs.1).resolve_left hloop
    left
    rw [toCome_of_not_loop hloop,toCome,if_pos hs,countdown]
    omega

/-- The control register lets the timer request its interrupt. -/
theorem Armed.overflow (h : Armed m maxTime phase s) (hm : m.Selected)
    (hcontrol : maxTime (phase.toNat*3+2) = timerEnable ||| timerIntrEnable ||| timer256Clk)
    (hs : s.point.Loop) : Flash.overflow s = { s with iflags := s.iflags ||| s.intrFlag } := by
  have hrunning : Running s.point := by
    rcases hs with hp | hp <;> rw [hp] <;> trivial
  refine if_pos ?_
  rw [h.kept.num,← hm.2,h.control hrunning,hcontrol]
  decide

theorem intrFlag_ne_zero (hm : m.Selected) : m.intrFlag ≠ 0 := by
  have hnum := hm.1
  unfold Machine.intrFlag
  generalize m.sTimerNum.toNat = k at hnum
  interval_cases k <;> decide

theorem Armed.serve (h : Armed m maxTime phase s) (hm : m.Selected) (hs : s.point.Loop)
    (hpending : s.Pending) :
    Flash.serve s = flashTimerIntr { s with iflags := s.iflags &&& ~~~s.intrFlag } := by
  have hime : s.ime = 1 := by
    rw [h.kept.ime]
    rcases hs with hp | hp <;> rw [hp] <;> rfl
  have hie : s.ie = m.ie ||| m.intrFlag := by
    rw [h.kept.ie]
    rcases hs with hp | hp <;> rw [hp] <;> rfl
  refine if_pos ⟨?_,?_,hpending⟩
  · rw [hime]
    decide
  · rw [hie,h.kept.intrFlag,or_and_right]
    exact intrFlag_ne_zero hm

/-- In the loop, before the flag is set, a request is awaited, and then its interrupt. -/
theorem loop_overflow (h : Armed m maxTime phase s) (hm : m.Selected)
    (hcontrol : maxTime (phase.toNat*3+2) = timerEnable ||| timerIntrEnable ||| timer256Clk)
    (hs : s.point.Loop ∧ s.gFlashTimeoutFlag = 0) :
    if s.Pending then toCome (overflow s) = toCome s ∧ awaited (overflow s) = awaited s
    else toCome (overflow s) < toCome s := by
  have hnext := h.overflow hm hcontrol hs.1
  have hpending : (overflow s).Pending := by
    rw [hnext]
    show (s.iflags ||| s.intrFlag) &&& s.intrFlag ≠ 0
    rw [or_and_right,h.kept.intrFlag]
    exact intrFlag_ne_zero hm
  have hloop : (overflow s).point.Loop ∧ (overflow s).gFlashTimeoutFlag = 0 := by
    rw [hnext]
    exact hs
  have hcount : (overflow s).sTimerCount = s.sTimerCount := by rw [hnext]
  split_ifs with hnow
  · exact loop_same hs hloop hcount (iff_of_true hpending hnow)
  · unfold toCome countdown
    rw [if_pos hs,if_pos hloop,hcount,if_pos hpending,if_neg hnow]
    exact Nat.lt_succ_self _

theorem loop_serve (h : Armed m maxTime phase s) (hm : m.Selected)
    (hs : s.point.Loop ∧ s.gFlashTimeoutFlag = 0) :
    if s.Pending then toCome (serve s) < toCome s
    else toCome (serve s) = toCome s ∧ awaited (serve s) = awaited s := by
  split_ifs with hpending
  · have hcount : s.sTimerCount ≠ 0 := by
      refine (h.counted ?_).resolve_left (not_not.mpr hs.2)
      rcases hs.1 with hp | hp <;> rw [hp] <;> trivial
    have hpositive : 0 < s.sTimerCount.toNat := by
      rw [Nat.pos_iff_ne_zero]
      exact fun hzero => hcount (BitVec.eq_of_toNat_eq hzero)
    have hpred : (s.sTimerCount-1).toNat = s.sTimerCount.toNat-1 :=
      BitVec.toNat_sub_of_le hpositive
    have hahead : s.point.ahead ≤ 10 := by
      rcases hs.1 with hp | hp <;> rw [hp] <;> decide
    have hnow : toCome s = countdown s := if_pos hs
    rw [h.serve hm hs.1 hpending,flashTimerIntr,if_pos hcount,hnow]
    by_cases hlast : s.sTimerCount-1 = 0
    · rw [if_pos hlast,toCome_of_flag (show (1 : Byte) ≠ 0 by decide)]
      show s.point.ahead < countdown s
      unfold countdown
      omega
    · have hloop : s.point.Loop ∧ (if s.sTimerCount-1 = 0 then 1 else s.gFlashTimeoutFlag) = 0 :=
        ⟨hs.1,by rw [if_neg hlast]; exact hs.2⟩
      rw [toCome,if_pos hloop]
      unfold countdown
      dsimp only
      split_ifs <;> omega
  · rw [serve,if_neg fun hserve => hpending hserve.2.2]
    exact ⟨rfl,rfl⟩

theorem wait_helps (h : Armed m maxTime phase s) (hm : m.Selected)
    (hcontrol : maxTime (phase.toNat*3+2) = timerEnable ||| timerIntrEnable ||| timer256Clk)
    (hdone : s.point ≠ .done) (e : Event) :
    toCome (waitStep dev maxTime phase lastData s e) < toCome s ∨
      e ≠ awaited s ∧ toCome (waitStep dev maxTime phase lastData s e) = toCome s ∧
        awaited (waitStep dev maxTime phase lastData s e) = awaited s := by
  by_cases hs : s.point.Loop ∧ s.gFlashTimeoutFlag = 0
  · have hawaited : awaited s = if s.Pending then .serve else .overflow := if_pos hs
    cases e with
    | access =>
      refine (loop_access hs).imp_right fun hsame => ⟨?_,hsame⟩
      rw [hawaited]
      split_ifs <;> decide
    | overflow =>
      have hloop := loop_overflow h hm hcontrol hs
      split_ifs at hloop hawaited
      · exact .inr ⟨by rw [hawaited]; decide,hloop⟩
      · exact .inl hloop
    | serve =>
      have hloop := loop_serve h hm hs
      split_ifs at hloop hawaited
      · exact .inl hloop
      · exact .inr ⟨by rw [hawaited]; decide,hloop⟩
  · have hawaited : awaited s = .access := if_neg hs
    cases e with
    | access => exact .inl (access_helps hdone hs)
    | overflow =>
      exact .inr ⟨by rw [hawaited]; decide,interrupted_outside (interrupted_overflow s) hs⟩
    | serve => exact .inr ⟨by rw [hawaited]; decide,interrupted_outside (interrupted_serve s) hs⟩

theorem wait_ends (htable : Table maxTime g) (hphase : phase.toNat < 4) (hm : m.Selected)
    {es : ℕ → Event} (hfair : Fair es) :
    ∃ n, (run (waitStep dev maxTime phase lastData) (waiting m) (upTo es n)).point = .done := by
  obtain ⟨hcount,hcontrol⟩ := htable.counts hphase
  exact fair_ends (fun _ e hs => hs.step hcount e)
    (fun _ e hs hdone => wait_helps hs hm hcontrol hdone e) (armed_waiting m) hfair

end Ends

section Refines

variable {env : Env} {addr : ℕ} {phase lastData : Byte} {maxTime : ℕ → Half} {m : Machine Chip}
  {s : Wait Chip} {fuel : ℕ}

def chipDevice (env : Env) (addr : ℕ) : Device Chip :=
  ⟨Chip.read env addr,Chip.write env 0x5555 0xF0⟩

/-- What `waitForFlashWrite` computes from a point on. -/
def remainder (env : Env) (addr : ℕ) (phase lastData : Byte) (s : Wait Chip) (fuel : ℕ) :
    Option (Half × Chip) :=
  match s.point with
  | .checkFlag =>
    if env.timeout s.chip.clock then
      some (giveUp env addr lastData (phase.setWidth 16 ||| 0xC000) s.chip)
    else waitForFlashWrite env (phase.setWidth 16) addr lastData fuel s.chip
  | .pollAgain code => some (giveUp env addr lastData (phase.setWidth 16 ||| code) s.chip)
  | .reset code => some (phase.setWidth 16 ||| code,s.chip.write env 0x5555 0xF0)
  | .maskAgain | .clearReload | .clearControl | .disableIntr | .restoreIme | .done =>
    some (s.result,s.chip)
  | _ => waitForFlashWrite env (phase.setWidth 16) addr lastData fuel s.chip

theorem waitForFlashWrite_succ {code : Half} (c : Chip) :
    waitForFlashWrite env code addr lastData (fuel+1) c =
      if (c.read env addr).1 = lastData then some (0,(c.read env addr).2)
      else if (c.read env addr).1 &&& 0x20 ≠ 0 then
        some (giveUp env addr lastData (code ||| 0xA000) (c.read env addr).2)
      else if env.timeout (c.read env addr).2.clock then
        some (giveUp env addr lastData (code ||| 0xC000) (c.read env addr).2)
      else waitForFlashWrite env code addr lastData fuel (c.read env addr).2 := rfl

theorem giveUp_eq {code : Half} (c : Chip) : giveUp env addr lastData code c =
    if (c.read env addr).1 = lastData then (0,(c.read env addr).2)
    else (code,(c.read env addr).2.write env 0x5555 0xF0) := rfl

theorem remainder_pollTo (next : Byte → Point) : remainder env addr phase lastData
    (pollTo (chipDevice env addr) lastData next s) fuel =
      if (s.chip.read env addr).1 = lastData then some (s.result,(s.chip.read env addr).2)
      else remainder env addr phase lastData { s with
        chip := (s.chip.read env addr).2
        polled := (s.chip.read env addr).1::s.polled
        point := next (s.chip.read env addr).1 } fuel := by
  unfold pollTo chipDevice
  dsimp only
  split_ifs <;> rfl

/-- An access computes a part of it, when the timer of the environment runs out as the flag says. -/
theorem remainder_access (hseen : s.Seen phase lastData)
    (hflag : s.point = .checkFlag → (env.timeout s.chip.clock = true ↔ s.gFlashTimeoutFlag ≠ 0)) :
    remainder env addr phase lastData s (if s.point = .poll then fuel+1 else fuel) =
      remainder env addr phase lastData
        (access (chipDevice env addr) maxTime phase lastData s) fuel := by
  obtain ⟨⟨ime,ie,iflags,timer,num,count,reg,saved,flag,chip⟩,point,result,polled,resets⟩ := s
  cases point with
  | poll =>
    obtain ⟨rfl,-⟩ := hseen
    refine Eq.trans ?_ (remainder_pollTo _).symm
    refine (waitForFlashWrite_succ chip).trans (ite_congr rfl (fun _ => rfl) fun _ => ?_)
    by_cases herror : (chip.read env addr).1 &&& 0x20 ≠ 0
    · rw [if_pos herror,if_pos herror]
      rfl
    · rw [if_neg herror,if_neg herror]
      rfl
  | checkFlag =>
    have htimeout : env.timeout chip.clock = true ↔ flag ≠ 0 := hflag rfl
    show (if env.timeout chip.clock = true then _ else _) = _
    unfold access
    dsimp only
    by_cases hset : flag ≠ 0
    · rw [if_pos hset,if_pos (htimeout.mpr hset)]
      rfl
    · rw [if_neg hset,if_neg (htimeout.not.mpr hset)]
      rfl
  | pollAgain code =>
    obtain ⟨rfl,-⟩ := hseen
    refine Eq.trans ?_ (remainder_pollTo _).symm
    exact (congrArg some (giveUp_eq chip)).trans (apply_ite ..)
  | _ => rfl

def Env.withTimeout (env : Env) (timeout : ℕ → Bool) : Env := { env with timeout := timeout }

/-- The accesses of the chip whose outcome of the timer is known. -/
def decided (s : Wait Chip) : ℕ :=
  if s.point = .checkFlag then s.chip.clock else s.chip.clock+1

theorem settle_clock (env : Env) (c : Chip) : (c.settle env).clock = c.clock+1 := by
  unfold Chip.settle
  split
  · split_ifs <;> rfl
  · rfl

theorem read_clock (c : Chip) : (c.read env addr).2.clock = c.clock+1 := by
  rw [← settle_clock env c]
  unfold Chip.read
  dsimp only
  split <;> rfl

theorem write_clock (a : ℕ) (v : Byte) (c : Chip) : (c.write env a v).clock = c.clock+1 := by
  rw [← settle_clock env c]
  unfold Chip.write
  dsimp only
  split
  · unfold Chip.perform
    split <;> rfl
  · rfl
  · split_ifs <;> rfl

theorem access_clock (env : Env) (addr : ℕ) (maxTime : ℕ → Half) (phase lastData : Byte)
    (s : Wait Chip) : s.chip.clock ≤
      (access (chipDevice env addr) maxTime phase lastData s).chip.clock ∧
    ((access (chipDevice env addr) maxTime phase lastData s).point = .checkFlag →
      s.chip.clock < (access (chipDevice env addr) maxTime phase lastData s).chip.clock) := by
  have hread : s.chip.clock < (s.chip.read env addr).2.clock := by
    rw [read_clock]
    exact Nat.lt_succ_self _
  have hwrite : s.chip.clock ≤ (s.chip.write env 0x5555 0xF0).clock := by
    rw [write_clock]
    exact Nat.le_succ _
  unfold access
  cases hp : s.point with
  | poll => exact ⟨hread.le,fun _ => hread⟩
  | checkFlag =>
    refine ⟨le_rfl,fun h => ?_⟩
    dsimp only at h
    split_ifs at h
  | pollAgain code => exact ⟨hread.le,fun _ => hread⟩
  | reset code => exact ⟨hwrite,nofun⟩
  | done => exact ⟨le_rfl,fun h => by rw [hp] at h; cases h⟩
  | _ => exact ⟨le_rfl,nofun⟩

theorem decided_le (s : Wait Chip) : decided s ≤ s.chip.clock+1 := by
  unfold decided
  split_ifs
  · exact Nat.le_succ _
  · exact le_rfl

theorem lt_decided_access (s : Wait Chip) :
    s.chip.clock < decided (access (chipDevice env addr) maxTime phase lastData s) := by
  obtain ⟨hle,hlt⟩ := access_clock env addr maxTime phase lastData s
  unfold decided
  split_ifs with hcheck
  · exact hlt hcheck
  · exact Nat.lt_succ_of_le hle

/-- Every run of the wait computes a part of `waitForFlashWrite`, with the timer of its flag. -/
theorem remainder_run (env : Env) (addr : ℕ) (maxTime : ℕ → Half) (phase lastData : Byte)
    (m : Machine Chip) (es : List Event) :
    ∃ (timeout : ℕ → Bool) (k : ℕ), ∀ timeout' : ℕ → Bool,
      (∀ i < decided (run (waitStep (chipDevice env addr) maxTime phase lastData) (waiting m) es),
        timeout' i = timeout i) → ∀ fuel,
      waitForFlashWrite (env.withTimeout timeout') (phase.setWidth 16) addr lastData (fuel+k) m.chip =
        remainder (env.withTimeout timeout') addr phase lastData
          (run (waitStep (chipDevice env addr) maxTime phase lastData) (waiting m) es) fuel := by
  induction es using List.reverseRecOn with
  | nil => exact ⟨fun _ => false,0,fun _ _ _ => rfl⟩
  | append_singleton es e ih =>
    obtain ⟨timeout,k,hrun⟩ := ih
    have hseen := seen_run (chipDevice env addr) maxTime phase lastData m es
    rw [run_append,run_cons,run_nil]
    generalize run (waitStep (chipDevice env addr) maxTime phase lastData) (waiting m) es = s
      at hrun hseen ⊢
    have hinterrupted (t : Wait Chip) (ht : Interrupted s t) : ∀ timeout' : ℕ → Bool,
        (∀ i < decided t, timeout' i = timeout i) → ∀ fuel,
        waitForFlashWrite (env.withTimeout timeout') (phase.setWidth 16) addr lastData (fuel+k) m.chip =
          remainder (env.withTimeout timeout') addr phase lastData t fuel := by
      rw [ht.same]
      exact hrun
    cases e with
    | access =>
      let next := access (chipDevice env addr) maxTime phase lastData s
      have hle : decided s ≤ decided next := (decided_le s).trans (lt_decided_access s)
      refine ⟨Function.update timeout s.chip.clock <|
        if s.point = .checkFlag then decide (s.gFlashTimeoutFlag ≠ 0) else timeout s.chip.clock,
        if s.point = .poll then k+1 else k,fun timeout' hagree fuel => ?_⟩
      have hbefore : ∀ i < decided s, timeout' i = timeout i := by
        intro i hi
        rw [hagree i (hi.trans_le hle)]
        by_cases hclock : i = s.chip.clock
        · have hcheck : s.point ≠ .checkFlag := by
            intro hp
            rw [decided,if_pos hp] at hi
            omega
          rw [hclock,Function.update_self,if_neg hcheck]
        · rw [Function.update_of_ne hclock]
      have hflag : s.point = .checkFlag → (timeout' s.chip.clock = true ↔ s.gFlashTimeoutFlag ≠ 0) := by
        intro hp
        rw [hagree _ (lt_decided_access s),Function.update_self,if_pos hp,decide_eq_true_iff]
      have hstep : remainder (env.withTimeout timeout') addr phase lastData s
          (if s.point = .poll then fuel+1 else fuel) =
          remainder (env.withTimeout timeout') addr phase lastData next fuel :=
        remainder_access hseen hflag
      show _ = remainder (env.withTimeout timeout') addr phase lastData next fuel
      rw [← hstep,← hrun timeout' hbefore]
      congr 1
      split_ifs <;> omega
    | overflow => exact ⟨timeout,k,hinterrupted _ (interrupted_overflow s)⟩
    | serve => exact ⟨timeout,k,hinterrupted _ (interrupted_serve s)⟩

/-- The result of a wait is one that `waitForFlashWrite` computes. -/
theorem wait_refines (env : Env) (addr : ℕ) (maxTime : ℕ → Half) (phase lastData : Byte)
    (m : Machine Chip) (es : List Event)
    (hdone : (run (waitStep (chipDevice env addr) maxTime phase lastData) (waiting m) es).point =
      .done) :
    ∃ timeout fuel, waitForFlashWrite (env.withTimeout timeout) (phase.setWidth 16) addr lastData
        fuel m.chip =
      some ((run (waitStep (chipDevice env addr) maxTime phase lastData) (waiting m) es).result,
        (run (waitStep (chipDevice env addr) maxTime phase lastData) (waiting m) es).chip) := by
  obtain ⟨timeout,k,hrun⟩ := remainder_run env addr maxTime phase lastData m es
  refine ⟨timeout,0+k,(hrun timeout (fun _ _ => rfl) 0).trans ?_⟩
  unfold remainder
  rw [hdone]

end Refines

/-- A wait that ends restores the machine and reports how the operation ended, for all bytes of the
chip and all interrupts; and it ends when the interrupts of the timer keep arriving. -/
theorem wait_restores (δ : Type) (dev : Device δ) (maxTime : ℕ → Half) (phase lastData : Byte)
    (m : Machine δ) :
    (∀ es, (run (waitStep dev maxTime phase lastData) (waiting m) es).point = .done →
      Restored m (run (waitStep dev maxTime phase lastData) (waiting m) es).toMachine ∧
      Reported phase lastData (run (waitStep dev maxTime phase lastData) (waiting m) es)) ∧
    ∀ g es, Table maxTime g → phase.toNat < 4 → m.Selected → Fair es →
      ∃ n, (run (waitStep dev maxTime phase lastData) (waiting m) (upTo es n)).point = .done := by
  refine ⟨fun es hdone => ?_,fun g es htable hphase hm hfair => wait_ends htable hphase hm hfair⟩
  exact ⟨(kept_run dev maxTime phase lastData m es).restored hdone,
    (seen_run dev maxTime phase lastData m es).reported hdone⟩

/-- A chip that is ready at once. -/
def readyChip : Device Unit := ⟨fun c => (0xFF,c),id⟩

/-- The timers are stopped and timer 2 is chosen. -/
def idleTimers : Machine Unit := ⟨1,0x2001,0,fun _ => 0,2,0,4,0,0,()⟩

/-- All events in turn. -/
def inTurn (n : ℕ) : Event := if n % 3 = 0 then .access else if n % 3 = 1 then .overflow else .serve

theorem fair_inTurn : Fair inTurn := by
  intro e n
  cases e with
  | access =>
    refine ⟨3*n,by omega,if_pos (by omega)⟩
  | overflow =>
    refine ⟨3*n+1,by omega,?_⟩
    rw [inTurn,if_neg (by omega),if_pos (by omega)]
  | serve =>
    refine ⟨3*n+2,by omega,?_⟩
    rw [inTurn,if_neg (by omega),if_neg (by omega)]

theorem wait_restores_ready :
    Restored idleTimers (run (waitStep readyChip (mxMaxTime.getD · 0) 2 0xFF) (waiting idleTimers)
      (List.replicate 16 .access)).toMachine ∧
    ∃ n, (run (waitStep readyChip (mxMaxTime.getD · 0) 2 0xFF) (waiting idleTimers)
      (upTo inTurn n)).point = .done :=
  ⟨((wait_restores Unit readyChip (mxMaxTime.getD · 0) 2 0xFF idleTimers).1
      (List.replicate 16 .access) (by decide)).1,
    (wait_restores Unit readyChip (mxMaxTime.getD · 0) 2 0xFF idleTimers).2 .mx29L010 inTurn
      (fun _ _ => rfl) (by decide) ⟨by decide,by decide⟩ fair_inTurn⟩

end Flash
end AgbTools
