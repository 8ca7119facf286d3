import Mathlib.Data.BitVec
import Mathlib.Tactic.Common
import AgbTools.Runs

/-! The real-time clock library: entry points behind one lock flag, the bit-serial transfers
they make over the cartridge port, and the shape of the traffic on that port. -/
namespace AgbTools
namespace SiiRtc

abbrev Byte := BitVec 8
abbrev Half := BitVec 16

/-- `struct SiiRtcInfo`. -/
structure SiiRtcInfo where
  year : Byte
  month : Byte
  day : Byte
  dayOfWeek : Byte
  hour : Byte
  minute : Byte
  second : Byte
  status : Byte
  alarmHour : Byte
  alarmMinute : Byte
deriving DecidableEq, Repr

/-- The byte at an offset of the structure, `INFO_BUF`. -/
def SiiRtcInfo.buf (info : SiiRtcInfo) : ℕ → Byte
  | 0 => info.year
  | 1 => info.month
  | 2 => info.day
  | 3 => info.dayOfWeek
  | 4 => info.hour
  | 5 => info.minute
  | 6 => info.second
  | 7 => info.status
  | 8 => info.alarmHour
  | 9 => info.alarmMinute
  | _ => 0

/-- Assignment through `INFO_BUF`. -/
def SiiRtcInfo.setBuf (info : SiiRtcInfo) (v : Byte) : ℕ → SiiRtcInfo
  | 0 => { info with year := v }
  | 1 => { info with month := v }
  | 2 => { info with day := v }
  | 3 => { info with dayOfWeek := v }
  | 4 => { info with hour := v }
  | 5 => { info with minute := v }
  | 6 => { info with second := v }
  | 7 => { info with status := v }
  | 8 => { info with alarmHour := v }
  | 9 => { info with alarmMinute := v }
  | _ => info

def offsetYear : ℕ := 0
def offsetHour : ℕ := 4
def offsetSecond : ℕ := 6
def datetimeBufLen : ℕ := offsetSecond-offsetYear+1
def timeBufLen : ℕ := offsetSecond-offsetHour+1

/-- `CMD`: the command byte of a register, still without its direction bit. -/
def cmd (n : Byte) : Byte := 0x60 ||| (n <<< 1)

def wr : Byte := 0
def rd : Byte := 1
def cmdReset : Byte := cmd 0
def cmdStatus : Byte := cmd 1
def cmdDatetime : Byte := cmd 2
def cmdTime : Byte := cmd 3
def cmdAlarm : Byte := cmd 4

def statusIntfe : Byte := 0x02
def statusIntme : Byte := 0x08
def statusIntae : Byte := 0x20
def status24Hour : Byte := 0x40
def statusPower : Byte := 0x80

def siiRtcInfoIntfe : Byte := 0x01
def siiRtcInfoIntme : Byte := 0x02
def siiRtcInfoIntae : Byte := 0x04
def siiRtcInfo24Hour : Byte := 0x40
def siiRtcInfoPower : Byte := 0x80

def testMode : Byte := 0x80
def alarmAm : Byte := 0x00
def alarmPm : Byte := 0x80

/-- An access to the data or to the direction register of the port. -/
inductive Access
  | data (value : Half)
  | direction (value : Half)
  | read (value : Half)
deriving DecidableEq, Repr

/-- What stands on the cartridge side of the port. -/
structure Device (δ : Type) where
  data : δ → Half → δ
  direction : δ → Half → δ
  readEnable : δ → Half → δ
  read : δ → Half

/-- The library with its lock flag `sLocked`, the device and the accesses made so far. -/
structure Rtc (δ : Type) where
  locked : Bool
  device : δ
  trace : List Access

/-- What the uninitialised locals of the library hold. -/
structure Locals (δ : Type) where
  value : Rtc δ → Byte
  info : Rtc δ → SiiRtcInfo

/-- What a call gives back: its result, the structure of the caller and the library. -/
structure Outcome (δ : Type) where
  result : Byte
  info : SiiRtcInfo
  state : Rtc δ

section Library
variable {δ : Type} (d : Device δ) (u : Locals δ)

def portData (v : Half) (s : Rtc δ) : Rtc δ :=
  { s with device := d.data s.device v, trace := s.trace ++ [.data v] }

def portDirection (v : Half) (s : Rtc δ) : Rtc δ :=
  { s with device := d.direction s.device v, trace := s.trace ++ [.direction v] }

def enableGpioPortRead (s : Rtc δ) : Rtc δ := { s with device := d.readEnable s.device 1 }

def disableGpioPortRead (s : Rtc δ) : Rtc δ := { s with device := d.readEnable s.device 0 }

/-- The four writes that clock one bit out. -/
def clockOut (temp : Byte) (s : Rtc δ) : Rtc δ :=
  let low : Half := (temp.setWidth 16 <<< 1) ||| 4
  let high : Half := (temp.setWidth 16 <<< 1) ||| 5
  portData d high (portData d low (portData d low (portData d low s)))

def writeCommand (value : Byte) (s : Rtc δ) : Rtc δ :=
  (List.range 8).foldl (fun s i => clockOut d ((value >>> (7-i)) &&& 1) s) s

def writeData (value : Byte) (s : Rtc δ) : Rtc δ :=
  (List.range 8).foldl (fun s i => clockOut d ((value >>> i) &&& 1) s) s

/-- One bit of `ReadData`: five low writes, a high one and the read. -/
def clockIn (x : Byte × Rtc δ) : Byte × Rtc δ :=
  let low := portData d 4 (portData d 4 (portData d 4 (portData d 4 (portData d 4 x.2))))
  let s := portData d 5 low
  let v := d.read s.device
  let temp : Byte := ((v &&& 2) >>> 1).setWidth 8
  ((x.1 >>> 1) ||| (temp <<< 7),{ s with trace := s.trace ++ [.read v] })

def readData (s : Rtc δ) : Byte × Rtc δ :=
  (List.range 8).foldl (fun x _ => clockIn d x) (u.value s,s)

/-- The writes of a loop over a part of the structure. -/
def writeBuf (info : SiiRtcInfo) (offset len : ℕ) (s : Rtc δ) : Rtc δ :=
  (List.range len).foldl (fun s i => writeData d (info.buf (offset+i)) s) s

/-- The reads of a loop over a part of the structure. -/
def readBuf (offset len : ℕ) (x : SiiRtcInfo × Rtc δ) : SiiRtcInfo × Rtc δ :=
  (List.range len).foldl (fun x i =>
    let r := readData d u x.2
    (x.1.setBuf r.1 (offset+i),r.2)) x

/-- The frame that all transfers share: the lock is taken, CS goes up, the command byte and the
body follow, CS goes down and the lock is given back. -/
def transfer {α : Type} (command : Byte) (body : Rtc δ → α × Rtc δ) (s : Rtc δ) : α × Rtc δ :=
  let s := { s with locked := true }
  let s := portDirection d 7 (portData d 5 (portData d 1 s))
  let r := body (writeCommand d command s)
  let s := portData d 1 (portData d 1 r.2)
  (r.1,{ s with locked := false })

/-- A transfer is refused while the flag is set. -/
def unlessLocked (info : SiiRtcInfo) (s : Rtc δ) (f : Rtc δ → SiiRtcInfo × Rtc δ) : Outcome δ :=
  if s.locked = true then ⟨0,info,s⟩
  else
    let r := f s
    ⟨1,r.1,r.2⟩

def siiRtcUnprotect (s : Rtc δ) : Rtc δ := { enableGpioPortRead d s with locked := false }

def siiRtcProtect (s : Rtc δ) : Rtc δ := { disableGpioPortRead d s with locked := true }

/-- The status byte of the chip as the structure holds it. -/
def statusOfChip (statusData : Byte) : Byte :=
  (statusData &&& (statusPower ||| status24Hour)) |||
    ((statusData &&& statusIntae) >>> 3) |||
    ((statusData &&& statusIntme) >>> 2) |||
    ((statusData &&& statusIntfe) >>> 1)

def siiRtcGetStatus (info : SiiRtcInfo) (s : Rtc δ) : Outcome δ :=
  unlessLocked info s <| transfer d (cmdStatus ||| rd) fun s =>
    let r := readData d u (portDirection d 5 s)
    ({ info with status := statusOfChip r.1 },r.2)

/-- The status byte that is sent: the library only runs the chip in 24-hour mode. -/
def statusToChip (status : Byte) : Byte :=
  status24Hour |||
    ((status &&& siiRtcInfoIntae) <<< 3) |||
    ((status &&& siiRtcInfoIntme) <<< 2) |||
    ((status &&& siiRtcInfoIntfe) <<< 1)

def siiRtcSetStatus (info : SiiRtcInfo) (s : Rtc δ) : Outcome δ :=
  unlessLocked info s <| transfer d (cmdStatus ||| wr) fun s =>
    (info,writeData d (statusToChip info.status) s)

def siiRtcReset (s : Rtc δ) : Outcome δ :=
  let info := u.info s
  if s.locked = true then ⟨0,info,s⟩
  else
    let s := (transfer d (cmdReset ||| wr) (fun s => ((),s)) s).2
    siiRtcSetStatus d { info with status := siiRtcInfo24Hour } s

/-- The hour byte loses its AM/PM flag. -/
def maskHour (info : SiiRtcInfo) : SiiRtcInfo :=
  info.setBuf (info.buf offsetHour &&& 0x7F) offsetHour

def siiRtcGetDateTime (info : SiiRtcInfo) (s : Rtc δ) : Outcome δ :=
  unlessLocked info s <| transfer d (cmdDatetime ||| rd) fun s =>
    let r := readBuf d u offsetYear datetimeBufLen (info,portDirection d 5 s)
    (maskHour r.1,r.2)

def siiRtcSetDateTime (info : SiiRtcInfo) (s : Rtc δ) : Outcome δ :=
  unlessLocked info s <| transfer d (cmdDatetime ||| wr) fun s =>
    (info,writeBuf d info offsetYear datetimeBufLen s)

def siiRtcGetTime (info : SiiRtcInfo) (s : Rtc δ) : Outcome δ :=
  unlessLocked info s <| transfer d (cmdTime ||| rd) fun s =>
    let r := readBuf d u offsetHour timeBufLen (info,portDirection d 5 s)
    (maskHour r.1,r.2)

def siiRtcSetTime (info : SiiRtcInfo) (s : Rtc δ) : Outcome δ :=
  unlessLocked info s <| transfer d (cmdTime ||| wr) fun s =>
    (info,writeBuf d info offsetHour timeBufLen s)

/-- The two alarm bytes; the AM/PM flag is set by the decoded hour. -/
def alarmData (info : SiiRtcInfo) : List Byte :=
  let hour : Byte := (info.alarmHour &&& 0xF) + 10 * ((info.alarmHour >>> 4) &&& 0xF)
  [if hour < 12 then info.alarmHour ||| alarmAm else info.alarmHour ||| alarmPm,info.alarmMinute]

def siiRtcSetAlarm (info : SiiRtcInfo) (s : Rtc δ) : Outcome δ :=
  unlessLocked info s <| transfer d (cmdAlarm ||| wr) fun s =>
    (info,(alarmData info).foldl (fun s v => writeData d v s) s)

/-- The second half of `SiiRtcProbe`, after the mode of the chip is settled. -/
def probeTest (errorCode : Byte) (info : SiiRtcInfo) (s : Rtc δ) : Outcome δ :=
  let time := siiRtcGetTime d u info s
  if time.info.second &&& testMode ≠ 0 then
    let reset := siiRtcReset d u time.state
    if reset.result = 0 then ⟨(errorCode <<< 4) &&& 0xF0,time.info,reset.state⟩
    else ⟨((errorCode+1) <<< 4) ||| 1,time.info,reset.state⟩
  else ⟨(errorCode <<< 4) ||| 1,time.info,time.state⟩

def siiRtcProbe (s : Rtc δ) : Outcome δ :=
  let got := siiRtcGetStatus d u (u.info s) s
  if got.result = 0 then ⟨0,got.info,got.state⟩
  else
    let mode := got.info.status &&& (siiRtcInfoPower ||| siiRtcInfo24Hour)
    if mode = siiRtcInfoPower ∨ mode = 0 then
      let reset := siiRtcReset d u got.state
      if reset.result = 0 then ⟨0,got.info,reset.state⟩
      else probeTest d u 1 got.info reset.state
    else probeTest d u 0 got.info got.state

/-- A call of the library, with the structure the caller passes. -/
inductive Call
  | unprotect
  | protect
  | probe
  | reset
  | getStatus (info : SiiRtcInfo)
  | setStatus (info : SiiRtcInfo)
  | getDateTime (info : SiiRtcInfo)
  | setDateTime (info : SiiRtcInfo)
  | getTime (info : SiiRtcInfo)
  | setTime (info : SiiRtcInfo)
  | setAlarm (info : SiiRtcInfo)
deriving DecidableEq

/-- The structure a call is given, for the calls that take one. -/
def Call.info : Call → Option SiiRtcInfo
  | .unprotect | .protect | .probe | .reset => none
  | .getStatus info | .setStatus info | .getDateTime info | .setDateTime info
  | .getTime info | .setTime info | .setAlarm info => some info

/-- Result (none for the calls that return nothing), structure of the caller and library after a
call. The structures of `SiiRtcProbe` and `SiiRtcReset` are locals of theirs. -/
def call (s : Rtc δ) : Call → Option Byte × Option SiiRtcInfo × Rtc δ
  | .unprotect => (none,none,siiRtcUnprotect d s)
  | .protect => (none,none,siiRtcProtect d s)
  | .probe => let r := siiRtcProbe d u s; (some r.result,none,r.state)
  | .reset => let r := siiRtcReset d u s; (some r.result,none,r.state)
  | .getStatus info => let r := siiRtcGetStatus d u info s; (some r.result,some r.info,r.state)
  | .setStatus info => let r := siiRtcSetStatus d info s; (some r.result,some r.info,r.state)
  | .getDateTime info =>
    let r := siiRtcGetDateTime d u info s; (some r.result,some r.info,r.state)
  | .setDateTime info =>
    let r := siiRtcSetDateTime d info s; (some r.result,some r.info,r.state)
  | .getTime info => let r := siiRtcGetTime d u info s; (some r.result,some r.info,r.state)
  | .setTime info => let r := siiRtcSetTime d info s; (some r.result,some r.info,r.state)
  | .setAlarm info => let r := siiRtcSetAlarm d info s; (some r.result,some r.info,r.state)

def step (s : Rtc δ) (c : Call) : Rtc δ := (call d u s c).2.2

end Library

section Traffic

/-- The segments of a trace, one after the other. -/
def Segments : List (List Access → Prop) → List Access → Prop
  | [], t => t = []
  | p::ps, t => ∃ a b, t = a ++ b ∧ p a ∧ Segments ps b

theorem Segments.append {ps qs : List (List Access → Prop)} {a b : List Access}
    (ha : Segments ps a) (hb : Segments qs b) : Segments (ps ++ qs) (a ++ b) := by
  induction ps generalizing a with
  | nil =>
    have h : a = [] := ha
    simpa [h] using hb
  | cons p ps ih =>
    obtain ⟨c,e,rfl,hc,he⟩ := ha
    exact ⟨c,e ++ b,List.append_assoc c e b,hc,ih he⟩

theorem Segments.single {p : List Access → Prop} {a : List Access} (h : p a) : Segments [p] a :=
  ⟨a,[],(List.append_nil a).symm,h,rfl⟩

/-- The data register with CS up. -/
def level (sio sck : Bool) : Half := 4 ||| (if sio then 2 else 0) ||| (if sck then 1 else 0)

/-- One clock pulse that carries a bit to the chip: SCK is low, then it goes high. -/
def IsPulse (b : Bool) (t : List Access) : Prop :=
  ∃ k, t = List.replicate (k+1) (.data (level b false)) ++ [.data (level b true)]

/-- One clock pulse after which SIO is read. -/
def IsSample (t : List Access) : Prop :=
  ∃ k v, t = List.replicate (k+1) (.data (level false false)) ++ [.data (level false true),.read v]

/-- Eight pulses, most significant bit first. -/
def IsCommandByte (c : Byte) : List Access → Prop :=
  Segments ((List.range 8).map fun i => IsPulse (c.getLsbD (7-i)))

/-- Eight pulses, least significant bit first. -/
def IsSentByte (v : Byte) : List Access → Prop :=
  Segments ((List.range 8).map fun i => IsPulse (v.getLsbD i))

def IsReceivedByte : List Access → Prop := Segments (List.replicate 8 IsSample)

/-- What follows the command byte: SIO is turned to input for the read commands only. -/
def IsBody (command : Byte) (t : List Access) : Prop :=
  if command.getLsbD 0 then
    ∃ n, Segments ((· = [.direction 5]) :: List.replicate n IsReceivedByte) t
  else ∃ vs : List Byte, Segments (vs.map IsSentByte) t

/-- CS goes up while SCK is high, all three pins are outputs before the first command bit, and CS
goes down at the end. -/
def IsTransaction (t : List Access) : Prop :=
  ∃ command, Segments [(· = [.data 1,.data 5,.direction 7]),IsCommandByte command,
    IsBody command,(· = [.data 1,.data 1])] t

/-- A trace made of whole transactions. -/
def Framed (t : List Access) : Prop := ∃ ts : List (List Access), t = ts.flatten ∧
  ∀ a ∈ ts, IsTransaction a

theorem Framed.append {a b : List Access} (ha : Framed a) (hb : Framed b) : Framed (a ++ b) := by
  obtain ⟨as,rfl,has⟩ := ha
  obtain ⟨bs,rfl,hbs⟩ := hb
  refine ⟨as ++ bs,by simp,?_⟩
  intro t ht
  obtain h | h := List.mem_append.mp ht
  · exact has t h
  · exact hbs t h

variable {δ : Type} {d : Device δ} {u : Locals δ}

/-- What an access does to the device. -/
def Device.access (d : Device δ) (x : δ) : Access → δ
  | .data v => d.data x v
  | .direction v => d.direction x v
  | .read _ => x

/-- From `s` to `s'` the trace grows by `p`, the device follows the trace and the lock stays as it
is. -/
def Adds (d : Device δ) (p : List Access → Prop) (s s' : Rtc δ) : Prop :=
  s'.locked = s.locked ∧
    ∃ t, s'.trace = s.trace ++ t ∧ s'.device = t.foldl d.access s.device ∧ p t

theorem Adds.trans {ps qs : List (List Access → Prop)} {s s' s'' : Rtc δ}
    (h : Adds d (Segments ps) s s') (h' : Adds d (Segments qs) s' s'') :
    Adds d (Segments (ps ++ qs)) s s'' := by
  obtain ⟨hl,a,ha,hda,hp⟩ := h
  obtain ⟨hl',b,hb,hdb,hq⟩ := h'
  exact ⟨hl'.trans hl,a ++ b,by rw [hb,ha,List.append_assoc],by rw [hdb,hda,List.foldl_append],
    hp.append hq⟩

theorem Adds.single {p : List Access → Prop} {s s' : Rtc δ} (h : Adds d p s s') :
    Adds d (Segments [p]) s s' := by
  obtain ⟨hl,t,ht,hd,hp⟩ := h
  exact ⟨hl,t,ht,hd,.single hp⟩

/-- A loop adds the segments of its rounds. -/
theorem Adds.foldl {α ι : Type} {f : α × Rtc δ → ι → α × Rtc δ} {p : ι → List Access → Prop}
    (hf : ∀ x i, Adds d (p i) x.2 (f x i).2) (is : List ι) (x : α × Rtc δ) :
    Adds d (Segments (is.map p)) x.2 (is.foldl f x).2 := by
  induction is generalizing x with
  | nil => exact ⟨rfl,[],(List.append_nil _).symm,rfl,rfl⟩
  | cons i is ih => exact (hf x i).single.trans (ih (f x i))

/-- The same for a loop that only moves the library. -/
theorem Adds.loop {ι : Type} {f : Rtc δ → ι → Rtc δ} {p : ι → List Access → Prop}
    (hf : ∀ s i, Adds d (p i) s (f s i)) (is : List ι) (s : Rtc δ) :
    Adds d (Segments (is.map p)) s (is.foldl f s) := by
  induction is generalizing s with
  | nil => exact ⟨rfl,[],(List.append_nil _).symm,rfl,rfl⟩
  | cons i is ih => exact (hf s i).single.trans (ih (f s i))

theorem shiftRight_and_one (v : Byte) (i : ℕ) :
    (v >>> i) &&& 1 = if v.getLsbD i then 1 else 0 := by
  refine BitVec.eq_of_getLsbD_eq fun j hj => ?_
  cases hv : v.getLsbD i <;> by_cases h0 : j = 0 <;> simp [h0,hv,BitVec.getLsbD_one]

theorem adds_clockOut (v : Byte) (i : ℕ) (s : Rtc δ) :
    Adds d (IsPulse (v.getLsbD i)) s (clockOut d ((v >>> i) &&& 1) s) := by
  rw [shiftRight_and_one]
  refine ⟨rfl,_,?_,?_,2,rfl⟩
  · cases v.getLsbD i <;> simp [clockOut,portData,level,List.replicate]
  · cases v.getLsbD i <;> simp [clockOut,portData,level,List.replicate,Device.access]

theorem adds_writeCommand (c : Byte) (s : Rtc δ) :
    Adds d (IsCommandByte c) s (writeCommand d c s) :=
  Adds.loop (fun s i => adds_clockOut c (7-i) s) _ s

theorem adds_writeData (v : Byte) (s : Rtc δ) : Adds d (IsSentByte v) s (writeData d v s) :=
  Adds.loop (fun s i => adds_clockOut v i s) _ s

theorem adds_clockIn (x : Byte × Rtc δ) : Adds d IsSample x.2 (clockIn d x).2 := by
  refine ⟨rfl,_,?_,?_,4,d.read (d.data (d.data (d.data (d.data (d.data (d.data
    x.2.device 4) 4) 4) 4) 4) 5),rfl⟩
  · simp [clockIn,portData,level,List.replicate]
  · simp [clockIn,portData,level,List.replicate,Device.access]

theorem adds_readData (s : Rtc δ) : Adds d IsReceivedByte s (readData d u s).2 :=
  Adds.foldl (p := fun _ => IsSample) (fun x _ => adds_clockIn x) _ (u.value s,s)

theorem adds_receive (len : ℕ) (f : ℕ → SiiRtcInfo × Rtc δ → SiiRtcInfo × Rtc δ)
    (hf : ∀ x i, Adds d IsReceivedByte x.2 (f i x).2) (x : SiiRtcInfo × Rtc δ) :
    Adds d (Segments (List.replicate len IsReceivedByte)) x.2
      ((List.range len).foldl (fun x i => f i x) x).2 := by
  have hloop := Adds.foldl (p := fun _ => IsReceivedByte) hf (List.range len) x
  simpa [List.map_const'] using hloop

theorem adds_readBuf (offset len : ℕ) (x : SiiRtcInfo × Rtc δ) :
    Adds d (Segments (List.replicate len IsReceivedByte)) x.2 (readBuf d u offset len x).2 :=
  adds_receive len (fun i x => (x.1.setBuf (readData d u x.2).1 (offset+i),(readData d u x.2).2))
    (fun x _ => adds_readData x.2) x

theorem adds_writeBuf (info : SiiRtcInfo) (offset len : ℕ) (s : Rtc δ) :
    Adds d (Segments (((List.range len).map fun i => info.buf (offset+i)).map IsSentByte)) s
      (writeBuf d info offset len s) := by
  rw [List.map_map]
  exact Adds.loop (fun s i => adds_writeData (info.buf (offset+i)) s) _ s

theorem adds_writes (vs : List Byte) (s : Rtc δ) :
    Adds d (Segments (vs.map IsSentByte)) s (vs.foldl (fun s v => writeData d v s) s) :=
  Adds.loop (fun s v => adds_writeData v s) vs s

/-- The body of a read command. -/
theorem Adds.readBody (d : Device δ) {command : Byte} (hrd : command.getLsbD 0 = true) {n : ℕ} {s s' : Rtc δ}
    (h : Adds d (Segments (List.replicate n IsReceivedByte)) (portDirection d 5 s) s') :
    Adds d (IsBody command) s s' := by
  have hdir : Adds d (· = [.direction 5]) s (portDirection d 5 s) := ⟨rfl,_,rfl,rfl,rfl⟩
  obtain ⟨hl,t,ht,hd,hseg⟩ := hdir.single.trans h
  exact ⟨hl,t,ht,hd,by rw [IsBody,if_pos hrd]; exact ⟨n,hseg⟩⟩

/-- The body of a write command. -/
theorem Adds.writeBody {command : Byte} (hwr : command.getLsbD 0 = false) {vs : List Byte}
    {s s' : Rtc δ} (h : Adds d (Segments (vs.map IsSentByte)) s s') : Adds d (IsBody command) s s' := by
  obtain ⟨hl,t,ht,hd,hseg⟩ := h
  exact ⟨hl,t,ht,hd,by rw [IsBody,if_neg (by rw [hwr]; decide)]; exact ⟨vs,hseg⟩⟩

/-- The library comes out unlocked and the trace has grown by whole transactions. -/
def Completes (d : Device δ) (s s' : Rtc δ) : Prop :=
  s'.locked = false ∧
    ∃ t, s'.trace = s.trace ++ t ∧ s'.device = t.foldl d.access s.device ∧ Framed t

theorem Completes.trans {s s' s'' : Rtc δ} (h : Completes d s s') (h' : Completes d s' s'') :
    Completes d s s'' := by
  obtain ⟨-,a,ha,hda,hfa⟩ := h
  obtain ⟨hl,b,hb,hdb,hfb⟩ := h'
  exact ⟨hl,a ++ b,by rw [hb,ha,List.append_assoc],by rw [hdb,hda,List.foldl_append],
    hfa.append hfb⟩

theorem completes_transfer {α : Type} (command : Byte) {body : Rtc δ → α × Rtc δ}
    (hbody : ∀ s, Adds d (IsBody command) s (body s).2) (s : Rtc δ) :
    Completes d s (transfer d command body s).2 := by
  let opened := portDirection d 7 (portData d 5 (portData d 1 { s with locked := true }))
  let sent := writeCommand d command opened
  have hopen : Adds d (· = [.data 1,.data 5,.direction 7]) { s with locked := true } opened :=
    ⟨rfl,_,by simp [opened,portDirection,portData],rfl,rfl⟩
  have hclose : Adds d (· = [.data 1,.data 1]) (body sent).2
      (portData d 1 (portData d 1 (body sent).2)) :=
    ⟨rfl,_,by simp [portData],rfl,rfl⟩
  obtain ⟨-,t,ht,hd,hseg⟩ := ((hopen.single.trans (adds_writeCommand command opened).single).trans
    (hbody sent).single).trans hclose.single
  exact ⟨rfl,t,ht,hd,[t],by simp,by simpa using ⟨command,hseg⟩⟩

theorem unlessLocked_of_locked {s : Rtc δ} (h : s.locked = true) (info : SiiRtcInfo)
    (f : Rtc δ → SiiRtcInfo × Rtc δ) : unlessLocked info s f = ⟨0,info,s⟩ := if_pos h

theorem completes_unlessLocked {s : Rtc δ} (h : s.locked = false) (info : SiiRtcInfo)
    {f : Rtc δ → SiiRtcInfo × Rtc δ} (hf : ∀ s, Completes d s (f s).2) :
    (unlessLocked info s f).result = 1 ∧ Completes d s (unlessLocked info s f).state := by
  have hneg : ¬ s.locked = true := by simp [h]
  rw [unlessLocked,if_neg hneg]
  exact ⟨rfl,hf s⟩

section Unlocked
variable {s : Rtc δ} (h : s.locked = false) (info : SiiRtcInfo)
include h

theorem completes_getStatus : (siiRtcGetStatus d u info s).result = 1 ∧
    Completes d s (siiRtcGetStatus d u info s).state :=
  completes_unlessLocked h info <| completes_transfer _ fun s =>
    Adds.readBody d (n := 1) (by decide) (adds_readData _).single

theorem completes_setStatus : (siiRtcSetStatus d info s).result = 1 ∧
    Completes d s (siiRtcSetStatus d info s).state :=
  completes_unlessLocked h info <| completes_transfer _ fun s =>
    Adds.writeBody (by decide) (adds_writes [statusToChip info.status] s)

theorem completes_getDateTime : (siiRtcGetDateTime d u info s).result = 1 ∧
    Completes d s (siiRtcGetDateTime d u info s).state :=
  completes_unlessLocked h info <| completes_transfer _ fun s =>
    Adds.readBody d (by decide) (adds_readBuf _ _ (info,portDirection d 5 s))

theorem completes_setDateTime : (siiRtcSetDateTime d info s).result = 1 ∧
    Completes d s (siiRtcSetDateTime d info s).state :=
  completes_unlessLocked h info <| completes_transfer _ fun s =>
    Adds.writeBody (by decide) (adds_writeBuf info offsetYear datetimeBufLen s)

theorem completes_getTime : (siiRtcGetTime d u info s).result = 1 ∧
    Completes d s (siiRtcGetTime d u info s).state :=
  completes_unlessLocked h info <| completes_transfer _ fun s =>
    Adds.readBody d (by decide) (adds_readBuf _ _ (info,portDirection d 5 s))

theorem completes_setTime : (siiRtcSetTime d info s).result = 1 ∧
    Completes d s (siiRtcSetTime d info s).state :=
  completes_unlessLocked h info <| completes_transfer _ fun s =>
    Adds.writeBody (by decide) (adds_writeBuf info offsetHour timeBufLen s)

theorem completes_setAlarm : (siiRtcSetAlarm d info s).result = 1 ∧
    Completes d s (siiRtcSetAlarm d info s).state :=
  completes_unlessLocked h info <| completes_transfer _ fun s =>
    Adds.writeBody (by decide) (adds_writes (alarmData info) s)

omit info in
theorem completes_reset : (siiRtcReset d u s).result = 1 ∧
    Completes d s (siiRtcReset d u s).state := by
  have hneg : ¬ s.locked = true := by simp [h]
  have hreset : Completes d s (transfer d (cmdReset ||| wr) (fun s => ((),s)) s).2 :=
    completes_transfer _ (fun s => Adds.writeBody (by decide) (adds_writes (d := d) [] s)) s
  have hset := completes_setStatus (d := d) hreset.1
    { u.info s with status := siiRtcInfo24Hour }
  unfold siiRtcReset
  rw [if_neg hneg]
  exact ⟨hset.1,hreset.trans hset.2⟩

theorem completes_probeTest (errorCode : Byte) :
    Completes d s (probeTest d u errorCode info s).state := by
  have htime := completes_getTime (d := d) (u := u) h info
  have hreset := completes_reset (d := d) (u := u) htime.2.1
  unfold probeTest
  dsimp only
  split_ifs
  · exact htime.2.trans hreset.2
  · exact htime.2.trans hreset.2
  · exact htime.2

omit info in
theorem completes_probe : Completes d s (siiRtcProbe d u s).state := by
  have hgot := completes_getStatus (d := d) (u := u) h (u.info s)
  have hreset := completes_reset (d := d) (u := u) hgot.2.1
  unfold siiRtcProbe
  dsimp only
  split_ifs
  · exact hgot.2
  · exact hgot.2.trans hreset.2
  · exact (hgot.2.trans hreset.2).trans (completes_probeTest hreset.2.1 _ 1)
  · exact hgot.2.trans (completes_probeTest hgot.2.1 _ 0)

/-- Every call that goes to the chip completes. -/
theorem completes_call (c : Call) (hc : c ≠ .protect) (hc' : c ≠ .unprotect) :
    Completes d s (step d u s c) := by
  cases c with
  | unprotect => exact absurd rfl hc'
  | protect => exact absurd rfl hc
  | probe => exact completes_probe h
  | reset => exact (completes_reset h).2
  | getStatus info => exact (completes_getStatus h info).2
  | setStatus info => exact (completes_setStatus h info).2
  | getDateTime info => exact (completes_getDateTime h info).2
  | setDateTime info => exact (completes_setDateTime h info).2
  | getTime info => exact (completes_getTime h info).2
  | setTime info => exact (completes_setTime h info).2
  | setAlarm info => exact (completes_setAlarm h info).2

end Unlocked

theorem step_of_locked {s : Rtc δ} (h : s.locked = true) (c : Call) (hc : c ≠ .protect)
    (hc' : c ≠ .unprotect) : step d u s c = s := by
  have hun := fun info f => unlessLocked_of_locked (s := s) h info f
  cases c with
  | unprotect => exact absurd rfl hc'
  | protect => exact absurd rfl hc
  | probe => simp [step,call,siiRtcProbe,siiRtcGetStatus,hun]
  | reset => simp [step,call,siiRtcReset,h]
  | getStatus info => simp [step,call,siiRtcGetStatus,hun]
  | setStatus info => simp [step,call,siiRtcSetStatus,hun]
  | getDateTime info => simp [step,call,siiRtcGetDateTime,hun]
  | setDateTime info => simp [step,call,siiRtcSetDateTime,hun]
  | getTime info => simp [step,call,siiRtcGetTime,hun]
  | setTime info => simp [step,call,siiRtcSetTime,hun]
  | setAlarm info => simp [step,call,siiRtcSetAlarm,hun]

end Traffic

end SiiRtc
end AgbTools
