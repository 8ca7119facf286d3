import Mathlib.Tactic.IntervalCases
import AgbTools.CellMemory
import AgbTools.SiiRtc

/-! The clock chip behind the port: a bit-serial device with a register file. What the library
stores in the chip comes back when it is read. -/
namespace AgbTools
namespace SiiRtc

/-- What the chip does with the next rising edge of SCK. -/
inductive Phase
  | idle
  | command
  | writing (reg left : ℕ)
  | reading (reg left : ℕ)
deriving DecidableEq, Repr

/-- The chip. Its register file has the date and time in the order of `SiiRtcInfo` (0 to 6), then
the status register and the two alarm registers. -/
structure Chip where
  regs : ℕ → Byte
  phase : Phase
  shift : Byte
  count : ℕ
  out : Bool

/-- First register and number of registers of a command. -/
def addressed (code : Byte) : ℕ × ℕ :=
  if code = 1 then (7,1) else if code = 2 then (0,7) else if code = 3 then (4,3)
  else if code = 4 then (8,2) else (0,0)

/-- The registers after a reset: the first of January of year 0. -/
def resetRegs : ℕ → Byte := fun i => if i = 1 ∨ i = 2 then 1 else 0

/-- A whole command byte has come in. -/
def Chip.decode (c : Chip) (command : Byte) : Chip :=
  let code := (command >>> 1) &&& 7
  if command >>> 4 ≠ 6 then { c with phase := .idle }
  else if command.getLsbD 0 then
    { c with phase := .reading (addressed code).1 (addressed code).2, count := 0 }
  else if code = 0 then { c with phase := .idle, regs := resetRegs }
  else { c with phase := .writing (addressed code).1 (addressed code).2, count := 0 }

/-- A bit enters a byte at the lower end. -/
def shiftLeftIn (v : Byte) (b : Bool) : Byte := (v <<< 1) ||| (if b then 1 else 0)

/-- A bit enters a byte at the upper end. -/
def shiftRightIn (v : Byte) (b : Bool) : Byte := (v >>> 1) ||| (if b then 0x80 else 0)

/-- A rising edge of SCK while CS is up. -/
def Chip.clock (c : Chip) (sio : Bool) : Chip :=
  match c.phase with
  | .idle => c
  | .command =>
    let shift := shiftLeftIn c.shift sio
    if c.count = 7 then { c with shift := shift }.decode shift
    else { c with shift := shift, count := c.count+1 }
  | .writing reg left =>
    let shift := shiftRightIn c.shift sio
    if c.count = 7 then
      if left = 0 then { c with shift := shift, count := 0 }
      else { c with shift := shift, count := 0, regs := Function.update c.regs reg shift,
                    phase := .writing (reg+1) (left-1) }
    else { c with shift := shift, count := c.count+1 }
  | .reading reg left =>
    if left = 0 then { c with out := false }
    else if c.count = 7 then
      { c with out := (c.regs reg).getLsbD 7, count := 0, phase := .reading (reg+1) (left-1) }
    else { c with out := (c.regs reg).getLsbD c.count, count := c.count+1 }

/-- The levels of the three pins as the port drives them. -/
structure Pins where
  sck : Bool
  sio : Bool
  cs : Bool
deriving DecidableEq

/-- CS resets the serial interface; between its edges SCK clocks it. -/
def Chip.pins (c : Chip) (old new : Pins) : Chip :=
  if new.cs = false then { c with phase := .idle }
  else if old.cs = false then { c with phase := .command, count := 0 }
  else if old.sck = false ∧ new.sck = true then c.clock new.sio
  else c

/-- The port registers with the chip on the pins. -/
structure Board where
  data : Half
  direction : Half
  readEnable : Half
  chip : Chip

/-- A pin that is no output is not driven. -/
def Board.pins (b : Board) : Pins :=
  let driven := b.data &&& b.direction
  ⟨driven.getLsbD 0,driven.getLsbD 1,driven.getLsbD 2⟩

/-- The registers change and the chip sees the pins move. -/
def Board.move (b : Board) (data direction : Half) : Board :=
  let b' : Board := { b with data := data, direction := direction }
  { b' with chip := b.chip.pins b.pins b'.pins }

/-- What is read at the data register: the driven pins, and SIO from the chip when it is an
input. With the read enable off the cartridge ROM answers. -/
def Board.read (rom : Half) (b : Board) : Half :=
  if b.readEnable.getLsbD 0 then
    (b.data &&& b.direction) |||
      (if b.direction.getLsbD 1 = false ∧ b.chip.out then 2 else 0)
  else rom

/-- The board as a device of the library. -/
def board (rom : Half) : Device Board where
  data b v := b.move v b.direction
  direction b v := b.move b.data v
  readEnable b v := { b with readEnable := v }
  read := Board.read rom

section Bits

@[simp] theorem getLsbD_shiftLeftIn (v : Byte) (b : Bool) (i : ℕ) (hi : i < 8) :
    (shiftLeftIn v b).getLsbD i = if i = 0 then b else v.getLsbD (i-1) := by
  cases b <;> by_cases h0 : i = 0 <;> simp [shiftLeftIn,h0,hi,BitVec.getLsbD_one,-BitVec.getLsbD_eq_getElem]

@[simp] theorem getLsbD_shiftRightIn (v : Byte) (b : Bool) (i : ℕ) (hi : i < 8) :
    (shiftRightIn v b).getLsbD i = if i = 7 then b else v.getLsbD (i+1) := by
  have h80 : (0x80#8).getLsbD i = decide (i = 7) := by
    interval_cases i <;> rfl
  cases b <;> by_cases h7 : i = 7 <;>
    simp [shiftRightIn,h7,h80,BitVec.getLsbD_ushiftRight,Nat.add_comm,-BitVec.getLsbD_eq_getElem]

/-- Eight bits, most significant first, push out whatever was there. -/
theorem shiftLeftIn_eight (v w : Byte) :
    (List.range 8).foldl (fun x i => shiftLeftIn x (w.getLsbD (7-i))) v = w := by
  refine BitVec.eq_of_getLsbD_eq fun i hi => ?_
  simp only [List.range_succ,List.range_zero,List.nil_append,List.cons_append,List.foldl_cons,
    List.foldl_nil]
  interval_cases i <;> simp [-BitVec.getLsbD_eq_getElem]

/-- Eight bits, least significant first, push out whatever was there. -/
theorem shiftRightIn_eight (v w : Byte) :
    (List.range 8).foldl (fun x i => shiftRightIn x (w.getLsbD i)) v = w := by
  refine BitVec.eq_of_getLsbD_eq fun i hi => ?_
  simp only [List.range_succ,List.range_zero,List.nil_append,List.cons_append,List.foldl_cons,
    List.foldl_nil]
  interval_cases i <;> simp [-BitVec.getLsbD_eq_getElem]

end Bits

section ChipBytes

/-- Eight edges of a command byte. -/
theorem Chip.command_byte (c : Chip) (w : Byte) (hphase : c.phase = .command) (hcount : c.count = 0) :
    (List.range 8).foldl (fun c i => c.clock (w.getLsbD (7-i))) c =
      { c with shift := w, count := 7 }.decode w := by
  have hshift := shiftLeftIn_eight c.shift w
  simp [List.range_succ] at hshift ⊢
  simp [Chip.clock,hphase,hcount,hshift]

/-- Eight edges of a data byte that is written. -/
theorem Chip.written_byte (c : Chip) (w : Byte) {reg left : ℕ}
    (hphase : c.phase = .writing reg (left+1)) (hcount : c.count = 0) :
    (List.range 8).foldl (fun c i => c.clock (w.getLsbD i)) c =
      { c with shift := w, regs := Function.update c.regs reg w, phase := .writing (reg+1) left } := by
  have hshift := shiftRightIn_eight c.shift w
  simp [List.range_succ] at hshift ⊢
  simp [Chip.clock,hphase,hcount,hshift]

/-- Eight edges of a data byte that is read, with the shift register of `ReadData` behind the
output of the chip. -/
theorem Chip.read_byte (c : Chip) (v : Byte) {reg left : ℕ}
    (hphase : c.phase = .reading reg (left+1)) (hcount : c.count = 0) :
    (List.range 8).foldl
        (fun (x : Byte × Chip) _ => (shiftRightIn x.1 (x.2.clock false).out,x.2.clock false)) (v,c) =
      (c.regs reg,{ c with out := (c.regs reg).getLsbD 7, phase := .reading (reg+1) left }) := by
  have hshift := shiftRightIn_eight v (c.regs reg)
  simp [List.range_succ] at hshift ⊢
  simp [Chip.clock,hphase,hcount,hshift]

end ChipBytes

section BoardBytes
variable (rom : Half) {s : Rtc Board}

/-- CS is up and the pins of `direction` are outputs. -/
def Selected (b : Board) (direction : Half) : Prop :=
  b.direction = direction ∧ b.data.getLsbD 2 = true

theorem getLsbD_level (sio sck : Bool) :
    (level sio sck).getLsbD 0 = sck ∧ (level sio sck).getLsbD 1 = sio ∧
      (level sio sck).getLsbD 2 = true := by
  cases sio <;> cases sck <;> decide

theorem device_clockOut (v : Byte) (i : ℕ) (h : Selected s.device 7) :
    (clockOut (board rom) ((v >>> i) &&& 1) s).device =
      { s.device with data := level (v.getLsbD i) true,
                      chip := s.device.chip.clock (v.getLsbD i) } := by
  obtain ⟨hdir,hcs⟩ := h
  rw [shiftRight_and_one]
  cases v.getLsbD i <;>
    simp [clockOut,portData,board,Board.move,Board.pins,Chip.pins,hdir,hcs,level]

/-- A loop of bits goes to the chip edge by edge. -/
theorem device_clockOuts (v : Byte) (g : ℕ → ℕ) (is : List ℕ) (h : Selected s.device 7) :
    ∃ data, data.getLsbD 2 = true ∧
      (is.foldl (fun s i => clockOut (board rom) ((v >>> g i) &&& 1) s) s).device =
        { s.device with data := data,
                        chip := is.foldl (fun c i => c.clock (v.getLsbD (g i))) s.device.chip } := by
  induction is generalizing s with
  | nil => exact ⟨s.device.data,h.2,rfl⟩
  | cons i is ih =>
    have hbit := device_clockOut rom v (g i) h
    have hsel : Selected (clockOut (board rom) ((v >>> g i) &&& 1) s).device 7 := by
      rw [hbit]
      exact ⟨h.1,(getLsbD_level _ _).2.2⟩
    obtain ⟨data,hdata,hdev⟩ := ih hsel
    refine ⟨data,hdata,?_⟩
    rw [List.foldl_cons,hdev,hbit]
    rfl

/-- A command byte is decoded. -/
theorem device_writeCommand (w : Byte) (h : Selected s.device 7)
    (hphase : s.device.chip.phase = .command) (hcount : s.device.chip.count = 0) :
    ∃ data, data.getLsbD 2 = true ∧ (writeCommand (board rom) w s).device =
      { s.device with data := data, chip := { s.device.chip with shift := w, count := 7 }.decode w } := by
  obtain ⟨data,hdata,hdev⟩ := device_clockOuts rom w (fun i => 7-i) (List.range 8) h
  rw [Chip.command_byte _ w hphase hcount] at hdev
  exact ⟨data,hdata,hdev⟩

/-- A data byte goes to the register that is next. -/
theorem device_writeData (w : Byte) (h : Selected s.device 7) {reg left : ℕ}
    (hphase : s.device.chip.phase = .writing reg (left+1)) (hcount : s.device.chip.count = 0) :
    ∃ data, data.getLsbD 2 = true ∧ (writeData (board rom) w s).device =
      { s.device with data := data, chip := { s.device.chip with
        shift := w, regs := Function.update s.device.chip.regs reg w,
        phase := .writing (reg+1) left } } := by
  obtain ⟨data,hdata,hdev⟩ := device_clockOuts rom w (fun i => i) (List.range 8) h
  rw [Chip.written_byte _ w hphase hcount] at hdev
  exact ⟨data,hdata,hdev⟩

theorem device_clockIn (x : Byte × Rtc Board) (h : Selected x.2.device 5)
    (henable : x.2.device.readEnable = 1) :
    (clockIn (board rom) x).1 = shiftRightIn x.1 (x.2.device.chip.clock false).out ∧
      (clockIn (board rom) x).2.device =
        { x.2.device with data := 5, chip := x.2.device.chip.clock false } := by
  obtain ⟨hdir,hcs⟩ := h
  have hdev : (clockIn (board rom) x).2.device =
      { x.2.device with data := 5, chip := x.2.device.chip.clock false } := by
    simp [clockIn,portData,board,Board.move,Board.pins,Chip.pins,hdir,hcs]
  refine ⟨?_,hdev⟩
  have hread : (clockIn (board rom) x).1 = (x.1 >>> 1) |||
      ((((Board.read rom (clockIn (board rom) x).2.device) &&& 2) >>> 1).setWidth 8 <<< 7) := rfl
  rw [hread,hdev]
  cases hout : (x.2.device.chip.clock false).out <;>
    simp [Board.read,henable,hdir,hout,shiftRightIn]

/-- `ReadData` returns the register that is next, whatever its variable held before. -/
theorem device_readData (u : Locals Board) (h : Selected s.device 5)
    (henable : s.device.readEnable = 1) {reg left : ℕ}
    (hphase : s.device.chip.phase = .reading reg (left+1)) (hcount : s.device.chip.count = 0) :
    (readData (board rom) u s).1 = s.device.chip.regs reg ∧
      (readData (board rom) u s).2.device = { s.device with data := 5, chip := { s.device.chip with
        out := (s.device.chip.regs reg).getLsbD 7, phase := .reading (reg+1) left } } := by
  have hloop : ∀ (is : List ℕ) (x : Byte × Rtc Board), is ≠ [] → Selected x.2.device 5 →
      x.2.device.readEnable = 1 →
      let y := is.foldl (fun x _ => clockIn (board rom) x) x
      let z := is.foldl (fun (z : Byte × Chip) _ =>
        (shiftRightIn z.1 (z.2.clock false).out,z.2.clock false)) (x.1,x.2.device.chip)
      y.1 = z.1 ∧ y.2.device = { x.2.device with data := 5, chip := z.2 } := by
    intro is
    induction is with
    | nil => exact fun x hne => absurd rfl hne
    | cons i is ih =>
      intro x _ hsel hen
      obtain ⟨hval,hdev⟩ := device_clockIn rom x hsel hen
      by_cases his : is = []
      · subst his
        exact ⟨hval,hdev⟩
      · have hrest := ih (clockIn (board rom) x) his (by rw [hdev]; exact ⟨hsel.1,by simp⟩)
          (by rw [hdev]; exact hen)
        rw [hval,hdev] at hrest
        exact hrest
  obtain ⟨hval,hdev⟩ := hloop (List.range 8) (u.value s,s) (by decide) h henable
  rw [Chip.read_byte _ _ hphase hcount] at hval hdev
  exact ⟨hval,hdev⟩

end BoardBytes

section Transfers
variable (rom : Half) {s : Rtc Board}

/-- The chip takes data bytes, the next one for `reg`. -/
structure Writing (enable : Half) (regs : ℕ → Byte) (reg left : ℕ) (b : Board) : Prop where
  selected : Selected b 7
  enable : b.readEnable = enable
  regs : b.chip.regs = regs
  phase : b.chip.phase = .writing reg left
  count : b.chip.count = 0

/-- The chip gives data bytes, the next one from `reg`. -/
structure Reading (regs : ℕ → Byte) (reg left : ℕ) (b : Board) : Prop where
  selected : Selected b 5
  enable : b.readEnable = 1
  regs : b.chip.regs = regs
  phase : b.chip.phase = .reading reg left
  count : b.chip.count = 0

variable {e : Half} {regs : ℕ → Byte} {reg left : ℕ}

theorem Writing.writeData (h : Writing e regs reg (left+1) s.device) (w : Byte) :
    Writing e (Function.update regs reg w) (reg+1) left (writeData (board rom) w s).device := by
  obtain ⟨data,hdata,hdev⟩ := device_writeData rom w h.selected h.phase h.count
  rw [hdev]
  exact ⟨⟨h.selected.1,hdata⟩,h.enable,by rw [← h.regs],rfl,h.count⟩

theorem Writing.writeBuf (info : SiiRtcInfo) (offset n left : ℕ)
    (h : Writing e regs reg (n+left) s.device) :
    Writing e (CellMemory.write regs reg ((List.range n).map fun i => info.buf (offset+i)))
      (reg+n) left (writeBuf (board rom) info offset n s).device := by
  induction n generalizing left with
  | zero => simpa [SiiRtc.writeBuf] using h
  | succ n ih =>
    have hn : Writing e regs reg (n+(left+1)) s.device := by
      have heq : n+1+left = n+(left+1) := by omega
      rwa [heq] at h
    have hbyte := (ih (left+1) hn).writeData rom (info.buf (offset+n))
    have hupdate := CellMemory.update_write regs reg
      ((List.range n).map fun i => info.buf (offset+i)) (info.buf (offset+n))
    rw [List.length_map,List.length_range] at hupdate
    rw [hupdate] at hbyte
    simpa [SiiRtc.writeBuf,List.range_succ,Nat.add_assoc] using hbyte

theorem Reading.readData (u : Locals Board) (h : Reading regs reg (left+1) s.device) :
    (readData (board rom) u s).1 = regs reg ∧
      Reading regs (reg+1) left (readData (board rom) u s).2.device := by
  obtain ⟨hval,hdev⟩ := device_readData rom u h.selected h.enable h.phase h.count
  rw [hdev,hval,h.regs]
  exact ⟨rfl,⟨⟨h.selected.1,by simp⟩,h.enable,h.regs,rfl,h.count⟩⟩

theorem Reading.readBuf (u : Locals Board) (offset n left : ℕ) (info : SiiRtcInfo)
    (h : Reading regs reg (n+left) s.device) :
    (readBuf (board rom) u offset n (info,s)).1 =
        (List.range n).foldl (fun info i => info.setBuf (regs (reg+i)) (offset+i)) info ∧
      Reading regs (reg+n) left (readBuf (board rom) u offset n (info,s)).2.device := by
  induction n generalizing left with
  | zero => exact ⟨rfl,by simpa [SiiRtc.readBuf] using h⟩
  | succ n ih =>
    have hn : Reading regs reg (n+(left+1)) s.device := by
      have heq : n+1+left = n+(left+1) := by omega
      rwa [heq] at h
    obtain ⟨hinfo,hdev⟩ := ih (left+1) hn
    obtain ⟨hval,hnext⟩ := hdev.readData rom u
    simp only [SiiRtc.readBuf,List.range_succ,List.foldl_append,List.foldl_cons,List.foldl_nil]
      at hinfo hval hnext ⊢
    rw [hinfo,hval]
    exact ⟨rfl,hnext⟩

/-- SCK is driven whenever CS is: the library never leaves the port in another way. -/
def Steady (b : Board) : Prop := b.direction = 0 ∨ b.direction = 5 ∨ b.direction = 7

/-- The opening of a transfer: whatever the chip was doing, it waits for a command. -/
theorem device_open (h : Steady s.device) :
    let b := (portDirection (board rom) 7 (portData (board rom) 5 (portData (board rom) 1 s))).device
    Selected b 7 ∧ b.readEnable = s.device.readEnable ∧ b.chip.regs = s.device.chip.regs ∧
      b.chip.phase = .command ∧ b.chip.count = 0 := by
  obtain hdir | hdir | hdir := h
  all_goals
    simp [portDirection,portData,board,Board.move,Board.pins,Chip.pins,hdir,Selected]

/-- The close of a transfer leaves the registers alone. -/
theorem device_close (s : Rtc Board) {direction : Half} (h : Selected s.device direction)
    (hdir : direction = 5 ∨ direction = 7) :
    let b := (portData (board rom) 1 (portData (board rom) 1 s)).device
    b.direction = direction ∧ b.readEnable = s.device.readEnable ∧
      b.chip.regs = s.device.chip.regs := by
  obtain ⟨hd,-⟩ := h
  obtain rfl | rfl := hdir
  all_goals
    simp [portData,board,Board.move,Board.pins,Chip.pins,hd]

/-- Turning SIO to input moves no edge. -/
theorem device_input (h : Selected s.device 7) :
    (portDirection (board rom) 5 s).device = { s.device with direction := 5 } := by
  obtain ⟨hdir,hcs⟩ := h
  cases hsck : s.device.data.getLsbD 0 <;>
    simp [portDirection,board,Board.move,Board.pins,Chip.pins,hdir,hcs,hsck]

theorem transfer_write {α : Type} (w : Byte) (hw : ∀ c : Chip, c.decode w =
      { c with phase := .writing reg left, count := 0 }) {body : Rtc Board → α × Rtc Board}
    {regs' : ℕ → Byte} (h : Steady s.device)
    (hbody : ∀ s', Writing s.device.readEnable s.device.chip.regs reg left s'.device →
      ∃ reg' left', Writing s.device.readEnable regs' reg' left' (body s').2.device) :
    (transfer (board rom) w body s).2.device.chip.regs = regs' := by
  obtain ⟨hsel,hen,hregs,hphase,hcount⟩ := @device_open rom { s with locked := true } h
  obtain ⟨data,hdata,hdev⟩ := device_writeCommand rom w hsel hphase hcount
  rw [hw] at hdev
  obtain ⟨reg',left',hwriting⟩ := hbody _ (by rw [hdev]; exact ⟨⟨hsel.1,hdata⟩,hen,hregs,rfl,rfl⟩)
  have hclose := device_close rom _ hwriting.selected (.inr rfl)
  exact hclose.2.2.trans hwriting.regs

theorem transfer_read {α : Type} (w : Byte) (hw : ∀ c : Chip, c.decode w =
      { c with phase := .reading reg left, count := 0 }) {body : Rtc Board → α × Rtc Board}
    {x : α} (h : Steady s.device) (henable : s.device.readEnable = 1)
    (hbody : ∀ s', Reading s.device.chip.regs reg left (portDirection (board rom) 5 s').device →
      (body s').1 = x ∧ ∃ reg' left', Reading s.device.chip.regs reg' left' (body s').2.device) :
    (transfer (board rom) w body s).1 = x ∧
      (transfer (board rom) w body s).2.device.chip.regs = s.device.chip.regs := by
  obtain ⟨hsel,hen,hregs,hphase,hcount⟩ := @device_open rom { s with locked := true } h
  obtain ⟨data,hdata,hdev⟩ := device_writeCommand rom w hsel hphase hcount
  rw [hw] at hdev
  have hinput := @device_input rom (writeCommand (board rom) w (portDirection (board rom) 7
    (portData (board rom) 5 (portData (board rom) 1 { s with locked := true }))))
    (by rw [hdev]; exact ⟨hsel.1,hdata⟩)
  obtain ⟨hx,reg',left',hreading⟩ := hbody _
    (by rw [hinput,hdev]; exact ⟨⟨rfl,hdata⟩,hen.trans henable,hregs,rfl,rfl⟩)
  have hclose := device_close rom _ hreading.selected (.inl rfl)
  exact ⟨hx,hclose.2.2.trans hreading.regs⟩

end Transfers

section PortUse

/-- The library only ever makes all three pins outputs, or all but SIO. -/
def Access.Driving : Access → Prop
  | .direction v => v = 5 ∨ v = 7
  | _ => True

theorem Segments.forall_mem {P : Access → Prop} {ps : List (List Access → Prop)} {t : List Access}
    (hps : ∀ p ∈ ps, ∀ a, p a → ∀ x ∈ a, P x) (h : Segments ps t) : ∀ x ∈ t, P x := by
  induction ps generalizing t with
  | nil =>
    have ht : t = [] := h
    simp [ht]
  | cons p ps ih =>
    obtain ⟨a,b,rfl,ha,hb⟩ := h
    intro x hx
    obtain hx | hx := List.mem_append.mp hx
    · exact hps p List.mem_cons_self a ha x hx
    · exact ih (fun q hq => hps q (List.mem_cons_of_mem p hq)) hb x hx

theorem IsPulse.driving {b : Bool} {t : List Access} (h : IsPulse b t) : ∀ x ∈ t, x.Driving := by
  obtain ⟨k,rfl⟩ := h
  intro x hx
  simp only [List.mem_append,List.mem_replicate,List.mem_singleton] at hx
  obtain ⟨-,rfl⟩ | rfl := hx <;> trivial

theorem IsSample.driving {t : List Access} (h : IsSample t) : ∀ x ∈ t, x.Driving := by
  obtain ⟨k,v,rfl⟩ := h
  intro x hx
  simp only [List.mem_append,List.mem_replicate,List.mem_cons,List.not_mem_nil,or_false] at hx
  obtain ⟨-,rfl⟩ | rfl | rfl := hx <;> trivial

theorem IsSentByte.driving {v : Byte} {t : List Access} (h : IsSentByte v t) :
    ∀ x ∈ t, x.Driving := by
  refine Segments.forall_mem (fun p hp a ha => ?_) h
  obtain ⟨i,-,rfl⟩ := List.mem_map.mp hp
  exact IsPulse.driving ha

theorem IsReceivedByte.driving {t : List Access} (h : IsReceivedByte t) : ∀ x ∈ t, x.Driving := by
  refine Segments.forall_mem (fun p hp a ha => ?_) h
  rw [List.eq_of_mem_replicate hp] at ha
  exact IsSample.driving ha

theorem IsBody.driving {c : Byte} {t : List Access} (h : IsBody c t) : ∀ x ∈ t, x.Driving := by
  unfold IsBody at h
  split at h
  · obtain ⟨n,hseg⟩ := h
    refine Segments.forall_mem (fun p hp a ha => ?_) hseg
    obtain rfl | hp := List.mem_cons.mp hp
    · have ha : a = [.direction 5] := ha
      simp [ha,Access.Driving]
    · rw [List.eq_of_mem_replicate hp] at ha
      exact IsReceivedByte.driving ha
  · obtain ⟨vs,hseg⟩ := h
    refine Segments.forall_mem (fun p hp a ha => ?_) hseg
    obtain ⟨v,-,rfl⟩ := List.mem_map.mp hp
    exact IsSentByte.driving ha

theorem IsTransaction.driving {t : List Access} (h : IsTransaction t) : ∀ x ∈ t, x.Driving := by
  obtain ⟨c,hseg⟩ := h
  refine Segments.forall_mem (fun p hp a ha => ?_) hseg
  simp only [List.mem_cons,List.not_mem_nil,or_false] at hp
  obtain rfl | rfl | rfl | rfl := hp
  · have ha : a = [.data 1,.data 5,.direction 7] := ha
    simp [ha,Access.Driving]
  · refine Segments.forall_mem (fun q hq a ha => ?_) ha
    obtain ⟨i,-,rfl⟩ := List.mem_map.mp hq
    exact IsPulse.driving ha
  · exact IsBody.driving ha
  · have ha : a = [.data 1,.data 1] := ha
    simp [ha,Access.Driving]

theorem Framed.driving {t : List Access} (h : Framed t) : ∀ x ∈ t, x.Driving := by
  obtain ⟨ts,rfl,hts⟩ := h
  intro x hx
  obtain ⟨t,ht,hx⟩ := List.mem_flatten.mp hx
  exact (hts t ht).driving x hx

/-- Accesses of the library keep the port steady and its read enable as it is. -/
theorem steady_accesses (rom : Half) {t : List Access} (ht : ∀ x ∈ t, x.Driving) {b : Board}
    (h : Steady b) : Steady (t.foldl (board rom).access b) ∧
      (t.foldl (board rom).access b).readEnable = b.readEnable := by
  induction t generalizing b with
  | nil => exact ⟨h,rfl⟩
  | cons x t ih =>
    have hx := ht x List.mem_cons_self
    have hstep : Steady ((board rom).access b x) ∧
        ((board rom).access b x).readEnable = b.readEnable := by
      cases x with
      | data v => exact ⟨h,rfl⟩
      | direction v => exact ⟨.inr hx,rfl⟩
      | read v => exact ⟨h,rfl⟩
    obtain ⟨hsteady,hen⟩ := ih (fun y hy => ht y (List.mem_cons_of_mem x hy)) hstep.1
    exact ⟨hsteady,hen.trans hstep.2⟩

/-- The library is unprotected: calls go through to the chip. -/
structure Ready (s : Rtc Board) : Prop where
  unlocked : s.locked = false
  enable : s.device.readEnable = 1
  steady : Steady s.device

variable {rom : Half} {u : Locals Board} {s s' : Rtc Board}

theorem Ready.completes (h : Ready s) (hc : Completes (board rom) s s') : Ready s' := by
  obtain ⟨hl,t,-,hdev,hframed⟩ := hc
  obtain ⟨hsteady,hen⟩ := steady_accesses rom hframed.driving h.steady
  exact ⟨hl,by rw [hdev,hen,h.enable],by rw [hdev]; exact hsteady⟩

theorem Ready.step (h : Ready s) (c : Call) (hc : c ≠ .protect) : Ready (step (board rom) u s c) := by
  by_cases hc' : c = .unprotect
  · subst hc'
    exact ⟨rfl,rfl,h.steady⟩
  · exact h.completes (completes_call h.unlocked c hc hc')

theorem steady_step (s : Rtc Board) (c : Call) (h : Steady s.device) :
    Steady (SiiRtc.step (board rom) u s c).device := by
  by_cases hc : c = .protect
  · subst hc
    exact h
  · by_cases hc' : c = .unprotect
    · subst hc'
      exact h
    · by_cases hl : s.locked = true
      · rw [step_of_locked hl c hc hc']
        exact h
      · obtain ⟨-,t,-,hdev,hframed⟩ :=
          completes_call (d := board rom) (u := u) (by simpa using hl) c hc hc'
        rw [hdev]
        exact (steady_accesses rom hframed.driving h).1

/-- After `SiiRtcUnprotect` the library stays ready until it is protected again. -/
theorem ready_run (rom : Half) (u : Locals Board) {s : Rtc Board} (h : Steady s.device)
    (cs cs' : List Call) (hcs : ∀ c ∈ cs', c ≠ .protect) :
    Ready (Runs.run (SiiRtc.step (board rom) u) s (cs ++ .unprotect :: cs')) := by
  have hsteady : Steady (Runs.run (SiiRtc.step (board rom) u) s cs).device :=
    @Runs.run_invariant _ _ (SiiRtc.step (board rom) u) (fun s => Steady s.device) steady_step s h cs
  have hready : ∀ (cs : List Call) (s : Rtc Board), Ready s → (∀ c ∈ cs, c ≠ .protect) →
      Ready (Runs.run (SiiRtc.step (board rom) u) s cs) := by
    intro cs
    induction cs with
    | nil => exact fun s hs _ => hs
    | cons c cs ih =>
      intro s hs hall
      exact ih _ (hs.step c (hall c List.mem_cons_self))
        fun c' hc' => hall c' (List.mem_cons_of_mem c hc')
  rw [Runs.run_append,Runs.run_cons]
  exact hready cs' _ ⟨rfl,rfl,hsteady⟩ hcs

end PortUse

section RoundTrip
variable (rom : Half) (u : Locals Board) {s : Rtc Board}

theorem unlessLocked_ready (h : Ready s) (info : SiiRtcInfo)
    (f : Rtc Board → SiiRtcInfo × Rtc Board) : unlessLocked info s f = ⟨1,(f s).1,(f s).2⟩ :=
  if_neg (by simp [h.unlocked])

section Decode
variable (c : Chip)

theorem decode_writeDatetime : c.decode (cmdDatetime ||| wr) =
    { c with phase := .writing 0 7, count := 0 } := rfl

theorem decode_readDatetime : c.decode (cmdDatetime ||| rd) =
    { c with phase := .reading 0 7, count := 0 } := rfl

theorem decode_writeTime : c.decode (cmdTime ||| wr) =
    { c with phase := .writing 4 3, count := 0 } := rfl

theorem decode_readTime : c.decode (cmdTime ||| rd) =
    { c with phase := .reading 4 3, count := 0 } := rfl

theorem decode_writeStatus : c.decode (cmdStatus ||| wr) =
    { c with phase := .writing 7 1, count := 0 } := rfl

theorem decode_readStatus : c.decode (cmdStatus ||| rd) =
    { c with phase := .reading 7 1, count := 0 } := rfl

end Decode

theorem regs_setDateTime (h : Ready s) (info : SiiRtcInfo) :
    (siiRtcSetDateTime (board rom) info s).state.device.chip.regs =
      CellMemory.write s.device.chip.regs 0 ((List.range 7).map fun i => info.buf (0+i)) := by
  simp only [siiRtcSetDateTime,unlessLocked_ready h]
  refine transfer_write rom _ decode_writeDatetime h.steady fun s' hs' => ?_
  exact ⟨_,_,hs'.writeBuf rom info 0 7 0⟩

theorem regs_setTime (h : Ready s) (info : SiiRtcInfo) :
    (siiRtcSetTime (board rom) info s).state.device.chip.regs =
      CellMemory.write s.device.chip.regs 4 ((List.range 3).map fun i => info.buf (4+i)) := by
  simp only [siiRtcSetTime,unlessLocked_ready h]
  refine transfer_write rom _ decode_writeTime h.steady fun s' hs' => ?_
  exact ⟨_,_,hs'.writeBuf rom info 4 3 0⟩

theorem regs_setStatus (h : Ready s) (info : SiiRtcInfo) :
    (siiRtcSetStatus (board rom) info s).state.device.chip.regs =
      Function.update s.device.chip.regs 7 (statusToChip info.status) := by
  simp only [siiRtcSetStatus,unlessLocked_ready h]
  refine transfer_write rom _ decode_writeStatus h.steady fun s' hs' => ?_
  exact ⟨_,_,hs'.writeData rom _⟩

theorem info_getDateTime (h : Ready s) (info : SiiRtcInfo) :
    (siiRtcGetDateTime (board rom) u info s).info = maskHour ((List.range 7).foldl
      (fun info i => info.setBuf (s.device.chip.regs (0+i)) (0+i)) info) := by
  simp only [siiRtcGetDateTime,unlessLocked_ready h]
  refine (transfer_read rom _ decode_readDatetime h.steady h.enable fun s' hs' => ?_).1
  obtain ⟨hinfo,hdev⟩ := hs'.readBuf rom u 0 7 0 info
  exact ⟨congrArg maskHour hinfo,_,_,hdev⟩

theorem info_getTime (h : Ready s) (info : SiiRtcInfo) :
    (siiRtcGetTime (board rom) u info s).info = maskHour ((List.range 3).foldl
      (fun info i => info.setBuf (s.device.chip.regs (4+i)) (4+i)) info) := by
  simp only [siiRtcGetTime,unlessLocked_ready h]
  refine (transfer_read rom _ decode_readTime h.steady h.enable fun s' hs' => ?_).1
  obtain ⟨hinfo,hdev⟩ := hs'.readBuf rom u 4 3 0 info
  exact ⟨congrArg maskHour hinfo,_,_,hdev⟩

theorem info_getStatus (h : Ready s) (info : SiiRtcInfo) :
    (siiRtcGetStatus (board rom) u info s).info =
      { info with status := statusOfChip (s.device.chip.regs 7) } := by
  simp only [siiRtcGetStatus,unlessLocked_ready h]
  refine (transfer_read rom _ decode_readStatus h.steady h.enable fun s' hs' => ?_).1
  obtain ⟨hval,hdev⟩ := hs'.readData rom u
  exact ⟨by rw [hval],_,_,hdev⟩

theorem statusOfChip_statusToChip (status : Byte) :
    statusOfChip (statusToChip status) = 0x40 ||| (status &&& 7) := by
  revert status
  decide +kernel

variable {rom u} {info info' : SiiRtcInfo}

/-- Reading back what a loop has stored copies the bytes of the structure. -/
theorem setBufs_of_write (regs : ℕ → Byte) (offset n : ℕ) :
    (List.range n).foldl (fun x i => x.setBuf (CellMemory.write regs offset
        ((List.range n).map fun i => info.buf (offset+i)) (offset+i)) (offset+i)) info' =
      (List.range n).foldl (fun x i => x.setBuf (info.buf (offset+i)) (offset+i)) info' := by
  refine List.foldl_ext _ _ _ fun x i hi => ?_
  have hlen : i < ((List.range n).map fun i => info.buf (offset+i)).length := by
    simpa using hi
  rw [CellMemory.write_inside _ _ _ i hlen]
  simp

theorem round_trip_dateTime (h : Ready s) :
    (siiRtcGetDateTime (board rom) u info' (siiRtcSetDateTime (board rom) info s).state).info =
      { info' with year := info.year, month := info.month, day := info.day,
                   dayOfWeek := info.dayOfWeek, hour := info.hour &&& 0x7F,
                   minute := info.minute, second := info.second } := by
  have hset := h.completes (completes_setDateTime (d := board rom) h.unlocked info).2
  rw [info_getDateTime rom u hset,regs_setDateTime rom h,setBufs_of_write]
  simp [List.range_succ,SiiRtcInfo.setBuf,SiiRtcInfo.buf,maskHour,offsetHour]

theorem round_trip_time (h : Ready s) :
    (siiRtcGetTime (board rom) u info' (siiRtcSetTime (board rom) info s).state).info =
      { info' with hour := info.hour &&& 0x7F, minute := info.minute, second := info.second } := by
  have hset := h.completes (completes_setTime (d := board rom) h.unlocked info).2
  rw [info_getTime rom u hset,regs_setTime rom h,setBufs_of_write]
  simp [List.range_succ,SiiRtcInfo.setBuf,SiiRtcInfo.buf,maskHour,offsetHour]

theorem round_trip_status (h : Ready s) :
    (siiRtcGetStatus (board rom) u info' (siiRtcSetStatus (board rom) info s).state).info =
      { info' with status := 0x40 ||| (info.status &&& 7) } := by
  have hset := h.completes (completes_setStatus (d := board rom) h.unlocked info).2
  rw [info_getStatus rom u hset,regs_setStatus rom h,Function.update_self,
    statusOfChip_statusToChip]

/-- From power-on, after any calls the last of which to (un)protect the library is
`SiiRtcUnprotect`: what is set comes back, the hour without its AM/PM flag; the time is set
without touching the date registers; the status comes back with its interrupt enables and in
24-hour mode. -/
theorem set_get_round_trip (rom : Half) (u : Locals Board) (locked : Bool) (data readEnable : Half)
    (chip : Chip) (cs cs' : List Call) (hcs : ∀ c ∈ cs', c ≠ .protect) (info info' : SiiRtcInfo) :
    let d := board rom
    let s := Runs.run (step d u) ⟨locked,⟨data,0,readEnable,chip⟩,[]⟩ (cs ++ .unprotect :: cs')
    (let a := siiRtcSetDateTime d info s
      let b := siiRtcGetDateTime d u info' a.state
      a.result = 1 ∧ b.result = 1 ∧
        b.info = { info' with year := info.year, month := info.month, day := info.day,
                              dayOfWeek := info.dayOfWeek, hour := info.hour &&& 0x7F,
                              minute := info.minute, second := info.second }) ∧
    (let a := siiRtcSetTime d info s
      let b := siiRtcGetTime d u info' a.state
      a.result = 1 ∧ b.result = 1 ∧
        b.info = { info' with hour := info.hour &&& 0x7F, minute := info.minute,
                              second := info.second } ∧
        ∀ j < 4, a.state.device.chip.regs j = s.device.chip.regs j) ∧
    (let a := siiRtcSetStatus d info s
      let b := siiRtcGetStatus d u info' a.state
      a.result = 1 ∧ b.result = 1 ∧
        b.info = { info' with status := 0x40 ||| (info.status &&& 7) }) := by
  intro d s
  have hready : Ready s := ready_run rom u (.inl rfl) cs cs' hcs
  have hdate := completes_setDateTime (d := d) hready.unlocked info
  have htime := completes_setTime (d := d) hready.unlocked info
  have hstatus := completes_setStatus (d := d) hready.unlocked info
  refine ⟨⟨hdate.1,?_,round_trip_dateTime hready⟩,⟨htime.1,?_,round_trip_time hready,?_⟩,
    ⟨hstatus.1,?_,round_trip_status hready⟩⟩
  · exact (completes_getDateTime hdate.2.1 info').1
  · exact (completes_getTime htime.2.1 info').1
  · intro j hj
    rw [regs_setTime rom hready]
    exact CellMemory.write_outside _ (.inl hj)
  · exact (completes_getStatus hstatus.2.1 info').1

/-- A clock set to 23:59:30 on a chip that has never been used. -/
theorem set_get_round_trip_midnight :
    let rom : Half := 0
    let u : Locals Board := ⟨fun _ => 0xFF,fun _ => ⟨0,0,0,0,0,0,0,0,0,0⟩⟩
    let info : SiiRtcInfo := ⟨0x99,0x12,0x31,5,0xA3,0x59,0x30,0,0,0⟩
    let s := Runs.run (step (board rom) u) ⟨false,⟨0,0,0,⟨fun _ => 0,.idle,0,0,false⟩⟩,[]⟩
      ([.protect] ++ .unprotect :: [.probe])
    let a := siiRtcSetDateTime (board rom) info s
    (siiRtcGetDateTime (board rom) u info a.state).info = { info with hour := 0x23 } :=
  (set_get_round_trip 0 ⟨fun _ => 0xFF,fun _ => ⟨0,0,0,0,0,0,0,0,0,0⟩⟩ false 0 0
    ⟨fun _ => 0,.idle,0,0,false⟩ [.protect] [.probe] (by decide)
    ⟨0x99,0x12,0x31,5,0xA3,0x59,0x30,0,0,0⟩ ⟨0x99,0x12,0x31,5,0xA3,0x59,0x30,0,0,0⟩).1.2.2

end RoundTrip

end SiiRtc
end AgbTools
