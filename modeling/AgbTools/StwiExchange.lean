import AgbTools.Stwi

/-! One command exchange without a time-out: the words of the request leave on the serial port in their
order, the words of the answer end up in the receive packet, and the exchange finishes once. -/
namespace AgbTools
namespace Stwi

open Runs

section Port

/-- The word on the serial port while a transfer is under way. -/
def portWord (s : Driver) : List Word := if s.busy then [s.sioData] else []

/-- The words put on the port in a run, one for each transfer it starts. -/
def port (s : Driver) (es : List Event) : List Word := trace step (fun s e => portWord (step s e)) s es

/-- What a word the adapter sends in time does. -/
def received (w : Word) : Event := .serial w .reached .reached

/-- A request, the words the adapter sends while it is taken, and its answer. -/
def exchange (r : Request) (header : Word) (data : List Word) : List Event :=
  .request true r::((List.replicate (r.params.length+1) (0x80000000 : Word) ++ header::data).map received)

/-- Notes that an exchange has ended, and calls of the master's callback. -/
def isOutcome : Note → Bool
  | .settled | .callM .. => true
  | _ => false

def outcomes (s : Driver) : List Note := s.notes.filter isOutcome

end Port

section Online
variable {s t : Driver} {command : BitVec 8} {callback : Bool} {before : List Note} {w : Word}

/-- A command that has been sent and has no outcome yet. -/
structure Pending (command : BitVec 8) (callback : Bool) (before : List Note) (s : Driver) : Prop where
  mode : s.msMode = 1
  timer : s.timerActive = 0
  flag : s.unk2c = 1
  command : s.activeCommand = command
  code : s.unk12 = 0
  callback : s.callbackM = callback
  outcomes : outcomes s = before

/-- A transfer of such a command is under way. -/
structure Online (command : BitVec 8) (callback : Bool) (before : List Note) (s : Driver) : Prop
    extends Pending command callback before s where
  busy : s.busy = true

/-- The state in which the handler looks at a word. -/
def looking (s : Driver) : Driver := { s with sioCnt := s.sioCnt &&& ~~~0x80, timerState := 2 }

/-- A word that fits and is followed by the adapter's handshake. -/
theorem step_received (h : Online command callback before s) (hstate : s.unk0 ≠ 10)
    (hrecv : masterReceive (looking s) w = some t) (htimer : t.timerActive = 0) :
    step s (received w) = if t.unk0 = 3 then masterFinish { t with sioCnt := 0x500B, timerState := 0 }
      else { t with sioCnt := 0x5083, timerState := 0 } := by
  have hwait : ∀ u : Driver, u.timerActive = 0 → handshakeWait u .reached = (u,false) := by
    intro u hu
    rw [handshakeWait,if_neg (by rw [hu]; decide)]
  show (if s.busy then intrSIO32 s w .reached .reached else s) = _
  rw [if_pos h.busy,intrSIO32]
  dsimp only
  rw [if_neg hstate,if_pos h.mode,clockMaster]
  dsimp only
  have hlook : masterReceive (setTimer { s with sioCnt := s.sioCnt &&& ~~~0x80 } .t80) w = some t :=
    hrecv
  rw [hlook]
  dsimp only
  rw [hwait t htimer]
  dsimp only
  rw [if_neg Bool.false_ne_true,hwait { t with sioCnt := 0x500B } htimer]
  rfl

/-- The next transfer is started with the command still pending. -/
theorem Pending.keep (h : Pending command callback before s) (hmode : t.msMode = s.msMode)
    (htimer : t.timerActive = s.timerActive) (hflag : t.unk2c = s.unk2c)
    (hcommand : t.activeCommand = s.activeCommand) (hcode : t.unk12 = s.unk12)
    (hcallback : t.callbackM = s.callbackM) (houtcomes : Stwi.outcomes t = Stwi.outcomes s) :
    Online command callback before { t with sioCnt := 0x5083, timerState := 0 } where
  mode := hmode.trans h.mode
  timer := htimer.trans h.timer
  flag := hflag.trans h.flag
  command := hcommand.trans h.command
  code := hcode.trans h.code
  callback := hcallback.trans h.callback
  outcomes := houtcomes.trans h.outcomes
  busy := show (0x5083 : BitVec 16).getLsbD 7 = true by decide

theorem Online.portWord (h : Online command callback before s) : Stwi.portWord s = [s.sioData] := if_pos h.busy

end Online

section Sending
variable {s : Driver} {command : BitVec 8} {callback : Bool} {before : List Note} {words : List Word} {k : ℕ}

/-- `k` parameters have been put on the port. -/
structure Sending (command : BitVec 8) (callback : Bool) (before : List Note) (words : List Word) (k : ℕ)
    (s : Driver) : Prop extends Online command callback before s where
  state : s.unk0 = 0
  sent : s.unk5.toNat = k+1
  count : s.txParams.toNat = words.length
  packet : ∀ i (h : i < words.length), s.txPacket (i+1) = words[i]

/-- The next parameter goes out. -/
theorem Sending.next (h : Sending command callback before words k s) (hwords : words.length ≤ 28)
    (hk : k < words.length) :
    Sending command callback before words (k+1) (step s (received 0x80000000)) ∧
      portWord (step s (received 0x80000000)) = [words[k]] := by
  have hsent := h.sent
  have hcount := h.count
  have hle : s.unk5 ≤ s.txParams := by
    rw [BitVec.le_def]
    omega
  have hrecv : masterReceive (looking s) 0x80000000 =
      some (note { looking s with sioData := s.txPacket s.unk5.toNat, unk5 := s.unk5 + 1 }
        (.txLoad s.unk5.toNat)) := by
    have hstate : (looking s).unk0 = 0 := h.state
    rw [masterReceive,if_pos hstate,masterSend,if_neg (by decide)]
    exact if_pos hle
  have hstep := step_received h.toOnline (by rw [h.state]; decide) hrecv h.timer
  rw [if_neg (by show ¬ s.unk0 = 3; rw [h.state]; decide)] at hstep
  have hadd : (s.unk5 + 1).toNat = k+2 := by
    rw [BitVec.toNat_add,hsent]
    show (k+1+1) % 256 = k+2
    omega
  rw [hstep]
  have honline := h.toOnline.keep (t := note { looking s with
    sioData := s.txPacket s.unk5.toNat, unk5 := s.unk5 + 1 } (.txLoad s.unk5.toNat)) rfl rfl rfl rfl rfl rfl rfl
  refine ⟨⟨honline,h.state,hadd,h.count,h.packet⟩,?_⟩
  rw [honline.portWord]
  show [s.txPacket s.unk5.toNat] = _
  rw [hsent,h.packet k hk]

/-- All parameters are out: the handler waits for the answer. -/
theorem Sending.last (h : Sending command callback before words words.length s) :
    Online command callback before (step s (received 0x80000000)) ∧
      (step s (received 0x80000000)).unk0 = 1 ∧ portWord (step s (received 0x80000000)) = [0x80000000] := by
  have hsent := h.sent
  have hcount := h.count
  have hlt : ¬ s.unk5 ≤ s.txParams := by
    rw [BitVec.le_def]
    omega
  have hrecv : masterReceive (looking s) 0x80000000 =
      some { looking s with unk0 := 1, sioData := 0x80000000 } := by
    have hstate : (looking s).unk0 = 0 := h.state
    rw [masterReceive,if_pos hstate,masterSend,if_neg (by decide)]
    exact if_neg hlt
  have hstep := step_received h.toOnline (by rw [h.state]; decide) hrecv h.timer
  rw [if_neg (show ¬ (1 : Word) = 3 by decide)] at hstep
  rw [hstep]
  have honline := h.toOnline.keep (t := { looking s with unk0 := 1, sioData := 0x80000000 })
    rfl rfl rfl rfl rfl rfl rfl
  exact ⟨honline,rfl,honline.portWord⟩

end Sending

section Reading
variable {s : Driver} {command : BitVec 8} {callback : Bool} {before : List Note} {header : Word} {data : List Word}
  {j : ℕ}

/-- The header and `j` words of the answer are in the receive packet. -/
structure Stored (header : Word) (data : List Word) (j : ℕ) (s : Driver) : Prop where
  first : s.rxPacket 0 = header
  rest : ∀ i (h : i < data.length), i < j → s.rxPacket (i+1) = data[i]

structure Answering (command : BitVec 8) (callback : Bool) (before : List Note) (header : Word) (data : List Word)
    (j : ℕ) (s : Driver) : Prop extends Online command callback before s, Stored header data j s where
  state : s.unk0 = 2
  index : s.unk8.toNat = j+1
  length : s.unk7.toNat = data.length
  answer : s.unk9 = header.extractLsb' 0 8

/-- The clock changes its direction with this answer. -/
def handsOver (header : Word) : Prop :=
  header.extractLsb' 0 8 = 0xA5 ∨ header.extractLsb' 0 8 = 0xA7 ∨ header.extractLsb' 0 8 = 0xB5 ∨
    header.extractLsb' 0 8 = 0xB7

instance (header : Word) : Decidable (handsOver header) := inferInstanceAs (Decidable (_ ∨ _ ∨ _ ∨ _))

/-- The error code an answer stands for. -/
def answerCode (header : Word) : BitVec 16 :=
  if handsOver header then 0 else if header.extractLsb' 0 8 = 0xEE then 3 else 0

/-- The end of an exchange. -/
structure Finished (command : BitVec 8) (callback : Bool) (before : List Note) (header : Word) (data : List Word)
    (s : Driver) : Prop extends Stored header data data.length s where
  state : s.unk0 = if handsOver header then 5 else 4
  flag : s.unk2c = 0
  outcomes : outcomes s =
    if callback then .callM .outcome command (answerCode header)::.settled::before else .settled::before
  port : portWord s = if handsOver header then [0x80000000] else []

/-- The end is noted, and the callback called if there is one. -/
theorem callM_settled (u : Driver) : ∃ notes,
    callM (note { u with unk2c := 0 } .settled) .outcome u.activeCommand u.unk12 =
      { u with unk2c := 0, notes := notes } ∧ notes.filter isOutcome =
        if u.callbackM then .callM .outcome u.activeCommand u.unk12::.settled::outcomes u
        else .settled::outcomes u := by
  unfold callM note
  dsimp only
  by_cases hcallback : u.callbackM
  · rw [if_pos hcallback,if_pos hcallback]
    exact ⟨_,rfl,rfl⟩
  · rw [if_neg hcallback,if_neg hcallback]
    exact ⟨_,rfl,rfl⟩

theorem masterFinish_spec (h : Pending command callback before s) (hstored : Stored header data data.length s)
    (hanswer : s.unk9 = header.extractLsb' 0 8) :
    Finished command callback before header data (masterFinish { s with sioCnt := 0x500B, timerState := 0 }) := by
  unfold masterFinish
  dsimp only
  have hsame : (s.unk9 = 0xA5 ∨ s.unk9 = 0xA7 ∨ s.unk9 = 0xB5 ∨ s.unk9 = 0xB7) = handsOver header := by
    rw [hanswer]
    rfl
  by_cases hover : s.unk9 = 0xA5 ∨ s.unk9 = 0xA7 ∨ s.unk9 = 0xB5 ∨ s.unk9 = 0xB7
  · have hover' : handsOver header := by rwa [hsame] at hover
    rw [if_pos hover]
    obtain ⟨notes,heq,hnotes⟩ := callM_settled { s with
      msMode := 0, sioData := 0x80000000, sioCnt := 0x5082, unk0 := 5, timerState := 0 }
    dsimp only at heq
    rw [heq]
    refine ⟨⟨hstored.first,hstored.rest⟩,(if_pos hover').symm,rfl,?_,?_⟩
    · rw [answerCode,if_pos hover',← h.code,← h.command,← h.outcomes,← h.callback]
      exact hnotes
    · rw [if_pos hover']
      exact if_pos (show (0x5082 : BitVec 16).getLsbD 7 = true by decide)
  · have hover' : ¬ handsOver header := by rwa [hsame] at hover
    have hidle : (0x5003 : BitVec 16).getLsbD 7 ≠ true := by decide
    rw [if_neg hover]
    by_cases herror : s.unk9 = 0xEE
    · rw [if_pos herror]
      obtain ⟨notes,heq,hnotes⟩ := callM_settled { s with
        sioCnt := 0x5003, unk0 := 4, unk12 := 3, timerState := 0 }
      dsimp only at heq
      rw [heq]
      refine ⟨⟨hstored.first,hstored.rest⟩,(if_neg hover').symm,rfl,?_,?_⟩
      · rw [answerCode,if_neg hover',← hanswer,if_pos herror,← h.command,← h.outcomes,← h.callback]
        exact hnotes
      · rw [if_neg hover']
        exact if_neg hidle
    · rw [if_neg herror]
      obtain ⟨notes,heq,hnotes⟩ := callM_settled { s with sioCnt := 0x5003, unk0 := 4, timerState := 0 }
      dsimp only at heq
      rw [heq]
      refine ⟨⟨hstored.first,hstored.rest⟩,(if_neg hover').symm,rfl,?_,?_⟩
      · rw [answerCode,if_neg hover',← hanswer,if_neg herror,← h.code,← h.command,← h.outcomes,← h.callback]
        exact hnotes
      · rw [if_neg hover']
        exact if_neg hidle

/-- Behind a stored word the handler reads on or finishes. -/
theorem continue_spec {t : Driver} (h : Pending command callback before t) (hstored : Stored header data j t)
    (hj : j ≤ data.length) (hindex : t.unk8.toNat = j+1) (hlength : t.unk7.toNat = data.length)
    (hanswer : t.unk9 = header.extractLsb' 0 8) (s' : Driver)
    (hs' : s' = if (masterContinue t).unk0 = 3 then
        masterFinish { masterContinue t with sioCnt := 0x500B, timerState := 0 }
      else { masterContinue t with sioCnt := 0x5083, timerState := 0 }) :
    (j = data.length → Finished command callback before header data s') ∧
      (j < data.length → Answering command callback before header data j s' ∧ portWord s' = [0x80000000]) := by
  subst hs'
  have hlt : t.unk7 < t.unk8 ↔ j = data.length := by
    rw [BitVec.lt_def]
    omega
  unfold masterContinue
  constructor
  · intro hend
    rw [if_pos (hlt.mpr hend)]
    have honline : Pending command callback before (complete { t with unk0 := 3 }) :=
      ⟨h.mode,h.timer,h.flag,h.command,h.code,h.callback,h.outcomes⟩
    rw [if_pos (show (complete { t with unk0 := 3 }).unk0 = 3 from rfl)]
    exact masterFinish_spec honline ⟨hstored.first,fun i hi hlt => hstored.rest i hi (by omega)⟩ hanswer
  · intro hmore
    rw [if_neg (fun hend => absurd (hlt.mp hend) (by omega))]
    rw [if_neg (show ¬ (2 : Word) = 3 by decide)]
    have honline := h.keep (t := { t with unk0 := 2, sioData := 0x80000000 }) rfl rfl rfl rfl rfl rfl rfl
    exact ⟨⟨honline,⟨hstored.first,hstored.rest⟩,rfl,hindex,hlength,hanswer⟩,honline.portWord⟩

theorem masterContinue_timer (u : Driver) : (masterContinue u).timerActive = u.timerActive := by
  unfold masterContinue
  split_ifs
  · rfl
  · rfl

/-- The header of the answer arrives. -/
theorem header_spec (h : Online command callback before s) (hstate : s.unk0 = 1)
    (hheader : header.extractLsb' 16 16 = 0x9966) (hlength : (header.extractLsb' 8 8).toNat = data.length) :
    (0 = data.length → Finished command callback before header data (step s (received header))) ∧
      (0 < data.length → Answering command callback before header data 0 (step s (received header)) ∧
        portWord (step s (received header)) = [0x80000000]) := by
  have hrecv : masterReceive (looking s) header = some (masterContinue { storeHeader (looking s) header with
      unk8 := 1, unk9 := header.extractLsb' 0 8, unk7 := header.extractLsb' 8 8 }) := by
    have hnot : ¬ (looking s).unk0 = 0 := by show ¬ s.unk0 = 0; rw [hstate]; decide
    have hone : (looking s).unk0 = 1 := hstate
    rw [masterReceive,if_neg hnot,if_pos hone,masterHeader,if_neg (not_not.mpr hheader)]
  have hstep := step_received h (by rw [hstate]; decide) hrecv ((masterContinue_timer _).trans h.timer)
  have hpending : Pending command callback before { storeHeader (looking s) header with
      unk8 := 1, unk9 := header.extractLsb' 0 8, unk7 := header.extractLsb' 8 8 } :=
    ⟨h.mode,h.timer,h.flag,h.command,h.code,h.callback,h.outcomes⟩
  have hfirst : Stored header data 0 { storeHeader (looking s) header with
      unk8 := 1, unk9 := header.extractLsb' 0 8, unk7 := header.extractLsb' 8 8 } := by
    refine ⟨?_,fun i _ hi => absurd hi (Nat.not_lt_zero i)⟩
    show Function.update s.rxPacket 0 header 0 = header
    exact Function.update_self _ _ _
  exact continue_spec hpending hfirst (Nat.zero_le _) rfl hlength rfl _ hstep

/-- A further word of the answer arrives. -/
theorem Answering.next (h : Answering command callback before header data j s) (hdata : data.length ≤ 28)
    (hj : j < data.length) :
    (j+1 = data.length → Finished command callback before header data (step s (received data[j]))) ∧
      (j+1 < data.length → Answering command callback before header data (j+1) (step s (received data[j])) ∧
        portWord (step s (received data[j])) = [0x80000000]) := by
  have hindex := h.index
  have hrecv : masterReceive (looking s) data[j] = some (masterContinue { storeRx (looking s) s.unk8 data[j] with
      unk8 := s.unk8 + 1 }) := by
    have hzero : ¬ (looking s).unk0 = 0 := by show ¬ s.unk0 = 0; rw [h.state]; decide
    have hone : ¬ (looking s).unk0 = 1 := by show ¬ s.unk0 = 1; rw [h.state]; decide
    have htwo : (looking s).unk0 = 2 := h.state
    rw [masterReceive,if_neg hzero,if_neg hone,if_pos htwo]
    rfl
  have hstep := step_received h.toOnline (by rw [h.state]; decide) hrecv
    ((masterContinue_timer _).trans h.timer)
  have hpending : Pending command callback before { storeRx (looking s) s.unk8 data[j] with
      unk8 := s.unk8 + 1 } :=
    ⟨h.mode,h.timer,h.flag,h.command,h.code,h.callback,h.outcomes⟩
  have hstored : Stored header data (j+1) { storeRx (looking s) s.unk8 data[j] with unk8 := s.unk8 + 1 } := by
    refine ⟨?_,fun i hi hlt => ?_⟩
    · show Function.update s.rxPacket s.unk8.toNat data[j] 0 = header
      rw [Function.update_of_ne (by omega)]
      exact h.first
    · show Function.update s.rxPacket s.unk8.toNat data[j] (i+1) = data[i]
      rw [hindex]
      by_cases heq : i = j
      · subst heq
        exact Function.update_self _ _ _
      · rw [Function.update_of_ne (by omega)]
        exact h.rest i hi (by omega)
  have hnext : (s.unk8 + 1).toNat = j+1+1 := by
    rw [BitVec.toNat_add,hindex]
    show (j+1+1) % 256 = j+1+1
    omega
  exact continue_spec hpending hstored hj hnext h.length h.answer _ hstep

end Reading


section Runs
variable {s : Driver} {command : BitVec 8} {callback : Bool} {before : List Note} {words : List Word}
  {header : Word} {data : List Word}

/-- The words on the port behind the last word of the answer. -/
def lastPort (header : Word) : List Word := if handsOver header then [0x80000000] else []

theorem port_cons (s : Driver) (e : Event) (es : List Event) :
    port s (e::es) = portWord (step s e) ++ port (step s e) es := rfl

/-- The rest of an answer. -/
theorem Answering.run (m : ℕ) {j : ℕ} (h : Answering command callback before header data j s)
    (hdata : data.length ≤ 28) (hm : j+m+1 = data.length) :
    Finished command callback before header data (Runs.run step s ((data.drop j).map received)) ∧
      port s ((data.drop j).map received) = List.replicate m 0x80000000 ++ lastPort header := by
  have hj : j < data.length := by omega
  obtain ⟨hend,hmore⟩ := h.next hdata hj
  rw [List.drop_eq_getElem_cons hj,List.map_cons,run_cons,port_cons]
  induction m generalizing j s with
  | zero =>
    have hfinished := hend (by omega)
    rw [List.drop_eq_nil_of_le (by omega),List.map_nil,run_nil]
    exact ⟨hfinished,(List.append_nil _).trans hfinished.port⟩
  | succ m ih =>
    obtain ⟨hnext,hport⟩ := hmore (by omega)
    have hj' : j+1 < data.length := by omega
    obtain ⟨hend',hmore'⟩ := hnext.next hdata hj'
    obtain ⟨hfinished,hrest⟩ := ih hnext (by omega) hj' hend' hmore'
    rw [List.drop_eq_getElem_cons hj',List.map_cons,run_cons,port_cons,hport,hrest]
    exact ⟨hfinished,rfl⟩

/-- The answer as a whole. -/
theorem answer_run (h : Online command callback before s) (hstate : s.unk0 = 1)
    (hheader : header.extractLsb' 16 16 = 0x9966) (hlength : (header.extractLsb' 8 8).toNat = data.length)
    (hdata : data.length ≤ 28) :
    Finished command callback before header data (run step s ((header::data).map received)) ∧
      port s ((header::data).map received) = List.replicate data.length 0x80000000 ++ lastPort header := by
  obtain ⟨hend,hmore⟩ := header_spec h hstate hheader hlength
  rw [List.map_cons,run_cons,port_cons]
  by_cases hzero : 0 = data.length
  · have hfinished := hend hzero
    rw [List.eq_nil_of_length_eq_zero hzero.symm] at hfinished ⊢
    exact ⟨hfinished,(List.append_nil _).trans hfinished.port⟩
  · obtain ⟨hnext,hport⟩ := hmore (by omega)
    obtain ⟨hfinished,hrest⟩ := hnext.run (data.length-1) hdata (by omega)
    rw [List.drop_zero] at hfinished hrest
    refine ⟨hfinished,?_⟩
    rw [hport,hrest]
    obtain ⟨m,hm⟩ : ∃ m, data.length = m+1 := ⟨data.length-1,by omega⟩
    rw [hm]
    rfl

/-- The rest of a request, and its answer. -/
theorem Sending.run (m : ℕ) {k : ℕ} (h : Sending command callback before words k s) (hwords : words.length ≤ 28)
    (hm : k+m = words.length) (hheader : header.extractLsb' 16 16 = 0x9966)
    (hlength : (header.extractLsb' 8 8).toNat = data.length) (hdata : data.length ≤ 28) :
    Finished command callback before header data
        (Runs.run step s ((List.replicate (m+1) (0x80000000 : Word) ++ header::data).map received)) ∧
      port s ((List.replicate (m+1) (0x80000000 : Word) ++ header::data).map received) =
        words.drop k ++ List.replicate (data.length+1) 0x80000000 ++ lastPort header := by
  induction m generalizing k s with
  | zero =>
    obtain rfl : k = words.length := by omega
    obtain ⟨honline,hstate,hport⟩ := h.last
    obtain ⟨hfinished,hrest⟩ := answer_run honline hstate hheader hlength hdata
    refine ⟨hfinished,?_⟩
    rw [List.drop_eq_nil_of_le (Nat.le_refl _)]
    show portWord _ ++ port _ ((header::data).map received) = _
    rw [hport,hrest]
    rfl
  | succ m ih =>
    obtain ⟨hnext,hport⟩ := h.next hwords (by omega)
    obtain ⟨hfinished,hrest⟩ := ih hnext (by omega)
    refine ⟨hfinished,?_⟩
    rw [List.drop_eq_getElem_cons (by omega : k < words.length)]
    show portWord _ ++ port _ ((List.replicate (m+1) (0x80000000 : Word) ++ header::data).map received) = _
    rw [hport,hrest]
    rfl

/-- An accepted request is on its way. -/
theorem send_spec {r : Request} (hmode : s.msMode = 1) (hidle : s.unk2c ≠ 1) (hparams : r.params.length ≤ 28) :
    Sending r.command s.callbackM (outcomes s) r.params 0 (step s (.request true r)) ∧
      portWord (step s (.request true r)) =
        [0x99660000 ||| (BitVec.ofNat 8 r.params.length).setWidth 32 <<< 8 ||| r.command.setWidth 32] := by
  have hinit : init s true r.command = (note { s with
      unk2c := 1, activeCommand := r.command, unk0 := 0, txParams := 0, unk5 := 0
      unk7 := 0, unk8 := 0, unk9 := 0, timerState := 0, timerActive := 0
      unk12 := 0, unk15 := 0, sioCnt := 0x5003 } (.accepted r.command),false) := by
    rw [init,if_neg (by decide),if_neg hidle,if_neg (by rw [hmode]; decide)]
  have hbusy : (0x5083 : BitVec 16).getLsbD 7 = true := by decide
  show Sending _ _ _ _ _ (send s true r) ∧ portWord (send s true r) = _
  rw [send,hinit]
  refine ⟨⟨⟨⟨hmode,rfl,rfl,rfl,rfl,rfl,rfl⟩,hbusy⟩,rfl,rfl,?_,fun i hi => ?_⟩,if_pos hbusy⟩
  · show (BitVec.ofNat 8 r.params.length).toNat = _
    rw [BitVec.toNat_ofNat]
    omega
  · have hfill : fill s.txPacket r.params (i+1) = r.params[i] := by
      rw [fill,if_neg (Nat.succ_ne_zero i),Nat.add_sub_cancel,List.getD_eq_getElem?_getD,
        List.getElem?_eq_getElem hi,Option.getD_some]
    rw [← hfill]
    rfl

end Runs

/-- A command exchange. The words of the request leave in their order and are followed by fillers only;
the answer is in the receive packet; the exchange has ended once, with the busy flag clear. -/
theorem exchange_delivers {s : Driver} {r : Request} {header : Word} {data : List Word} (hmode : s.msMode = 1)
    (hidle : s.unk2c ≠ 1) (hparams : r.params.length ≤ 28) (hheader : header.extractLsb' 16 16 = 0x9966)
    (hlength : (header.extractLsb' 8 8).toNat = data.length) (hdata : data.length ≤ 28) :
    let s' := run step s (exchange r header data)
    let command : Word :=
      0x99660000 ||| (BitVec.ofNat 8 r.params.length).setWidth 32 <<< 8 ||| r.command.setWidth 32
    port s (exchange r header data) = command::r.params ++ List.replicate (data.length+1) 0x80000000 ++
        (if handsOver header then [0x80000000] else []) ∧
      s'.rxPacket 0 = header ∧ (∀ i (h : i < data.length), s'.rxPacket (i+1) = data[i]) ∧
      s'.unk0 = (if handsOver header then 5 else 4) ∧ s'.unk2c = 0 ∧
      outcomes s' = if s.callbackM then .callM .outcome r.command (answerCode header)::.settled::outcomes s
        else .settled::outcomes s := by
  intro s' command
  obtain ⟨hsending,hport⟩ := send_spec hmode hidle hparams
  obtain ⟨hfinished,hrest⟩ := hsending.run r.params.length hparams (Nat.zero_add _) hheader hlength hdata
  refine ⟨?_,hfinished.first,fun i hi => hfinished.rest i hi hi,hfinished.state,hfinished.flag,hfinished.outcomes⟩
  rw [exchange,port_cons,hport,hrest]
  rfl

/-- A connection request with one parameter, answered with two words. -/
theorem exchange_delivers_two :
    (initAll blank).msMode = 1 ∧
      port (initAll blank) (exchange (.cpStart 0x1234) 0x9966029F [1,2]) =
        [0x9966011F,0x1234,0x80000000,0x80000000,0x80000000] ∧
      (run step (initAll blank) (exchange (.cpStart 0x1234) 0x9966029F [1,2])).unk0 = 4 := by
  have hexchange := exchange_delivers (s := initAll blank) (r := .cpStart 0x1234) rfl (by decide) (by decide)
    (by decide : (0x9966029F : Word).extractLsb' 16 16 = 0x9966)
    (by decide : ((0x9966029F : Word).extractLsb' 8 8).toNat = ([1,2] : List Word).length) (by decide)
  exact ⟨rfl,hexchange.1,hexchange.2.2.2.1⟩

end Stwi
end AgbTools
