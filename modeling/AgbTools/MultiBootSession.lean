import Mathlib.Tactic
import AgbTools.MultiBootCipher
import AgbTools.MultiBootArea

/-! An image transfer in which interrupts also arrive while Main is running. Main is cut
into steps that touch the shared struct or the image once; the registers it holds between
two of them are part of its program counter. -/
namespace AgbTools
namespace MultiBoot

open Runs Transducer WordArray

/-- Where Main stands, with the registers that are live there. -/
inductive Pc
  | idle
  | entry | loadCounter2 | storeCounter2 (r1 : BitVec 8) | loadProgress | counter1
  | selectBranch
  | logoCur | logoBase (r1 : Word) | logoCmp (k : ℕ) (r2 : Word) | logoLast (r2 : Word)
  | logoStoreBase (r2 : Word) (matched : Bool)
  | setProgress | loadKeyA | loadKeyB (r1 : Word) | storeHash (r1 : Word) | storeKey (r1 : Word)
  | loadEnd | loadHash (r12 : Word) | loadBase (r12 r3 : Word) | loadKey (r12 r3 r4 : Word)
  | loop (r12 r3 r4 r6 : Word) | storeWord (r12 r3 r4 r6 plain : Word)
  | saveBase (r3 r4 r6 : Word) | saveKey (r3 r6 : Word) | saveHash (r3 : Word)
  | checkSize (r3 : Word) | endCur (r3 : Word) | endBase (r3 r1 : Word) | checkKeyC (r3 : Word)
  | genKeyC (r3 : Word) | storeKeyC (r3 r1 : Word) | storeDerivation (r3 : Word)
  | checkBootKey | bootHash | compareBootKey (r3 : Word) | setReady
  | init
  deriving DecidableEq, Repr

/-- One step of Main. It returns to `idle` and ends the session at `init`, the branch to
`GameCubeMultiBoot_Init`. The first counter is updated with interrupts disabled. -/
def mainStep (logo : ℕ → Word) (s : Machine) : Pc → Machine × Pc
  | .idle => (s,.idle)
  | .entry => (s,if s.serialIntrHandler = .null then .init else .loadCounter2)
  | .loadCounter2 => (s,.storeCounter2 (s.counter2 + 1))
  | .storeCounter2 r1 => ({ s with counter2 := r1 },.loadProgress)
  | .loadProgress => (s,if s.mbProgress = 2 then .idle else .counter1)
  | .counter1 =>
    if 0xA < s.counter1 then (s,.init)
    else ({ s with counter1 := s.counter1 + 1 },.selectBranch)
  | .selectBranch => (s,if s.mbProgress = 0 then .logoCur else .loadEnd)
  | .logoCur => (s,.logoBase s.curDestPtr)
  | .logoBase r1 =>
    (s,if r1 - s.baseDestPtr = 0 then .idle
      else if r1 - s.baseDestPtr < logoEnd then .idle
      else .logoCmp 0 (s.baseDestPtr + 4))
  | .logoCmp k r2 =>
    (s,if s.mem r2 ≠ logo k then .init
      else if k+1 = 38 then .logoLast (r2 + 4) else .logoCmp (k+1) (r2 + 4))
  | .logoLast r2 => (s,.logoStoreBase (r2 + 4) ((s.mem r2 ^^^ logo 38) >>> 8 == 0))
  | .logoStoreBase r2 matched =>
    ({ s with baseDestPtr := r2 },if matched then .setProgress else .init)
  | .setProgress => ({ s with mbProgress := 1 },.loadKeyA)
  | .loadKeyA => (s,.loadKeyB s.keyA)
  | .loadKeyB r1 => (s,.storeHash (r1 ^^^ s.keyB))
  | .storeHash r1 => ({ s with hashVal := r1 },.storeKey r1)
  | .storeKey r1 => ({ s with sessionKey := sessionKeyNext r1 },.idle)
  | .loadEnd => (s,.loadHash s.curDestPtr)
  | .loadHash r12 => (s,.loadBase r12 s.hashVal)
  | .loadBase r12 r3 => (s,.loadKey r12 r3 s.baseDestPtr)
  | .loadKey r12 r3 r4 => (s,.loop r12 r3 r4 s.sessionKey)
  | .loop r12 r3 r4 r6 =>
    (s,if r4 < r12 then .storeWord r12 r3 r4 r6 ((s.mem r4 ^^^ r6) + r3) else .saveBase r3 r4 r6)
  | .storeWord r12 r3 r4 r6 plain =>
    ({ s with mem := Function.update s.mem r4 plain, stores := s.stores ++ [.decrypted r4] },
      .loop r12 (hashLoop (r3 ^^^ plain)) (r4 + 4) (sessionKeyNext r6))
  | .saveBase r3 r4 r6 => ({ s with baseDestPtr := r4 },.saveKey r3 r6)
  | .saveKey r3 r6 => ({ s with sessionKey := r6 },.saveHash r3)
  | .saveHash r3 => ({ s with hashVal := r3 },.checkSize r3)
  | .checkSize r3 => (s,if s.imageSize ≠ 0 then .idle else .endCur r3)
  | .endCur r3 => (s,.endBase r3 s.curDestPtr)
  | .endBase r3 r1 => (s,if r1 ≠ s.baseDestPtr then .idle else .checkKeyC r3)
  | .checkKeyC r3 => (s,if s.keyC = 0 then .genKeyC r3 else .checkBootKey)
  | .genKeyC r3 => (s,.storeKeyC r3 ((s.savedVCount.setWidth 32 <<< 24) - 1))
  | .storeKeyC r3 r1 => ({ s with keyC := r1 },.storeDerivation ((hash r1 r3 <<< 8) + 0xFF))
  | .storeDerivation r3 => ({ s with keyCDerivation := r3 },.idle)
  | .checkBootKey => (s,if s.bootKey = 0 then .idle else .bootHash)
  | .bootHash => (s,.compareBootKey (hash 0xBB s.keyC))
  | .compareBootKey r3 => (s,if s.bootKey.setWidth 32 ≠ r3 then .init else .setReady)
  | .setReady => ({ s with mbProgress := 2 },.idle)
  | .init => (s,.init)

/-- Steps of Main with no interrupt between them. -/
inductive Exec (logo : ℕ → Word) : Machine × Pc → Machine × Pc → Prop
  | refl (c : Machine × Pc) : Exec logo c c
  | head {c d : Machine × Pc} (h : Exec logo (mainStep logo c.1 c.2) d) : Exec logo c d

theorem Exec.trans {logo : ℕ → Word} {c d e : Machine × Pc} (h : Exec logo c d)
    (h' : Exec logo d e) : Exec logo c e := by
  induction h with
  | refl c => exact h'
  | head h ih => exact .head (ih h')

/-- A call ends idle, or at the branch to Init. -/
def Ends (logo : ℕ → Word) (c : Machine × Pc) (s' : Machine) : Prop :=
  Exec logo c (s',.idle) ∨ ∃ t, Exec logo c (t,.init) ∧ s' = init t

theorem Exec.ends {logo : ℕ → Word} {c d : Machine × Pc} {s' : Machine} (h : Exec logo c d)
    (h' : Ends logo d s') : Ends logo c s' := by
  rcases h' with h' | ⟨t,h',ht⟩
  · exact Or.inl (h.trans h')
  · exact Or.inr ⟨t,h.trans h',ht⟩

section Calls
variable {logo : ℕ → Word}

theorem Ends.step {s s' : Machine} {pc : Pc} (h : Ends logo (mainStep logo s pc) s') :
    Ends logo (s,pc) s' :=
  Exec.ends (.head (.refl _)) h

theorem ends_idle (s : Machine) : Ends logo (s,.idle) s := Or.inl (.refl _)
theorem ends_init (s : Machine) : Ends logo (s,.init) (init s) := Or.inr ⟨s,.refl _,rfl⟩

/-- The place compared with logo word `k`. -/
def logoSlot (base : Word) (k : ℕ) : Word := base + 4 + BitVec.ofNat 32 (4*k)

theorem logoSlot_succ (base : Word) (k : ℕ) : logoSlot base (k+1) = logoSlot base k + 4 := by
  rw [logoSlot,logoSlot,BitVec.add_assoc _ _ 4,Nat.mul_add,BitVec.ofNat_add]
  rfl

/-- The comparison loop with `m+1` words to go. -/
theorem logoCmp_exec (s : Machine) (base : Word) {k m : ℕ} (h : k + (m+1) = 38) :
    Exec logo (s,.logoCmp k (logoSlot base k))
      (s,if (List.range' k (m+1)).all (fun n => s.mem (logoSlot base n) == logo n)
        then .logoLast (logoSlot base 38) else .init) := by
  induction m generalizing k with
  | zero =>
    obtain rfl : k = 37 := by omega
    apply Exec.head
    simp only [mainStep,← logoSlot_succ]
    by_cases hm : s.mem (logoSlot base 37) = logo 37
    · simpa [hm] using Exec.refl _
    · simpa [hm] using Exec.refl _
  | succ m ih =>
    apply Exec.head
    rw [List.range'_succ,List.all_cons]
    simp only [mainStep,← logoSlot_succ]
    by_cases hm : s.mem (logoSlot base k) = logo k
    · have hk : k+1 ≠ 38 := by omega
      rw [hm,beq_self_eq_true,Bool.true_and]
      simpa [hk] using ih (k := k+1) (by omega)
    · simpa [hm] using Exec.refl _

theorem logoWordsMatch_eq (mem : Word → Word) (base : Word) :
    logoWordsMatch logo mem base =
      (List.range' 0 38).all fun n => mem (logoSlot base n) == logo n := by
  rw [logoWordsMatch,List.range_eq_range']
  rfl

theorem logoCheck_ends (s : Machine) : Ends logo (s,.logoCur) (logoCheck logo s) := by
  have hcmp := @logoCmp_exec logo s s.baseDestPtr 0 37 rfl
  rw [← logoWordsMatch_eq] at hcmp
  have h0 : logoSlot s.baseDestPtr 0 = s.baseDestPtr + 4 := by simp [logoSlot]
  have h38 : logoSlot s.baseDestPtr 38 = s.baseDestPtr + 0x9C := by
    rw [logoSlot,BitVec.add_assoc]
    rfl
  rw [h0,h38] at hcmp
  apply Ends.step
  apply Ends.step
  unfold logoCheck
  simp only [mainStep]
  split_ifs with h1 h2 h3 h4
  · exact ends_idle s
  · exact ends_idle s
  · rw [if_neg (by simpa using h3)] at hcmp
    exact hcmp.ends (ends_init s)
  all_goals
    rw [if_pos (by simpa using h3)] at hcmp
    have hend : s.baseDestPtr + 0x9C + 4 = s.baseDestPtr + logoEnd := by
      rw [BitVec.add_assoc]
      rfl
    apply hcmp.ends
    apply Ends.step
    apply Ends.step
    simp only [mainStep,hend]
    change Ends logo ({ s with baseDestPtr := s.baseDestPtr + logoEnd },
      if logoLastMatch logo s.mem s.baseDestPtr then .setProgress else .init) _
  · rw [if_neg (by simpa using h4)]
    exact ends_init _
  · rw [if_pos (by simpa using h4)]
    exact Or.inl (.head (.head (.head (.head (.head (.refl _))))))

/-- A machine whose decrypt state is still in Main's registers. -/
def withSaved (s saved : Machine) : Machine :=
  { s with baseDestPtr := saved.baseDestPtr, hashVal := saved.hashVal, sessionKey := saved.sessionKey }

/-- The loop keeps pointer, checksum and key in registers until its end. -/
theorem decryptLoop_exec (saved : Machine) (r12 : Word) (hr : r12.toNat + 4 ≤ 2^32) (n : ℕ)
    (s : Machine) (hn : r12.toNat - s.baseDestPtr.toNat ≤ n) :
    Exec logo (withSaved s saved,.loop r12 s.hashVal s.baseDestPtr s.sessionKey)
      (withSaved (decryptLoop r12 n s) saved,.saveBase (decryptLoop r12 n s).hashVal
        (decryptLoop r12 n s).baseDestPtr (decryptLoop r12 n s).sessionKey) := by
  induction n generalizing s with
  | zero =>
    have hge : ¬ s.baseDestPtr < r12 := by
      rw [BitVec.lt_def]
      omega
    apply Exec.head
    simpa [mainStep,decryptLoop,hge] using Exec.refl _
  | succ n ih =>
    by_cases hlt : s.baseDestPtr < r12
    · have hnat := BitVec.lt_def.mp hlt
      have hnext : (s.baseDestPtr + 4).toNat = s.baseDestPtr.toNat + 4 := by
        rw [BitVec.toNat_add]
        simp
        omega
      have hrec := ih (decryptStep s) (by simp only [decryptStep,hnext]; omega)
      rw [decryptLoop,if_pos hlt]
      apply Exec.head
      simp only [mainStep,if_pos hlt]
      exact .head hrec
    · rw [decryptLoop,if_neg hlt]
      apply Exec.head
      simpa [mainStep,hlt] using Exec.refl _

theorem finishImage_ends (s : Machine) : Ends logo (s,.checkSize s.hashVal) (finishImage s) := by
  apply Ends.step
  unfold finishImage
  simp only [mainStep]
  split_ifs with h1 h2 h3 h4 h5
  · exact ends_idle s
  all_goals apply Ends.step; apply Ends.step
  · simpa only [mainStep,if_pos h2] using ends_idle s
  all_goals simp only [mainStep,if_neg h2]; apply Ends.step
  · simp only [mainStep,if_pos h3,generateKeyC]
    apply Ends.step
    apply Ends.step
    apply Ends.step
    exact ends_idle _
  all_goals simp only [mainStep,if_neg h3]; apply Ends.step
  · simpa only [mainStep,if_pos h4] using ends_idle s
  all_goals simp only [mainStep,if_neg h4]; apply Ends.step; apply Ends.step
  · simpa only [mainStep,if_pos h5] using ends_init s
  · simp only [mainStep,if_neg h5]
    exact Or.inl (.head (.refl _))

theorem decryptImage_ends (s : Machine) (h : s.curDestPtr.toNat + 4 ≤ 2^32) :
    Ends logo (s,.loadEnd) (decryptImage s) := by
  have hloop := @decryptLoop_exec logo s s.curDestPtr h _ s le_rfl
  apply Ends.step
  apply Ends.step
  apply Ends.step
  apply Ends.step
  apply hloop.ends
  apply Ends.step
  apply Ends.step
  apply Ends.step
  exact finishImage_ends _

/-- A call of Main that no interrupt disturbs does what `main` does. -/
theorem main_ends (s : Machine) (h : s.curDestPtr.toNat + 4 ≤ 2^32) :
    Ends logo (s,.entry) (main logo s) := by
  apply Ends.step
  unfold main
  simp only [mainStep]
  split_ifs with h1 h2 h3 h4
  · exact ends_init s
  all_goals apply Ends.step; apply Ends.step; apply Ends.step; simp only [mainStep]
  · simpa only [if_pos h2] using ends_idle _
  all_goals rw [if_neg h2]; apply Ends.step; simp only [mainStep]
  · simpa only [if_pos h3] using ends_init _
  all_goals rw [if_neg h3]; apply Ends.step; simp only [mainStep]
  · simpa only [if_pos h4] using logoCheck_ends _
  · rw [if_neg h4]
    apply decryptImage_ends
    exact h

end Calls

/-- A transfer: the machine, the place of Main, and the image words received so far. -/
structure Session where
  machine : Machine
  pc : Pc
  words : List Word

inductive SessionEvent
  | call | work
  | serial (joyCnt : BitVec 16) (joyRecv : Word) (vcount : BitVec 16)
  deriving DecidableEq, Repr

/-- Main is called, does one step, or is interrupted. -/
def sessionStep (logo : ℕ → Word) (s : Session) : SessionEvent → Session
  | .call => if s.pc = .idle then { s with pc := .entry } else s
  | .work =>
    { s with machine := (mainStep logo s.machine s.pc).1, pc := (mainStep logo s.machine s.pc).2 }
  | .serial joyCnt joyRecv vcount =>
    { s with
      machine := handleSerialInterrupt s.machine joyCnt joyRecv vcount
      words := if s.machine.serialIntrHandler = .checkImageResponse ∧ joyCnt.getLsbD 1
        then s.words ++ [joyRecv] else s.words }

/-- Addresses written by the decrypt loop, in order. -/
def decryptedDests (l : List Store) : List Word :=
  l.filterMap fun a => match a with
    | .decrypted dest => some dest
    | .received _ => none

/-- Main is idle, or has not compared the two pointers since they were made equal. -/
def BeforePointers : Pc → Prop
  | .idle | .entry | .loadCounter2 | .storeCounter2 _ | .loadProgress | .counter1
  | .selectBranch | .logoCur => True
  | .logoBase r1 => r1 = ewramStart
  | _ => False

/-- The image size has just been accepted. -/
structure Accepted (size : Word) (s : Session) : Prop where
  size_lt : size < maximumImageSizeUInt32s
  handler : s.machine.serialIntrHandler = .checkImageResponse
  imageSize : s.machine.imageSize = ((size + 1) + (size + 1)).setWidth 16
  progress : s.machine.mbProgress = 0
  base : s.machine.baseDestPtr = ewramStart
  cur : s.machine.curDestPtr = ewramStart
  pc : BeforePointers s.pc
  words : s.words = []
  stores : s.machine.stores = []

/-- What the transfer argument reads of the machine. -/
structure ImageView where
  progress : BitVec 8
  base : Word
  mem : Word → Word
  dests : List Word
  keyA : Word
  keyB : Word
  hash : Word
  key : Word

def Machine.imageView (s : Machine) : ImageView :=
  ⟨s.mbProgress,s.baseDestPtr,s.mem,decryptedDests s.stores,s.keyA,s.keyB,s.hashVal,s.sessionKey⟩

/-- Nothing is decrypted yet, and the lower pointer stands at word `i`. -/
structure Raw (i : ℕ) (ws : List Word) (v : ImageView) : Prop where
  base : v.base = imageSlot i
  memory : HoldsImage v.mem ws
  dests : v.dests = []

/-- The image is decrypted up to `base`, with `c` as the cipher reached there. -/
def Cooked (logo : ℕ → Word) (ws : List Word) (v : ImageView) (base : Word) (c : Cipher) : Prop :=
  v.progress ≠ 0 ∧ ∃ header done rest, ws = header ++ done ++ rest ∧
    PartlyDecrypted logo (startCipher v.keyA v.keyB) header done rest v.mem base c ∧
    v.dests = (List.range' headerWords done.length).map imageSlot

/-- The header arrived and its first `k` logo words agree. -/
structure Matched (logo : ℕ → Word) (k : ℕ) (ws : List Word) : Prop where
  length : headerWords ≤ ws.length
  words : ∀ n < k, (ws.take headerWords).getD (n+1) 0 = logo n

/-- The end pointer is one that has been reached. -/
def Reached (ws : List Word) (r12 : Word) : Prop := ∃ j ≤ ws.length, r12 = imageSlot j

/-- What Main knows at each of its places. -/
def MainInv (logo : ℕ → Word) (ws : List Word) (v : ImageView) : Pc → Prop
  | .idle | .entry | .loadCounter2 | .storeCounter2 _ | .loadProgress | .counter1
  | .selectBranch => (v.progress = 0 ∧ Raw 0 ws v) ∨ Cooked logo ws v v.base ⟨v.hash,v.key⟩
  | .logoCur => v.progress = 0 ∧ Raw 0 ws v
  | .logoBase r1 => v.progress = 0 ∧ Raw 0 ws v ∧ Reached ws r1
  | .logoCmp k r2 => v.progress = 0 ∧ Raw 0 ws v ∧ Matched logo k ws ∧ k < 38 ∧ r2 = imageSlot (k+1)
  | .logoLast r2 => v.progress = 0 ∧ Raw 0 ws v ∧ Matched logo 38 ws ∧ r2 = imageSlot 39
  | .logoStoreBase r2 matched => v.progress = 0 ∧ Raw 0 ws v ∧ headerWords ≤ ws.length ∧
    r2 = imageSlot headerWords ∧ (matched → LogoMatches logo (ws.take headerWords))
  | .setProgress => headerWords ≤ ws.length ∧ LogoMatches logo (ws.take headerWords) ∧
    Raw headerWords ws v
  | .loadKeyA => headerWords ≤ ws.length ∧ LogoMatches logo (ws.take headerWords) ∧
    Raw headerWords ws v ∧ v.progress ≠ 0
  | .loadKeyB r1 => headerWords ≤ ws.length ∧ LogoMatches logo (ws.take headerWords) ∧
    Raw headerWords ws v ∧ v.progress ≠ 0 ∧ r1 = v.keyA
  | .storeHash r1 => headerWords ≤ ws.length ∧ LogoMatches logo (ws.take headerWords) ∧
    Raw headerWords ws v ∧ v.progress ≠ 0 ∧ r1 = v.keyA ^^^ v.keyB
  | .storeKey r1 => headerWords ≤ ws.length ∧ LogoMatches logo (ws.take headerWords) ∧
    Raw headerWords ws v ∧ v.progress ≠ 0 ∧ r1 = v.keyA ^^^ v.keyB ∧ v.hash = r1
  | .loadHash r12 => Cooked logo ws v v.base ⟨v.hash,v.key⟩ ∧ Reached ws r12
  | .loadBase r12 r3 => Cooked logo ws v v.base ⟨r3,v.key⟩ ∧ Reached ws r12
  | .loadKey r12 r3 r4 => Cooked logo ws v r4 ⟨r3,v.key⟩ ∧ Reached ws r12
  | .loop r12 r3 r4 r6 => Cooked logo ws v r4 ⟨r3,r6⟩ ∧ Reached ws r12
  | .storeWord r12 r3 r4 r6 plain => Cooked logo ws v r4 ⟨r3,r6⟩ ∧ Reached ws r12 ∧ r4 < r12 ∧
    plain = (v.mem r4 ^^^ r6) + r3
  | .saveBase r3 r4 r6 => Cooked logo ws v r4 ⟨r3,r6⟩
  | .saveKey r3 r6 => Cooked logo ws v v.base ⟨r3,r6⟩
  | .saveHash r3 => Cooked logo ws v v.base ⟨r3,v.key⟩
  | .loadEnd | .checkSize _ | .endCur _ | .endBase _ _ | .checkKeyC _ | .genKeyC _ | .storeKeyC _ _
  | .storeDerivation _ | .checkBootKey | .bootHash | .compareBootKey _
  | .setReady => Cooked logo ws v v.base ⟨v.hash,v.key⟩
  | .init => True

section Transfer
variable {logo : ℕ → Word} {ws : List Word} {v : ImageView}

theorem Raw.push {i : ℕ} (h : Raw i ws v) (hlen : ws.length < 0x8000) (x : Word) :
    Raw i (ws++[x]) { v with mem := Function.update v.mem (imageSlot ws.length) x } :=
  ⟨h.base,h.memory.push (by omega) (by omega) x,h.dests⟩

theorem Matched.push {k : ℕ} (h : Matched logo k ws) (x : Word) : Matched logo k (ws++[x]) := by
  refine ⟨?_,?_⟩
  · have := h.length
    simp
    omega
  · rw [List.take_append_of_le_length h.length]
    exact h.words

theorem Reached.push {r12 : Word} (h : Reached ws r12) (x : Word) : Reached (ws++[x]) r12 := by
  obtain ⟨j,hj,rfl⟩ := h
  exact ⟨j,by simp; omega,rfl⟩

theorem Cooked.push {base : Word} {c : Cipher} (h : Cooked logo ws v base c)
    (hlen : ws.length < 0x8000) (x : Word) :
    Cooked logo (ws++[x]) { v with mem := Function.update v.mem (imageSlot ws.length) x } base c := by
  obtain ⟨hp,header,done,rest,rfl,hd,hdests⟩ := h
  refine ⟨hp,header,done,rest++[x],by simp,?_,hdests⟩
  exact hd.push (by simpa [Nat.add_assoc] using hlen) x

/-- Below a reached end lies no word that is still to come. -/
theorem Reached.ne_end {r4 r12 : Word} (h : Reached ws r12) (hlen : ws.length ≤ 0x8000)
    (hlt : r4 < r12) : r4 ≠ imageSlot ws.length := by
  obtain ⟨j,hj,rfl⟩ := h
  intro he
  rw [he,imageSlot_lt hlen (by omega)] at hlt
  omega

/-- An arriving word keeps what Main knows, wherever Main stands. -/
theorem MainInv.push {pc : Pc} (h : MainInv logo ws v pc) (hlen : ws.length < 0x8000) (x : Word) :
    MainInv logo (ws++[x]) { v with mem := Function.update v.mem (imageSlot ws.length) x } pc := by
  have htake : headerWords ≤ ws.length → (ws++[x]).take headerWords = ws.take headerWords :=
    fun hl => List.take_append_of_le_length hl
  have hle : headerWords ≤ ws.length → headerWords ≤ (ws++[x]).length := by
    intro hl
    simp
    omega
  cases pc with
  | idle | entry | loadCounter2 | storeCounter2 | loadProgress | counter1 | selectBranch =>
    exact h.imp (fun h => ⟨h.1,h.2.push hlen x⟩) fun h => h.push hlen x
  | logoCur => exact ⟨h.1,h.2.push hlen x⟩
  | logoBase r1 => exact ⟨h.1,h.2.1.push hlen x,h.2.2.push x⟩
  | logoCmp k r2 => exact ⟨h.1,h.2.1.push hlen x,h.2.2.1.push x,h.2.2.2⟩
  | logoLast r2 => exact ⟨h.1,h.2.1.push hlen x,h.2.2.1.push x,h.2.2.2⟩
  | logoStoreBase r2 matched =>
    obtain ⟨hp,hr,hl,h2,hm⟩ := h
    exact ⟨hp,hr.push hlen x,hle hl,h2,by rwa [htake hl]⟩
  | setProgress =>
    obtain ⟨hl,hm,hr⟩ := h
    exact ⟨hle hl,by rwa [htake hl],hr.push hlen x⟩
  | loadKeyA | loadKeyB | storeHash | storeKey =>
    obtain ⟨hl,hm,hr,hrest⟩ := h
    exact ⟨hle hl,by rwa [htake hl],hr.push hlen x,hrest⟩
  | loadHash | loadBase | loadKey | loop => exact ⟨h.1.push hlen x,h.2.push x⟩
  | storeWord r12 r3 r4 r6 plain =>
    obtain ⟨hc,hr,hlt,hplain⟩ := h
    refine ⟨hc.push hlen x,hr.push x,hlt,?_⟩
    dsimp only
    rwa [Function.update_of_ne (hr.ne_end hlen.le hlt)]
  | saveBase | saveKey | saveHash | loadEnd | checkSize | endCur | endBase | checkKeyC | genKeyC
  | storeKeyC | storeDerivation | checkBootKey | bootHash | compareBootKey | setReady =>
    exact Cooked.push h hlen x
  | init => trivial

/-- The next word is decrypted in place, and the cipher moves on. -/
theorem Cooked.storeWord {r12 r3 r4 r6 : Word} (h : Cooked logo ws v r4 ⟨r3,r6⟩)
    (hlen : ws.length ≤ 0x8000) (hr : Reached ws r12) (hlt : r4 < r12) :
    Cooked logo ws
      { v with
        mem := Function.update v.mem r4 ((v.mem r4 ^^^ r6) + r3), dests := v.dests ++ [r4] }
      (r4 + 4) ⟨hashLoop (r3 ^^^ ((v.mem r4 ^^^ r6) + r3)),sessionKeyNext r6⟩ := by
  obtain ⟨hp,header,done,rest,rfl,hd,hdests⟩ := h
  obtain ⟨j,hj,rfl⟩ := hr
  have hh := hd.header_length
  simp only [List.length_append] at hj hlen
  have hnext : headerWords + done.length < j := by
    rw [hd.base_eq,imageSlot_lt (by omega) (by omega)] at hlt
    exact hlt
  cases rest with
  | nil =>
    simp only [List.length_nil] at hj
    omega
  | cons x rest =>
    have hx := hd.next_word
    simp only [List.length_cons] at hlen
    refine ⟨hp,header,done++[x],rest,by simp,?_,?_⟩
    · rw [hx]
      exact hd.step (by omega)
    · simp only [hdests,hd.base_eq,List.length_append,List.length_singleton,List.range'_concat,
        List.map_append,List.map_singleton,Nat.one_mul]

/-- The logo check leaves an image of which nothing is decrypted. -/
theorem Raw.cooked (h : Raw headerWords ws v) (hl : headerWords ≤ ws.length)
    (hm : LogoMatches logo (ws.take headerWords)) (hp : v.progress ≠ 0) :
    Cooked logo ws v v.base (startCipher v.keyA v.keyB) := by
  refine ⟨hp,ws.take headerWords,[],ws.drop headerWords,by simp,?_,by simpa using h.dests⟩
  exact ⟨by simp [hl],hm,by simpa using h.memory,by simpa using h.base,rfl⟩

theorem Raw.logoWord {k : ℕ} (h : Raw 0 ws v) (hm : Matched logo k ws) (hk : k+1 < headerWords) :
    v.mem (imageSlot (k+1)) = (ws.take headerWords).getD (k+1) 0 := by
  have hl := hm.length
  have htake : k+1 < (ws.take headerWords).length := by simp; omega
  rw [h.memory _ (by omega),List.getD_eq_getElem _ _ htake,List.getElem_take]

theorem Matched.next {k : ℕ} (h : Matched logo k ws)
    (hk : (ws.take headerWords).getD (k+1) 0 = logo k) : Matched logo (k+1) ws := by
  refine ⟨h.length,?_⟩
  intro n hn
  rcases Nat.lt_succ_iff_lt_or_eq.mp hn with hn | rfl
  · exact h.words n hn
  · exact hk

theorem decryptedDests_append (l : List Store) (a : Word) :
    decryptedDests (l ++ [.decrypted a]) = decryptedDests l ++ [a] := by
  simp [decryptedDests]

end Transfer

/-- A step of Main keeps what Main knows. -/
theorem mainStep_inv {logo : ℕ → Word} {ws : List Word} {s : Machine} {pc : Pc}
    (hcur : s.curDestPtr = imageSlot ws.length) (hlen : ws.length ≤ 0x8000)
    (h : MainInv logo ws s.imageView pc) :
    MainInv logo ws (mainStep logo s pc).1.imageView (mainStep logo s pc).2 := by
  cases pc with
  | idle | loadCounter2 | storeCounter2 | init => exact h
  | entry =>
    simp only [mainStep]
    split
    · trivial
    · exact h
  | loadProgress =>
    simp only [mainStep]
    split <;> exact h
  | counter1 =>
    simp only [mainStep]
    split
    · trivial
    · exact h
  | selectBranch =>
    simp only [mainStep]
    split
    · rename_i hp
      exact h.resolve_right fun hc => hc.1 hp
    · rename_i hp
      exact h.resolve_left fun hr => hp hr.1
  | logoCur => exact ⟨h.1,h.2,ws.length,le_rfl,hcur⟩
  | logoBase r1 =>
    obtain ⟨hp,hr,j,hj,rfl⟩ := h
    have hbase : s.baseDestPtr = imageSlot 0 := hr.base
    simp only [mainStep]
    split_ifs with h1 h2
    · exact Or.inl ⟨hp,hr⟩
    · exact Or.inl ⟨hp,hr⟩
    · have hl : headerWords ≤ ws.length := by
        have he : logoEnd.toNat = 0xA0 := rfl
        rw [BitVec.lt_def,BitVec.toNat_sub,hbase,imageSlot_toNat (by omega),
          imageSlot_toNat (by omega),he] at h2
        simp only [headerWords]
        omega
      refine ⟨hp,hr,⟨hl,by simp⟩,by omega,?_⟩
      rw [hbase]
      exact (slot_add 4 ewramStart 0 1).symm
  | logoCmp k r2 =>
    obtain ⟨hp,hr,hm,hk,rfl⟩ := h
    have hw := hr.logoWord hm (by simp only [headerWords]; omega)
    have hsucc : imageSlot (k+1) + 4 = imageSlot (k+1+1) := (slot_add 4 ewramStart (k+1) 1).symm
    simp only [mainStep]
    split_ifs with h1 h2
    · trivial
    · have h1 : s.mem (imageSlot (k+1)) = logo k := by simpa using h1
      obtain rfl : k = 37 := by omega
      exact ⟨hp,hr,hm.next (hw.symm.trans h1),hsucc⟩
    · have h1 : s.mem (imageSlot (k+1)) = logo k := by simpa using h1
      exact ⟨hp,hr,hm.next (hw.symm.trans h1),by omega,hsucc⟩
  | logoLast r2 =>
    obtain ⟨hp,hr,hm,rfl⟩ := h
    refine ⟨hp,hr,hm.length,(slot_add 4 ewramStart 39 1).symm,?_⟩
    intro hlast
    refine ⟨hm.words,?_⟩
    rw [← hr.logoWord hm (by simp [headerWords])]
    exact beq_iff_eq.mp hlast
  | logoStoreBase r2 matched =>
    obtain ⟨hp,hr,hl,rfl,hm⟩ := h
    cases matched with
    | false => trivial
    | true => exact ⟨hl,hm rfl,rfl,hr.memory,hr.dests⟩
  | setProgress => exact ⟨h.1,h.2.1,⟨h.2.2.base,h.2.2.memory,h.2.2.dests⟩,by simp [mainStep,Machine.imageView]⟩
  | loadKeyA => exact ⟨h.1,h.2.1,h.2.2.1,h.2.2.2,rfl⟩
  | loadKeyB r1 =>
    obtain ⟨hl,hm,hr,hp,rfl⟩ := h
    exact ⟨hl,hm,hr,hp,rfl⟩
  | storeHash r1 =>
    obtain ⟨hl,hm,hr,hp,hx⟩ := h
    exact ⟨hl,hm,⟨hr.base,hr.memory,hr.dests⟩,hp,hx,rfl⟩
  | storeKey r1 =>
    obtain ⟨hl,hm,hr,hp,rfl,hx⟩ := h
    have hx : s.hashVal = s.keyA ^^^ s.keyB := hx
    right
    simp only [mainStep,Machine.imageView,hx]
    exact hr.cooked hl hm hp
  | loadEnd => exact ⟨h,ws.length,le_rfl,hcur⟩
  | loadHash | loadBase | loadKey => exact h
  | loop r12 r3 r4 r6 =>
    simp only [mainStep]
    split
    · rename_i hlt
      exact ⟨h.1,h.2,hlt,rfl⟩
    · exact h.1
  | storeWord r12 r3 r4 r6 plain =>
    obtain ⟨hc,hr,hlt,rfl⟩ := h
    have hs := hc.storeWord hlen hr hlt
    simp only [mainStep,Machine.imageView,decryptedDests_append,MainInv]
    exact ⟨hs,hr⟩
  | saveBase | saveKey | saveHash => exact h
  | checkSize | endBase | checkBootKey =>
    simp only [mainStep]
    split
    · exact Or.inr h
    · exact h
  | endCur | genKeyC | bootHash | storeKeyC => exact h
  | storeDerivation => exact Or.inr h
  | checkKeyC =>
    simp only [mainStep]
    split <;> exact h
  | compareBootKey =>
    simp only [mainStep]
    split
    · trivial
    · exact h
  | setReady => exact Or.inr ⟨by simp [mainStep,Machine.imageView],h.2⟩


/-- What Main never writes. -/
theorem mainStep_frame (logo : ℕ → Word) (s : Machine) (pc : Pc) :
    (mainStep logo s pc).1.serialIntrHandler = s.serialIntrHandler ∧
    (mainStep logo s pc).1.imageSize = s.imageSize ∧
    (mainStep logo s pc).1.curDestPtr = s.curDestPtr := by
  cases pc <;> simp only [mainStep]
  case counter1 => split <;> exact ⟨rfl,rfl,rfl⟩
  all_goals exact ⟨trivial,trivial,trivial⟩

/-- Handlers from the image transfer on, with the stopped one. -/
def Transferring : Handler → Prop
  | .null | .checkImageResponse | .checkCounter2Sent | .checkKeyCDerivationSent
  | .checkBootKeyResponse | .stopUnconditionally => True
  | _ => False

/-- What an interrupt without a reset command does during a transfer. -/
inductive TransferEffect (s : Machine) (received : Bool) (recv : Word) (s' : Machine) : Prop
  | word (hh : s.serialIntrHandler = .checkImageResponse) (hr : received = true)
      (hv : s'.imageView =
        { s.imageView with mem := Function.update s.imageView.mem s.curDestPtr recv })
      (hc : s'.curDestPtr = s.curDestPtr + 4)
      (hi : s'.imageSize = s.imageSize - 1)
      (hh' : s'.serialIntrHandler = if s.imageSize - 1 ≠ 0 then .checkImageResponse else .checkCounter2Sent)
  | quiet (hw : ¬ (s.serialIntrHandler = .checkImageResponse ∧ received = true))
      (hv : s'.imageView = s.imageView) (hc : s'.curDestPtr = s.curDestPtr)
      (hh : Transferring s'.serialIntrHandler) (hn : s'.serialIntrHandler ≠ .checkImageResponse)

section Interrupts
variable {s t : Machine} {b : Bool} {recv : Word} {v : BitVec 16}

theorem setInterruptHandler_quiet (hw : ¬ (s.serialIntrHandler = .checkImageResponse ∧ b = true))
    (hv : t.imageView = s.imageView) (hc : t.curDestPtr = s.curDestPtr) {k : Handler}
    (hk : Transferring k) (hn : k ≠ .checkImageResponse) :
    TransferEffect s b recv (setInterruptHandler t k v) :=
  .quiet hw hv hc hk hn

theorem intrStop_quiet (hw : ¬ (s.serialIntrHandler = .checkImageResponse ∧ b = true))
    (hv : t.imageView = s.imageView) (hc : t.curDestPtr = s.curDestPtr) :
    TransferEffect s b recv (intrStop t v) := by
  apply setInterruptHandler_quiet hw
  · exact hv
  · exact hc
  · trivial
  · simp

theorem bootKeyResponse_quiet (hw : ¬ (s.serialIntrHandler = .checkImageResponse ∧ b = true))
    (hv : t.imageView = s.imageView) (hc : t.curDestPtr = s.curDestPtr) (w : Word) :
    TransferEffect s b recv (bootKeyResponse t w v) := by
  unfold bootKeyResponse
  split
  · exact intrStop_quiet hw hv hc
  · apply setInterruptHandler_quiet hw
    · exact hv
    · exact hc
    · trivial
    · simp

theorem counter2Sent_quiet (hw : ¬ (s.serialIntrHandler = .checkImageResponse ∧ b = true))
    (hv : t.imageView = s.imageView) (hc : t.curDestPtr = s.curDestPtr) :
    TransferEffect s b recv (counter2Sent t v) := by
  unfold counter2Sent sendCounter2
  split
  all_goals
    apply setInterruptHandler_quiet hw
    · exact hv
    · exact hc
    · trivial
    · simp

theorem imageResponse_view (t : Machine) (recv : Word) (v : BitVec 16) :
    (imageResponse t recv v).imageView =
      { t.imageView with mem := Function.update t.mem t.curDestPtr recv } := by
  simp only [imageResponse]
  split <;> simp [readVCount,sendCounter2,setInterruptHandler,Machine.imageView,decryptedDests]

theorem imageResponse_word (hh : s.serialIntrHandler = .checkImageResponse) (hb : b = true)
    (hv : t.imageView = s.imageView) (hc : t.curDestPtr = s.curDestPtr)
    (hi : t.imageSize = s.imageSize) (ht : t.serialIntrHandler = .checkImageResponse) :
    TransferEffect s b recv (imageResponse t recv v) := by
  have hmem : t.mem = s.mem := congrArg ImageView.mem hv
  refine .word hh hb ?_ ?_ ?_ ?_
  · rw [imageResponse_view,hv,hc,hmem]
    rfl
  all_goals simp only [imageResponse,hi,hc,sendCounter2,setInterruptHandler,readVCount]
  · split <;> rfl
  · split <;> rfl
  · split
    · exact ht
    · rfl

theorem serial_transfer (hs : Transferring s.serialIntrHandler) {joyCnt : BitVec 16}
    (hreset : joyCnt.getLsbD 0 = false) (recv : Word) (v : BitVec 16) :
    TransferEffect s (joyCnt.getLsbD 1) recv (handleSerialInterrupt s joyCnt recv v) := by
  by_cases hnull : s.serialIntrHandler = .null
  · simp only [handleSerialInterrupt,if_pos hnull]
    exact .quiet (by simp [hnull]) rfl rfl (by simp [hnull,Transferring]) (by simp [hnull])
  simp only [handleSerialInterrupt,if_neg hnull,Interrupt.reset,hreset]
  rw [if_neg (by simp)]
  unfold runHandler
  split <;> rename_i hh <;> dsimp only at hh <;> simp only [hh,Transferring] at hs
  case h_1 => exact absurd hh hnull
  case h_8 =>
    split_ifs with hr
    · exact intrStop_quiet (by simpa [Interrupt.received] using fun _ => hr) rfl rfl
    · exact imageResponse_word hh (by simpa [Interrupt.received] using hr) rfl rfl rfl hh
  all_goals
    have hw : ¬ (s.serialIntrHandler = .checkImageResponse ∧ joyCnt.getLsbD 1 = true) := by
      simp [hh]
  case h_9 =>
    split_ifs
    · exact intrStop_quiet hw rfl rfl
    · exact counter2Sent_quiet hw rfl rfl
  case h_10 =>
    split_ifs
    · exact intrStop_quiet hw rfl rfl
    · apply bootKeyResponse_quiet hw <;> rfl
    · apply setInterruptHandler_quiet hw
      · rfl
      · rfl
      · trivial
      · simp
  case h_11 =>
    split_ifs
    · exact intrStop_quiet hw rfl rfl
    · apply bootKeyResponse_quiet hw <;> rfl
  case h_12 => exact intrStop_quiet hw rfl rfl

end Interrupts

/-- The invariant of a transfer of `2*(size+1)` words. -/
structure TransferInv (logo : ℕ → Word) (size : Word) (s : Session) : Prop where
  handler : Transferring s.machine.serialIntrHandler
  cur : s.machine.curDestPtr = imageSlot s.words.length
  bound : s.words.length ≤ 0x8000
  remaining : s.machine.serialIntrHandler = .checkImageResponse →
    1 ≤ s.machine.imageSize.toNat ∧
    s.machine.imageSize.toNat + s.words.length = 2*(size.toNat+1)
  main : MainInv logo s.words s.machine.imageView s.pc

theorem Accepted.inv {size : Word} {s : Session} (h : Accepted size s) (logo : ℕ → Word) :
    TransferInv logo size s := by
  have hslot : imageSlot 0 = ewramStart := slot_zero 4 ewramStart
  have hraw : Raw 0 s.words s.machine.imageView := by
    refine ⟨h.base.trans hslot.symm,?_,?_⟩
    · rw [h.words]
      exact holds_nil _ _ _
    · simp [Machine.imageView,h.stores,decryptedDests]
  have hp : s.machine.imageView.progress = 0 := h.progress
  refine ⟨by simp [h.handler,Transferring],?_,by simp [h.words],fun _ => ?_,?_⟩
  · rw [h.words,h.cur]
    exact hslot.symm
  · rw [h.imageSize,imageSize_of_accepted h.size_lt,h.words,List.length_nil]
    omega
  · have hpc := h.pc
    revert hpc
    cases s.pc <;> intro hpc <;> simp only [BeforePointers] at hpc
    case logoCur => exact ⟨hp,hraw⟩
    case logoBase r1 => exact ⟨hp,hraw,0,by simp,hpc.trans hslot.symm⟩
    all_goals exact Or.inl ⟨hp,hraw⟩

theorem TransferInv.serial {logo : ℕ → Word} {size : Word} {s : Session}
    (hsize : size < maximumImageSizeUInt32s) (h : TransferInv logo size s) {joyCnt : BitVec 16}
    (hreset : joyCnt.getLsbD 0 = false) (recv : Word) (v : BitVec 16) :
    TransferInv logo size (sessionStep logo s (.serial joyCnt recv v)) := by
  have hlt : size.toNat < 0x4000 := by simpa [maximumImageSizeUInt32s,BitVec.lt_def] using hsize
  rcases serial_transfer h.handler hreset recv v with ⟨hh,hr,hv,hc,hi,hh'⟩ | ⟨hw,hv,hc,hh,hn⟩
  · obtain ⟨hone,htotal⟩ := h.remaining hh
    have hsub : (s.machine.imageSize - 1).toNat = s.machine.imageSize.toNat - 1 := by
      rw [BitVec.toNat_sub]
      simp
      omega
    simp only [sessionStep,if_pos (And.intro hh hr)]
    refine ⟨?_,?_,?_,?_,?_⟩
    · rw [hh']
      split <;> trivial
    · rw [hc,h.cur,List.length_append]
      exact (slot_add 4 ewramStart s.words.length 1).symm
    · rw [List.length_append,List.length_singleton]
      omega
    · rw [hh',hi,List.length_append,List.length_singleton]
      split
      · rename_i hz
        have hz' : (s.machine.imageSize - 1).toNat ≠ 0 := fun h0 => hz (BitVec.eq_of_toNat_eq h0)
        intro
        omega
      · simp
    · rw [hv,h.cur]
      exact h.main.push (by omega) recv
  · simp only [sessionStep,if_neg hw]
    exact ⟨hh,hc.trans h.cur,h.bound,fun hk => absurd hk hn,by rw [hv]; exact h.main⟩

theorem TransferInv.step {logo : ℕ → Word} {size : Word} {s : Session}
    (hsize : size < maximumImageSizeUInt32s) (h : TransferInv logo size s) (e : SessionEvent)
    (he : ∀ joyCnt recv v, e = .serial joyCnt recv v → joyCnt.getLsbD 0 = false) :
    TransferInv logo size (sessionStep logo s e) := by
  cases e with
  | call =>
    simp only [sessionStep]
    split
    · rename_i hpc
      refine ⟨h.handler,h.cur,h.bound,h.remaining,?_⟩
      have hm := h.main
      rw [hpc] at hm
      exact hm
    · exact h
  | work =>
    obtain ⟨hh,hi,hc⟩ := mainStep_frame logo s.machine s.pc
    refine ⟨?_,hc.trans h.cur,h.bound,?_,mainStep_inv h.cur h.bound h.main⟩
    · simpa only [sessionStep,hh] using h.handler
    · simpa only [sessionStep,hh,hi] using h.remaining
  | serial joyCnt recv v => exact h.serial hsize (he _ _ _ rfl) recv v

theorem transfer_inv {logo : ℕ → Word} {size : Word} {s : Session} (h : Accepted size s)
    {es : List SessionEvent}
    (hreset : ∀ joyCnt recv v, .serial joyCnt recv v ∈ es → joyCnt.getLsbD 0 = false) :
    TransferInv logo size (run (sessionStep logo) s es) := by
  have hinv := h.inv logo
  have hsize := h.size_lt
  clear h
  induction es generalizing s with
  | nil => exact hinv
  | cons e es ih =>
    rw [run_cons]
    apply ih
    · intro joyCnt recv v hm
      exact hreset joyCnt recv v (List.mem_cons_of_mem e hm)
    · apply hinv.step hsize
      rintro joyCnt recv v rfl
      exact hreset joyCnt recv v List.mem_cons_self

/-- The image and the cipher after decrypting everything behind the header in one go. -/
def DecryptedOnce (s : Session) : Prop :=
  ∃ header rest, s.words = header ++ rest ∧ header.length = headerWords ∧
    HoldsImage s.machine.mem
      (header ++ outputs decipher (startCipher s.machine.keyA s.machine.keyB) rest) ∧
    s.machine.cipher = final decipher (startCipher s.machine.keyA s.machine.keyB) rest ∧
    decryptedDests s.machine.stores = (List.range' headerWords rest.length).map imageSlot

theorem Cooked.decryptedOnce {logo : ℕ → Word} {s : Session}
    (h : Cooked logo s.words s.machine.imageView s.machine.baseDestPtr s.machine.cipher)
    (hcur : s.machine.curDestPtr = imageSlot s.words.length) (hlen : s.words.length ≤ 0x8000)
    (he : s.machine.baseDestPtr = s.machine.curDestPtr) : DecryptedOnce s := by
  obtain ⟨-,header,done,rest,hws,hd,hdests⟩ := h
  have hl : s.words.length = headerWords + done.length + rest.length := by
    rw [hws,← hd.header_length,List.length_append,List.length_append]
  have hnat := congrArg BitVec.toNat he
  rw [hcur,hd.base_eq,imageSlot_toNat (by omega),imageSlot_toNat hlen] at hnat
  have hrest : rest = [] := List.length_eq_zero_iff.mp (by omega)
  subst hrest
  refine ⟨header,done,by simpa using hws,hd.header_length,?_,hd.cipher_eq,hdests⟩
  have hmem := hd.memory
  rw [List.append_nil] at hmem
  exact hmem

/-- However the interrupts of a transfer fall between and into the calls of Main: when all
words are there and the next call finds nothing to decrypt, image, key and checksum are those
of one pass over the received words. The pass is a bijection on the words of each length. -/
theorem incremental_decryption (logo : ℕ → Word) (size : Word) (s₀ : Session)
    (h₀ : Accepted size s₀) (es : List SessionEvent)
    (hreset : ∀ joyCnt recv v, .serial joyCnt recv v ∈ es → joyCnt.getLsbD 0 = false) :
    let s := run (sessionStep logo) s₀ es
    (s.pc = .idle → s.words.length = 2*(size.toNat+1) →
      s.machine.baseDestPtr = s.machine.curDestPtr → DecryptedOnce s) ∧
    ∀ c n, Function.Bijective (onVector decipher c n) := by
  intro s
  have h : TransferInv logo size s := transfer_inv h₀ hreset
  refine ⟨?_,onVector_bijective decipher_bijective⟩
  intro hpc hall he
  have hm := h.main
  rw [hpc] at hm
  obtain ⟨-,hr⟩ | hc := hm
  · -- nothing decrypted, so the lower pointer is still at the start
    have hbase : s.machine.baseDestPtr = imageSlot 0 := hr.base
    have hnat := congrArg BitVec.toNat he
    rw [hbase,h.cur,imageSlot_toNat (by omega),imageSlot_toNat h.bound] at hnat
    omega
  · exact hc.decryptedOnce h.cur h.bound he

/-- A transfer of 42 words starts. -/
def shortTransfer : Session where
  machine := { blank with
    serialIntrHandler := .checkImageResponse, imageSize := 42, keyA := 0xDD000001, keyB := 0x12345600
    baseDestPtr := ewramStart, curDestPtr := ewramStart }
  pc := .idle
  words := []

/-- The header arrives, Main checks it and is interrupted by the last two words while it
prepares to decrypt. -/
def shortTransferEvents : List SessionEvent := List.flatten
  [List.replicate 40 (.serial 2 0 0x42), .call :: List.replicate 60 .work,
    .call :: List.replicate 8 .work, [.serial 2 0x11111111 0x43], List.replicate 2 .work,
    [.serial 2 0x22222222 0x44], List.replicate 20 .work, .call :: List.replicate 30 .work]

theorem incremental_decryption_shortTransfer :
    Accepted 20 shortTransfer ∧
    DecryptedOnce (run (sessionStep fun _ => 0) shortTransfer shortTransferEvents) := by
  have h₀ : Accepted 20 shortTransfer := by
    constructor <;> first | decide | trivial
  have hreset : ∀ joyCnt recv v, .serial joyCnt recv v ∈ shortTransferEvents →
      joyCnt.getLsbD 0 = false := by
    intro joyCnt recv v hm
    simp only [shortTransferEvents,List.flatten_cons,List.flatten_nil,List.mem_append,List.mem_cons,
      List.mem_replicate,SessionEvent.serial.injEq,List.not_mem_nil,reduceCtorEq,and_false,
      or_false,false_or] at hm
    obtain ⟨-,rfl,-⟩ | ⟨rfl,-⟩ | ⟨rfl,-⟩ := hm <;> rfl
  have hpc : (run (sessionStep fun _ => 0) shortTransfer shortTransferEvents).pc = .idle := by
    decide +kernel
  have hall : (run (sessionStep fun _ => 0) shortTransfer shortTransferEvents).words.length = 42 := by
    decide +kernel
  have he : (run (sessionStep fun _ => 0) shortTransfer shortTransferEvents).machine.baseDestPtr =
      (run (sessionStep fun _ => 0) shortTransfer shortTransferEvents).machine.curDestPtr := by
    decide +kernel
  have h := incremental_decryption (fun _ => 0) 20 shortTransfer h₀ shortTransferEvents hreset
  exact ⟨h₀,h.1 hpc hall he⟩

end MultiBoot
end AgbTools
