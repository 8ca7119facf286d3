import Mathlib.Data.Nat.Bitwise
import Mathlib.Tactic.Ring
import AgbTools.Rfu
import AgbTools.Stwi

/-! What a parent broadcasts about its game, and how a child reads the list of parents: the request
that configures the broadcast, the record the adapter echoes, and the reader of such records. -/
namespace AgbTools
namespace Rfu

open Stwi (Word Request packBytes packWords)

section Send

/-- The loop over both names: eight bytes of each. -/
def nameSum (uname gname : List Byte) : Byte := (uname.zip gname).foldl (fun m x => m + x.1 + x.2) 0

/-- The array on the stack of `rfu_REQ_configGameData`. -/
def gameData (mbFlag : Byte) (serialNo : BitVec 16) (gname : Fin 13 → Byte) (uname : Fin 8 → Byte) :
    Fin 16 → Byte :=
  let high := serialNo.extractLsb' 8 8
  let name (i : Fin 13) : Byte := if mbFlag ≠ 0 ∧ i = 12 then 0 else gname i
  fun i =>
    if i = 0 then serialNo.extractLsb' 0 8
    else if i = 1 then if mbFlag ≠ 0 then high ||| 0x80 else high
    else if h : (i : ℕ) - 2 < 13 then name ⟨i-2,h⟩
    else ~~~nameSum (List.ofFn uname) (List.ofFn gname)

/-- `rfu_REQ_configGameData`: the request it ends in. -/
def configGameData (mbFlag : Byte) (serialNo : BitVec 16) (gname : Fin 13 → Byte) (uname : Fin 8 → Byte) :
    Request :=
  .gameConfig (.ofFn (gameData mbFlag serialNo gname uname)) (.ofFn uname)

end Send

section Receive

/-- An entry of the list of parents in the link status. -/
structure Candidate where
  id : BitVec 16
  slot : Byte
  mbFlag : Byte
  serialNo : BitVec 16
  gname : List Byte
  uname : List Byte
  deriving DecidableEq, Repr

/-- Bytes of a packet in memory order. -/
def unpackWords (ws : List Word) : List Byte :=
  ws.flatMap fun w => [w.extractLsb' 0 8,w.extractLsb' 8 8,w.extractLsb' 16 8,w.extractLsb' 24 8]

/-- A load of `n` bytes; it fails outside the packet. -/
def loadBytes (r : List Byte) (o : ℕ) : ℕ → Option (List Byte)
  | 0 => some []
  | n+1 => do
    let bs ← loadBytes r o n
    let b ← r[o+n]?
    some (bs ++ [b])

def loadHalf (r : List Byte) (o : ℕ) : Option (BitVec 16) := do
  let low ← r[o]?
  let high ← r[o+1]?
  some (high ++ low)

/-- The sum over both names after `n` rounds. -/
def recordSum (r : List Byte) : ℕ → Option Byte
  | 0 => some 0
  | n+1 => do
    let m ← recordSum r n
    let u ← r[20+n]?
    let g ← r[6+n]?
    some (m + u + g)

/-- One round of the loop of `rfu_STC_readParentCandidateList`, at the start of a record. -/
def readRecord (r : List Byte) : Option (Option Candidate) := do
  let check ← r[19]?
  let m ← recordSum r 8
  if m ≠ ~~~check then return none
  let id ← loadHalf r 0
  let slot ← r[2]?
  let serialNo ← loadHalf r 4
  let gname ← loadBytes r 6 13
  let uname ← loadBytes r 20 8
  return some ⟨id,slot,if serialNo &&& 0x8000 = 0 then 0 else 1,serialNo &&& 0x7FFF,gname,uname⟩

/-- The loop: how many records were read, and the entries made. The length byte counts words and may be
anything; no result stands for a load outside the packet, or for more rounds than `fuel`. -/
def readLoop : ℕ → List Byte → ℕ → Byte → List Candidate → Option (ℕ × List Candidate)
  | 0, _, _, _, _ => none
  | fuel+1, r, records, length, found => do
    let entry ← readRecord r
    let found := found ++ entry.toList
    if 3 < records+1 ∨ length - 7 = 0 then return (records+1,found)
    readLoop fuel (r.drop 28) (records+1) (length - 7) found

/-- `rfu_STC_readParentCandidateList` on a receive packet. -/
def readParentCandidateList (rx : List Word) : Option (ℕ × List Candidate) := do
  let p := unpackWords rx
  let length ← p[1]?
  if length = 0 then return (0,[])
  readLoop 4 (p.drop 4) 0 length []

end Receive

section Records
variable {r rest : List Byte}

/-- The bytes of a record. -/
theorem exists_record (h : 28 ≤ r.length) : ∃ x : Fin 28 → Byte, ∃ rest, r = List.ofFn x ++ rest := by
  refine ⟨fun i => r[i],r.drop 28,?_⟩
  have hfn : List.ofFn (fun i : Fin 28 => r[i]) = r.take 28 := by
    refine List.ext_getElem (by simp [h]) fun i hi hi' => ?_
    rw [List.getElem_ofFn,List.getElem_take]
    rfl
  rw [hfn,List.take_append_drop]

/-- The bytes the check byte is for: eight of each name. -/
def covered : List (Fin 28) := [6,7,8,9,10,11,12,13,20,21,22,23,24,25,26,27]

def coveredSum (x : Fin 28 → Byte) : Byte := (covered.map x).sum

/-- The entry a record is for. -/
def recordEntry (x : Fin 28 → Byte) : Candidate :=
  let serialNo := x 5 ++ x 4
  ⟨x 1 ++ x 0,x 2,if serialNo &&& 0x8000 = 0 then 0 else 1,serialNo &&& 0x7FFF,
    [x 6,x 7,x 8,x 9,x 10,x 11,x 12,x 13,x 14,x 15,x 16,x 17,x 18],
    [x 20,x 21,x 22,x 23,x 24,x 25,x 26,x 27]⟩

/-- A whole record is read without leaving it. -/
theorem readRecord_eq (x : Fin 28 → Byte) (rest : List Byte) : readRecord (List.ofFn x ++ rest) =
    some (if coveredSum x = ~~~x 19 then some (recordEntry x) else none) := by
  have hget : ∀ o (h : o < 28), (List.ofFn x ++ rest)[o]? = some (x ⟨o,h⟩) := by
    intro o h
    rw [List.getElem?_append_left (by rwa [List.length_ofFn]),List.getElem?_ofFn,dif_pos h]
  generalize List.ofFn x ++ rest = r at hget ⊢
  have hsum : recordSum r 8 = some (coveredSum x) := by
    simp only [recordSum,coveredSum,covered,List.map_cons,List.map_nil,List.sum_cons,List.sum_nil]
    simp [hget]
    ring
  have hid : loadHalf r 0 = some (x 1 ++ x 0) := by simp [loadHalf,hget]
  have hserial : loadHalf r 4 = some (x 5 ++ x 4) := by simp [loadHalf,hget]
  have hgname : loadBytes r 6 13 =
      some [x 6,x 7,x 8,x 9,x 10,x 11,x 12,x 13,x 14,x 15,x 16,x 17,x 18] := by simp [loadBytes,hget]
  have huname : loadBytes r 20 8 = some [x 20,x 21,x 22,x 23,x 24,x 25,x 26,x 27] := by
    simp [loadBytes,hget]
  generalize coveredSum x = m at hsum ⊢
  unfold readRecord
  rw [hget 19 (by decide),hsum,hid,hserial,hgname,huname,hget 2 (by decide)]
  by_cases hcheck : m = ~~~x 19
  · rw [if_pos hcheck]
    show (if m ≠ ~~~x 19 then _ else _) = _
    rw [if_neg (not_not.mpr hcheck)]
    rfl
  · rw [if_neg hcheck]
    show (if m ≠ ~~~x 19 then _ else _) = _
    rw [if_pos hcheck]
    rfl

/-- One changed byte changes the sum by the difference. -/
theorem sum_map_update (x : Fin 28 → Byte) {o : Fin 28} (b : Byte) {l : List (Fin 28)} (hl : l.Nodup)
    (ho : o ∈ l) : (l.map (Function.update x o b)).sum = (l.map x).sum + (b - x o) := by
  induction l with
  | nil => cases ho
  | cons a l ih =>
    obtain ⟨ha,hl⟩ := List.nodup_cons.mp hl
    rw [List.map_cons,List.map_cons,List.sum_cons,List.sum_cons]
    by_cases heq : a = o
    · subst heq
      have hrest : l.map (Function.update x a b) = l.map x :=
        List.map_congr_left fun c hc => Function.update_of_ne (fun hca : c = a => ha (hca ▸ hc)) _ _
      rw [hrest,Function.update_self]
      ring
    · rw [Function.update_of_ne heq,ih hl ((List.mem_cons.mp ho).resolve_left (Ne.symm heq))]
      ring

/-- A record that passes its check does not pass it with one covered byte changed. -/
theorem readRecord_changed {x : Fin 28 → Byte} (hcheck : coveredSum x = ~~~x 19) {o : Fin 28} (ho : o ∈ covered)
    {b : Byte} (hb : b ≠ x o) (rest : List Byte) :
    readRecord (List.ofFn (Function.update x o b) ++ rest) = some none := by
  have hsum := sum_map_update x b (by decide : covered.Nodup) ho
  have hbyte : Function.update x o b 19 = x 19 := by
    refine Function.update_of_ne ?_ _ _
    rintro rfl
    exact absurd ho (by decide)
  rw [readRecord_eq,hbyte,if_neg]
  intro hsame
  apply hb
  rw [← hcheck] at hsame
  have hdiff : b - x o = 0 := by
    unfold coveredSum at hsame
    rw [hsum] at hsame
    simpa using hsame
  exact sub_eq_zero.mp hdiff

end Records

section Echo

theorem unpackWords_packWords {bs : List Byte} (h : 4 ∣ bs.length) : unpackWords (packWords bs) = bs := by
  fun_induction packWords bs with
  | case1 b0 b1 b2 b3 rest ih =>
    have hbytes : ∀ b0 b1 b2 b3 : Byte, (packBytes b0 b1 b2 b3).extractLsb' 0 8 = b0 ∧
        (packBytes b0 b1 b2 b3).extractLsb' 8 8 = b1 ∧ (packBytes b0 b1 b2 b3).extractLsb' 16 8 = b2 ∧
        (packBytes b0 b1 b2 b3).extractLsb' 24 8 = b3 := by
      intro b0 b1 b2 b3
      unfold packBytes
      refine ⟨?_,?_,?_,?_⟩
      all_goals
        ext i hi
        simp
        grind
    obtain ⟨h0,h1,h2,h3⟩ := hbytes b0 b1 b2 b3
    have hrest : 4 ∣ rest.length := by
      simp only [List.length_cons] at h
      omega
    unfold unpackWords at ih ⊢
    rw [List.flatMap_cons,h0,h1,h2,h3,ih hrest]
    rfl
  | case2 bs hshort =>
    match bs, hshort with
    | [], _ => rfl
    | [_], _ => exact absurd h (show ¬ 4 ∣ 1 by decide)
    | [_,_], _ => exact absurd h (show ¬ 4 ∣ 2 by decide)
    | [_,_,_], _ => exact absurd h (show ¬ 4 ∣ 3 by decide)
    | a::b::c::d::rest, hshort => exact absurd rfl (hshort a b c d rest)

/-- The record of a parent: a word of the adapter, then what the parent configured. -/
def echo (head : Word) (data : Fin 16 → Byte) (uname : Fin 8 → Byte) : Fin 28 → Byte := fun i =>
  if (i : ℕ) < 4 then head.extractLsb' (8*i) 8
  else if h : (i : ℕ) - 4 < 16 then data ⟨i-4,h⟩
  else uname ⟨i-20,by omega⟩

theorem unpackWords_echo (head : Word) (data : Fin 16 → Byte) (uname : Fin 8 → Byte) :
    unpackWords (head::(Request.gameConfig (.ofFn data) (.ofFn uname)).params) = List.ofFn (echo head data uname) := by
  have hpack : unpackWords (Request.gameConfig (.ofFn data) (.ofFn uname)).params =
      List.ofFn data ++ List.ofFn uname := by
    rw [Request.params,List.Vector.toList_ofFn,List.Vector.toList_ofFn]
    exact unpackWords_packWords (by rw [List.length_append,List.length_ofFn,List.length_ofFn]; decide)
  unfold unpackWords at hpack ⊢
  rw [List.flatMap_cons,hpack]
  rfl

variable {serialNo : BitVec 16}

theorem serialNo_low (h : serialNo.toNat < 0x8000) : serialNo &&& 0x8000 = 0 ∧ serialNo &&& 0x7FFF = serialNo := by
  have hbit : serialNo.toNat.testBit 15 = false := Nat.testBit_lt_two_pow h
  constructor
  · apply BitVec.eq_of_toNat_eq
    rw [BitVec.toNat_and]
    show serialNo.toNat &&& 2^15 = 0
    rw [Nat.and_two_pow,hbit]
    rfl
  · apply BitVec.eq_of_toNat_eq
    rw [BitVec.toNat_and]
    show serialNo.toNat &&& (2^15-1) = _
    rw [Nat.and_two_pow_sub_one_eq_mod,Nat.mod_eq_of_lt h]

/-- The flag is folded into the top bit of the serial number. -/
theorem serialNo_bytes (serialNo : BitVec 16) :
    serialNo.extractLsb' 8 8 ++ serialNo.extractLsb' 0 8 = serialNo ∧
      (serialNo.extractLsb' 8 8 ||| 0x80#8) ++ serialNo.extractLsb' 0 8 = serialNo ||| 0x8000#16 := by
  have hplain : serialNo.extractLsb' 8 8 ++ serialNo.extractLsb' 0 8 = serialNo := by
    ext i hi
    simp only [BitVec.getElem_append]
    split
    · simp
      grind
    · simp
      grind
  refine ⟨hplain,?_⟩
  have hor : (serialNo.extractLsb' 8 8 ||| 0x80#8) ++ (serialNo.extractLsb' 0 8 ||| 0#8) =
      serialNo.extractLsb' 8 8 ++ serialNo.extractLsb' 0 8 ||| 0x80#8 ++ 0#8 := BitVec.or_append.symm
  rw [BitVec.or_zero,hplain] at hor
  exact hor

variable (mbFlag : Byte) (gname : Fin 13 → Byte) (uname : Fin 8 → Byte) (head : Word)

/-- What a child reads of it. -/
def broadcast (mbFlag : Byte) (serialNo : BitVec 16) (gname : Fin 13 → Byte) (uname : Fin 8 → Byte)
    (head : Word) : Candidate :=
  ⟨head.extractLsb' 0 16,head.extractLsb' 16 8,if mbFlag = 0 then 0 else 1,serialNo,
    List.ofFn (if mbFlag = 0 then gname else Function.update gname 12 0),List.ofFn uname⟩

theorem echo_check (serialNo : BitVec 16) :
    coveredSum (echo head (gameData mbFlag serialNo gname uname) uname) =
      ~~~echo head (gameData mbFlag serialNo gname uname) uname 19 := by
  have hcheck : echo head (gameData mbFlag serialNo gname uname) uname 19 =
      ~~~nameSum (List.ofFn uname) (List.ofFn gname) := rfl
  rw [hcheck,BitVec.not_not]
  simp [coveredSum,covered,echo,gameData,nameSum]
  ring

theorem echo_entry (h : serialNo.toNat < 0x8000) :
    recordEntry (echo head (gameData mbFlag serialNo gname uname) uname) =
      broadcast mbFlag serialNo gname uname head := by
  generalize hx : echo head (gameData mbFlag serialNo gname uname) uname = x
  have hid : x 1 ++ x 0 = head.extractLsb' 0 16 := by
    rw [← hx]
    exact BitVec.extractLsb'_append_extractLsb'_eq_extractLsb' rfl
  have hslot : x 2 = head.extractLsb' 16 8 := by rw [← hx]; rfl
  have hserial : x 5 ++ x 4 = if mbFlag = 0 then serialNo else serialNo ||| 0x8000 := by
    have hbytes : x 5 ++ x 4 = (if mbFlag ≠ 0 then serialNo.extractLsb' 8 8 ||| 0x80 else serialNo.extractLsb' 8 8) ++
        serialNo.extractLsb' 0 8 := by rw [← hx]; rfl
    rw [hbytes]
    by_cases hflag : mbFlag = 0
    · rw [if_neg (not_not.mpr hflag),if_pos hflag]
      exact (serialNo_bytes serialNo).1
    · rw [if_pos hflag,if_neg hflag]
      exact (serialNo_bytes serialNo).2
  have hgname : [x 6,x 7,x 8,x 9,x 10,x 11,x 12,x 13,x 14,x 15,x 16,x 17,x 18] =
      List.ofFn (if mbFlag = 0 then gname else Function.update gname 12 0) := by
    rw [← hx]
    by_cases hflag : mbFlag = 0
    · rw [if_pos hflag]
      simp [echo,gameData,hflag]
    · rw [if_neg hflag]
      simp only [echo,gameData]
      simp
      exact fun hzero => absurd hzero hflag
  have huname : [x 20,x 21,x 22,x 23,x 24,x 25,x 26,x 27] = List.ofFn uname := by
    rw [← hx]
    simp [echo]
  obtain ⟨hclear,hkeep⟩ := serialNo_low h
  unfold recordEntry broadcast
  dsimp only
  rw [hid,hslot,hserial,hgname,huname]
  by_cases hflag : mbFlag = 0
  · rw [if_pos hflag,hclear,hkeep,if_pos rfl,if_pos hflag,if_pos hflag]
  · have hset : (serialNo ||| 0x8000) &&& 0x8000 ≠ 0 := by
      rw [BitVec.and_or_distrib_right,hclear]
      decide
    have hrest : (serialNo ||| 0x8000) &&& 0x7FFF = serialNo := by
      rw [BitVec.and_or_distrib_right,hkeep]
      exact BitVec.or_zero
    rw [if_neg hflag,hrest,if_neg hset,if_neg hflag,if_neg hflag]

end Echo

section List

/-- The records a length byte makes the loop read, of at most `fuel`. -/
def rounds : ℕ → Byte → ℕ
  | 0, _ => 0
  | fuel+1, length => if length = 0 then 0 else rounds fuel (length - 7) + 1

theorem rounds_le (fuel : ℕ) (length : Byte) : rounds fuel length ≤ fuel := by
  induction fuel generalizing length with
  | zero => exact Nat.le_refl 0
  | succ fuel ih =>
    unfold rounds
    split_ifs
    · exact Nat.zero_le _
    · exact Nat.succ_le_succ (ih _)

/-- The entry of record `k`, if it passes its check. -/
def entryAt (p : List Byte) (k : ℕ) : Option Candidate := (readRecord (p.drop (28*k))).join

theorem readRecord_some {r : List Byte} (hr : 28 ≤ r.length) : readRecord r = some (entryAt r 0) := by
  obtain ⟨x,rest,rfl⟩ := exists_record hr
  rw [entryAt,Nat.mul_zero,List.drop_zero,readRecord_eq,Option.join_some]

theorem entryAt_drop (r : List Byte) (k : ℕ) : entryAt (r.drop 28) k = entryAt r (k+1) := by
  rw [entryAt,entryAt,List.drop_drop,Nat.mul_succ,Nat.add_comm]

theorem filterMap_range_succ {α : Type*} (f : ℕ → Option α) (n : ℕ) :
    (List.range (n+1)).filterMap f = (f 0).toList ++ (List.range n).filterMap fun k => f (k+1) := by
  rw [List.range_succ_eq_map,List.filterMap_cons,List.filterMap_map]
  cases f 0 with
  | none => rfl
  | some a => rfl

/-- The loop reads whole records only, and stops by itself. -/
theorem readLoop_eq (fuel : ℕ) {r : List Byte} {records : ℕ} {length : Byte} (found : List Candidate)
    (hrecords : records + (fuel+1) = 4) (hr : 28*(fuel+1) ≤ r.length) (hlength : length ≠ 0) :
    readLoop (fuel+1) r records length found = some (records + rounds (fuel+1) length,
      found ++ (List.range (rounds (fuel+1) length)).filterMap (entryAt r)) := by
  induction fuel generalizing r records length found with
  | zero =>
    rw [readLoop,readRecord_some (by omega),rounds,if_neg hlength]
    show (if 3 < records+1 ∨ _ then _ else _) = _
    rw [if_pos (.inl (by omega)),filterMap_range_succ]
    simp [rounds]
  | succ fuel ih =>
    rw [readLoop,readRecord_some (by omega),rounds,if_neg hlength,filterMap_range_succ]
    show (if 3 < records+1 ∨ length - 7 = 0 then _ else _) = _
    by_cases hlast : length - 7 = 0
    · rw [if_pos (.inr hlast),rounds,if_pos hlast]
      simp
    · rw [if_neg (not_or.mpr ⟨by omega,hlast⟩),ih _ (by omega) (by rw [List.length_drop]; omega) hlast]
      simp only [entryAt_drop,List.append_assoc]
      congr 2
      omega

/-- The reader on a packet of 29 words. -/
theorem readParentCandidateList_eq {rx : List Word} (hrx : rx.length = 29) :
    readParentCandidateList rx = some (rounds 4 ((unpackWords rx).getD 1 0),
      (List.range (rounds 4 ((unpackWords rx).getD 1 0))).filterMap (entryAt ((unpackWords rx).drop 4))) := by
  have hlength : (unpackWords rx).length = 116 := by
    unfold unpackWords
    rw [List.length_flatMap]
    simp [hrx]
  unfold readParentCandidateList
  dsimp only
  rw [List.getElem?_eq_getElem (by omega : 1 < (unpackWords rx).length),
    List.getD_eq_getElem _ _ (by omega : 1 < (unpackWords rx).length)]
  generalize (unpackWords rx)[1] = length
  show (if length = 0 then _ else _) = _
  by_cases hzero : length = 0
  · rw [if_pos hzero,rounds,if_pos hzero]
    rfl
  · rw [if_neg hzero,readLoop_eq 3 [] rfl (by rw [List.length_drop]; omega) hzero]
    simp

theorem unpackWords_drop (rx : List Word) (k : ℕ) : (unpackWords rx).drop (4*k) = unpackWords (rx.drop k) := by
  induction k generalizing rx with
  | zero => rfl
  | succ k ih =>
    cases rx with
    | nil => simp [unpackWords]
    | cons w rx =>
      rw [List.drop_succ_cons,← ih]
      unfold unpackWords
      rw [List.flatMap_cons,Nat.mul_succ,Nat.add_comm,← List.drop_drop]
      rfl

theorem unpackWords_append (a b : List Word) : unpackWords (a ++ b) = unpackWords a ++ unpackWords b :=
  List.flatMap_append

/-- A record of the packet that holds the echo of a parent's request. -/
theorem entryAt_echo {mbFlag : Byte} {serialNo : BitVec 16} {gname : Fin 13 → Byte} {uname : Fin 8 → Byte}
    {head : Word} {rx : List Word} {k : ℕ} (hserial : serialNo.toNat < 0x8000)
    (hecho : (rx.drop (1+7*k)).take 7 = head::(configGameData mbFlag serialNo gname uname).params) :
    entryAt ((unpackWords rx).drop 4) k = some (broadcast mbFlag serialNo gname uname head) := by
  have hsplit : (unpackWords rx).drop (4*(1+7*k)) =
      List.ofFn (echo head (gameData mbFlag serialNo gname uname) uname) ++ unpackWords (rx.drop (1+7*k+7)) := by
    rw [unpackWords_drop,← List.take_append_drop 7 (rx.drop (1+7*k)),unpackWords_append,hecho,
      configGameData,unpackWords_echo,List.drop_drop]
  have hdrop : ((unpackWords rx).drop 4).drop (28*k) = (unpackWords rx).drop (4*(1+7*k)) := by
    rw [List.drop_drop]
    congr 1
    omega
  rw [entryAt,hdrop,hsplit,readRecord_eq,if_pos (echo_check mbFlag gname uname head serialNo),
    echo_entry mbFlag gname uname head hserial,Option.join_some]

end List

/-- The game broadcast. What a parent configures is what every child reads that finds the six words in a
record of the adapter's answer; a record with one changed byte under the check is not read; and for every
length byte the reader stops after four records at most, never having left the packet. -/
theorem game_broadcast_round_trip :
    (∀ (mbFlag : Byte) (serialNo : BitVec 16) (gname : Fin 13 → Byte) (uname : Fin 8 → Byte) (head : Word)
      (rx : List Word) (k : ℕ), serialNo.toNat < 0x8000 → rx.length = 29 →
      k < rounds 4 ((unpackWords rx).getD 1 0) →
      (rx.drop (1+7*k)).take 7 = head::(configGameData mbFlag serialNo gname uname).params →
      (configGameData mbFlag serialNo gname uname).params.length = 6 ∧
        ∃ n found, readParentCandidateList rx = some (n,found) ∧
          broadcast mbFlag serialNo gname uname head ∈ found) ∧
    (∀ (x : Fin 28 → Byte) (rest : List Byte) (c : Candidate),
      readRecord (List.ofFn x ++ rest) = some (some c) → ∀ o ∈ covered, ∀ b, b ≠ x o →
        readRecord (List.ofFn (Function.update x o b) ++ rest) = some none) ∧
    (∀ rx : List Word, rx.length = 29 → ∃ n found, readParentCandidateList rx = some (n,found) ∧
      n ≤ 4 ∧ found.length ≤ 4 ∧ found = (List.range n).filterMap (entryAt ((unpackWords rx).drop 4))) := by
  refine ⟨?_,?_,?_⟩
  · intro mbFlag serialNo gname uname head rx k hserial hrx hk hecho
    have hwords := congrArg List.length hecho
    rw [List.length_take,List.length_drop,List.length_cons] at hwords
    have hk4 := Nat.lt_of_lt_of_le hk (rounds_le 4 _)
    refine ⟨by omega,_,_,readParentCandidateList_eq hrx,?_⟩
    exact List.mem_filterMap.mpr ⟨k,List.mem_range.mpr hk,entryAt_echo hserial hecho⟩
  · intro x rest c haccept o ho b hb
    rw [readRecord_eq] at haccept
    split_ifs at haccept with hcheck
    · exact readRecord_changed hcheck ho hb rest
    · cases haccept
  · intro rx hrx
    have hle := rounds_le 4 ((unpackWords rx).getD 1 0)
    refine ⟨_,_,readParentCandidateList_eq hrx,hle,?_,rfl⟩
    exact Nat.le_trans (List.length_filterMap_le _ _) (by rw [List.length_range]; exact hle)

/-- A parent with serial number 0x1234 that offers a multiboot program, alone in the answer. -/
theorem game_broadcast_round_trip_single :
    ∃ n found, readParentCandidateList
        (0x9966079D::0x00010203::(configGameData 1 0x1234 (fun i => BitVec.ofNat 8 (i+65)) fun _ => 0x41).params ++
          List.replicate 21 0) = some (n,found) ∧
      broadcast 1 0x1234 (fun i => BitVec.ofNat 8 (i+65)) (fun _ => 0x41) 0x00010203 ∈ found :=
  (game_broadcast_round_trip.1 1 0x1234 (fun i => BitVec.ofNat 8 (i+65)) (fun _ => 0x41) 0x00010203 _ 0
    (by decide) (by decide +kernel) (by decide +kernel) (by decide +kernel)).2

end Rfu
end AgbTools
