import AgbTools.ThumbProgram
import AgbTools.LongDivision

/-! The 32-bit division and remainder routines of lib1thumb.asm, line for line. The four routines
share most of their text; what they share is one definition with the label names as parameters. -/
namespace AgbTools
namespace Thumb
namespace Divide

open Program LongDivision

inductive Label
  | loop1 | lbignum | loop2 | loop3
  | over1 | over2 | over3 | over4 | over5 | over6 | over7 | over8 | over9 | over10
  | lgotResult | ldiv0
deriving DecidableEq, Repr

abbrev Code := List (Line Label)

-- the names the source gives the registers
def dividend : Register := .r0
def divisor : Register := .r1
def result : Register := .r2
def overdone : Register := .r2
def curbit : Register := .r3
def work : Register := .r4

section Text

/-- Shift the divisor up, four bits at a time and then bit by bit, until it is not below the
dividend or has its top bit set. -/
def alignDivisor : Code :=
  [.movImm work 1,
   .lsl work work 28,
   .label .loop1,
   .cmp divisor work,
   .bcs .lbignum,
   .cmp divisor dividend,
   .bcs .lbignum,
   .lsl divisor divisor 4,
   .lsl curbit curbit 4,
   .b .loop1,
   .label .lbignum,
   .lsl work work 3,
   .label .loop2,
   .cmp divisor work,
   .bcs .loop3,
   .cmp divisor dividend,
   .bcs .loop3,
   .lsl divisor divisor 1,
   .lsl curbit curbit 1,
   .b .loop2]

/-- Test for one of the lower three subtractions of a pass and note its bit in the result. -/
def quotientBit (k : ℕ) (past : Label) : Code :=
  [.lsr work divisor k,
   .cmp dividend work,
   .bcc past,
   .sub dividend dividend work,
   .lsr work curbit k,
   .orr result work,
   .label past]

/-- Early termination, or on to the next four bits. -/
def nextPass (out : Label) : Code :=
  [.cmpImm dividend 0,
   .beq out,
   .lsr curbit curbit 4,
   .beq out,
   .lsr divisor divisor 4,
   .b .loop3]

/-- The first subtraction of a pass. -/
def firstBit (past : Label) : Code :=
  [.cmp dividend divisor,
   .bcc past,
   .sub dividend dividend divisor,
   .orr result curbit,
   .label past]

def divideLoop (a b c d : Label) : Code :=
  .label .loop3 :: firstBit a++quotientBit 1 b++quotientBit 2 c++quotientBit 3 d++
    nextPass .lgotResult

/-- As `quotientBit`, with the rotated bit noted as overdone. -/
def overdoneBit (k : ℕ) (past : Label) : Code :=
  [.lsr work divisor k,
   .cmp dividend work,
   .bcc past,
   .sub dividend dividend work,
   .mov .ip curbit,
   .movImm work (BitVec.ofNat 32 k),
   .ror curbit work,
   .orr overdone curbit,
   .mov curbit .ip,
   .label past]

def firstSubtract (past : Label) : Code :=
  [.movImm overdone 0,
   .cmp dividend divisor,
   .bcc past,
   .sub dividend dividend divisor,
   .label past]

def remainderLoop (a b c d out : Label) : Code :=
  .label .loop3 :: firstSubtract a++overdoneBit 1 b++overdoneBit 2 c++overdoneBit 3 d++
    .mov .ip curbit :: nextPass out

/-- Add back a subtraction that was noted as overdone. -/
def addBack (k : ℕ) (past : Label) : Code :=
  [.mov curbit .ip,
   .movImm work (BitVec.ofNat 32 k),
   .ror curbit work,
   .tst overdone curbit,
   .beq past,
   .lsr work divisor k,
   .add dividend dividend work,
   .label past]

def divideByZero : Code :=
  [.label .ldiv0,
   .push .lr,
   .blDiv0,
   .movImm .r0 0,
   .popPc]

def udivsi3Entry : Code :=
  [.cmpImm divisor 0,
   .beq .ldiv0,
   .movImm curbit 1,
   .movImm result 0,
   .push work,
   .cmp dividend divisor,
   .bcc .lgotResult]

def udivsi3Exit : Code :=
  [.label .lgotResult,
   .mov .r0 result,
   .pop work,
   .ret]

def udivsi3 : Code :=
  udivsi3Entry++alignDivisor++divideLoop .over1 .over2 .over3 .over4++udivsi3Exit++divideByZero

def umodsi3Entry : Code :=
  [.cmpImm divisor 0,
   .beq .ldiv0,
   .movImm curbit 1,
   .cmp dividend divisor,
   .bcs .over1,
   .ret,
   .label .over1,
   .push work]

def umodsi3Exit : Code :=
  [.label .over6,
   .movImm work 0xe,
   .lsl work work 28,
   .and overdone work,
   .bne .over7,
   .pop work,
   .ret,
   .label .over7]

def umodsi3 : Code :=
  umodsi3Entry++alignDivisor++remainderLoop .over2 .over3 .over4 .over5 .over6++umodsi3Exit++
    addBack 3 .over8++addBack 2 .over9++addBack 1 .over10++.pop work :: .ret :: divideByZero

def divsi3Entry : Code :=
  [.cmpImm divisor 0,
   .beq .ldiv0,
   .push work,
   .mov work dividend,
   .eor work divisor,
   .mov .ip work,
   .movImm curbit 1,
   .movImm result 0,
   .cmpImm divisor 0,
   .bpl .over1,
   .neg divisor divisor,
   .label .over1,
   .cmpImm dividend 0,
   .bpl .over2,
   .neg dividend dividend,
   .label .over2,
   .cmp dividend divisor,
   .bcc .lgotResult]

def divsi3Exit : Code :=
  [.label .lgotResult,
   .mov .r0 result,
   .mov work .ip,
   .cmpImm work 0,
   .bpl .over7,
   .neg .r0 .r0,
   .label .over7,
   .pop work,
   .ret]

def divsi3 : Code :=
  divsi3Entry++alignDivisor++divideLoop .over3 .over4 .over5 .over6++divsi3Exit++divideByZero

def modsi3Entry : Code :=
  [.movImm curbit 1,
   .cmpImm divisor 0,
   .beq .ldiv0,
   .bpl .over1,
   .neg divisor divisor,
   .label .over1,
   .push work,
   .push dividend,
   .cmpImm dividend 0,
   .bpl .over2,
   .neg dividend dividend,
   .label .over2,
   .cmp dividend divisor,
   .bcc .lgotResult]

def modsi3Fixup : Code :=
  [.label .over7,
   .movImm work 0xe,
   .lsl work work 28,
   .and overdone work,
   .beq .lgotResult]

def modsi3Exit : Code :=
  [.pop work,
   .cmpImm work 0,
   .bpl .over10,
   .neg dividend dividend,
   .label .over10,
   .pop work,
   .ret]

def modsi3 : Code :=
  modsi3Entry++alignDivisor++remainderLoop .over3 .over4 .over5 .over6 .over7++modsi3Fixup++
    addBack 3 .over8++addBack 2 .over9++addBack 1 .lgotResult++modsi3Exit++divideByZero

end Text

/-- A routine entered from its first line. -/
def call (prog : Code) (s : Cpu) : Status Label := .running prog s

section Pieces

variable {prog rest : Code} {link : Word} {past : Label}

/-- The dividend after one test for a subtraction. -/
def less (x y : Word) : Word := if y ≤ x then x-y else x

theorem quotientBit_leads (hpast : seek past prog = some rest) (k : ℕ) (s : Cpu) :
    ∃ w f, Leads prog link (.running (quotientBit k past++rest) s)
      (.running rest { s with
        r0 := less s.r0 (s.r1 >>> k)
        r2 := if s.r1 >>> k ≤ s.r0 then s.r2 ||| s.r3 >>> k else s.r2
        r4 := w
        flags := f }) := by
  unfold less
  by_cases h : s.r1 >>> k ≤ s.r0
  · have hc : (!decide (s.r1 >>> k ≤ s.r0)) = false := by rw [decide_eq_true h]; rfl
    rw [if_pos h,if_pos h]
    exact ⟨_,_,Leads.trans ⟨3,branch_not_taken hc _⟩ ⟨4,rfl⟩⟩
  · have hc : (!decide (s.r1 >>> k ≤ s.r0)) = true := by rw [decide_eq_false h]; rfl
    rw [if_neg h,if_neg h]
    exact ⟨_,_,⟨3,branch_taken hpast hc _⟩⟩

theorem firstBit_leads (hpast : seek past prog = some rest) (s : Cpu) :
    ∃ f, Leads prog link (.running (firstBit past++rest) s)
      (.running rest { s with
        r0 := less s.r0 s.r1
        r2 := if s.r1 ≤ s.r0 then s.r2 ||| s.r3 else s.r2
        flags := f }) := by
  unfold less
  by_cases h : s.r1 ≤ s.r0
  · have hc : (!decide (s.r1 ≤ s.r0)) = false := by rw [decide_eq_true h]; rfl
    rw [if_pos h,if_pos h]
    exact ⟨_,Leads.trans ⟨2,branch_not_taken hc _⟩ ⟨3,rfl⟩⟩
  · have hc : (!decide (s.r1 ≤ s.r0)) = true := by rw [decide_eq_false h]; rfl
    rw [if_neg h,if_neg h]
    exact ⟨_,⟨2,branch_taken hpast hc _⟩⟩

theorem firstSubtract_leads (hpast : seek past prog = some rest) (s : Cpu) :
    ∃ f, Leads prog link (.running (firstSubtract past++rest) s)
      (.running rest { s with r0 := less s.r0 s.r1, r2 := 0, flags := f }) := by
  unfold less
  by_cases h : s.r1 ≤ s.r0
  · have hc : (!decide (s.r1 ≤ s.r0)) = false := by rw [decide_eq_true h]; rfl
    rw [if_pos h]
    exact ⟨_,Leads.trans ⟨3,branch_not_taken hc _⟩ ⟨2,rfl⟩⟩
  · have hc : (!decide (s.r1 ≤ s.r0)) = true := by rw [decide_eq_false h]; rfl
    rw [if_neg h]
    exact ⟨_,⟨3,branch_taken hpast hc _⟩⟩

/-- A rotation by a small constant held in the work register. -/
theorem ror_leads {k : ℕ} (hk : 0 < k) (hk' : k < 32) {s : Cpu} (hs : s.r4 = BitVec.ofNat 32 k) :
    Leads prog link (.running (.ror curbit work :: rest) s)
      (.running rest (s.write .r3 (s.r3.rotateRight k) (s.r3.rotateRight k).msb)) := by
  have hamount : s.r4.toNat%256 = k := by
    rw [hs,BitVec.toNat_ofNat]
    omega
  refine ⟨1,?_⟩
  change Status.running rest (if s.r4.toNat%256 = 0 then _ else _) = _
  rw [hamount,if_neg (by omega)]
  change Status.running rest (s.write .r3 (s.r3.rotateRight (s.r4.toNat%256))
    (s.r3.rotateRight (s.r4.toNat%256)).msb) = _
  rw [hamount]

theorem overdoneBit_leads (hpast : seek past prog = some rest) {k : ℕ} (hk : 0 < k) (hk' : k < 32)
    (s : Cpu) :
    ∃ v w f, Leads prog link (.running (overdoneBit k past++rest) s)
      (.running rest { s with
        r0 := less s.r0 (s.r1 >>> k)
        r2 := if s.r1 >>> k ≤ s.r0 then s.r2 ||| s.r3.rotateRight k else s.r2
        r4 := w
        ip := v
        flags := f }) := by
  unfold less
  by_cases h : s.r1 >>> k ≤ s.r0
  · have hc : (!decide (s.r1 >>> k ≤ s.r0)) = false := by rw [decide_eq_true h]; rfl
    rw [if_pos h,if_pos h]
    have hsub : Leads prog link (.running (overdoneBit k past++rest) s) _ :=
      Leads.trans ⟨3,branch_not_taken hc _⟩ ⟨3,rfl⟩
    exact ⟨_,_,_,hsub.trans (.trans (ror_leads hk hk' rfl) ⟨3,rfl⟩)⟩
  · have hc : (!decide (s.r1 >>> k ≤ s.r0)) = true := by rw [decide_eq_false h]; rfl
    rw [if_neg h,if_neg h]
    exact ⟨_,_,_,⟨3,branch_taken hpast hc _⟩⟩

theorem addBack_leads (hpast : seek past prog = some rest) {k : ℕ} (hk : 0 < k) (hk' : k < 32)
    (s : Cpu) :
    ∃ v w f, Leads prog link (.running (addBack k past++rest) s)
      (.running rest { s with
        r0 := if s.r2 &&& s.ip.rotateRight k = 0 then s.r0 else s.r0+s.r1 >>> k
        r3 := v
        r4 := w
        flags := f }) := by
  have hrotate : ∃ f : Flags, f.z = decide (s.r2 &&& s.ip.rotateRight k = 0) ∧
      Leads prog link (.running (addBack k past++rest) s)
        (.running ((addBack k past).drop 4++rest)
          { s with r3 := s.ip.rotateRight k, r4 := BitVec.ofNat 32 k, flags := f }) :=
    ⟨_,rfl,Leads.trans ⟨2,rfl⟩ (.trans (ror_leads hk hk' rfl) ⟨1,rfl⟩)⟩
  obtain ⟨f,hz,hrotate⟩ := hrotate
  by_cases h : s.r2 &&& s.ip.rotateRight k = 0
  · rw [decide_eq_true h] at hz
    rw [if_pos h]
    exact ⟨_,_,_,hrotate.trans ⟨1,branch_taken hpast hz _⟩⟩
  · rw [decide_eq_false h] at hz
    rw [if_neg h]
    exact ⟨_,_,_,hrotate.trans (.trans ⟨1,branch_not_taken hz _⟩ ⟨3,rfl⟩)⟩

end Pieces

section Align

variable {prog rest body : Code} {link : Word}

/-- The labels of `alignDivisor` are found in the routine where its text has them. -/
structure Aligns (prog rest body : Code) : Prop where
  loop1 : seek .loop1 prog = some (alignDivisor.drop 3++rest)
  lbignum : seek .lbignum prog = some (alignDivisor.drop 11++rest)
  loop2 : seek .loop2 prog = some (alignDivisor.drop 13++rest)
  loop3 : seek .loop3 prog = some body

/-- Divisor and current bit shifted up alike by `k`. -/
structure Shifted (d k : ℕ) (s : Cpu) : Prop where
  divisor : s.r1.toNat = d*2^k
  curbit : s.r3.toNat = 2^k

theorem Shifted.lt {d k : ℕ} {s : Cpu} (h : Shifted d k s) : d*2^k < 2^32 ∧ 2^k < 2^32 := by
  rw [← h.divisor,← h.curbit]
  exact ⟨s.r1.isLt,s.r3.isLt⟩

theorem shiftLeft_toNat_of_lt {w : Word} {d k j : ℕ} (h : w.toNat = d*2^k) (hlt : d*2^(k+j) < 2^32) :
    (w <<< j).toNat = d*2^(k+j) := by
  rw [BitVec.toNat_shiftLeft,Nat.shiftLeft_eq,h,Nat.mul_assoc,← pow_add,Nat.mod_eq_of_lt hlt]

theorem Shifted.shift {d k j : ℕ} {s : Cpu} (h : Shifted d k s) (hd : 0 < d)
    (hlt : d*2^(k+j) < 2^32) (f : Flags) :
    Shifted d (k+j) { s with r1 := s.r1 <<< j, r3 := s.r3 <<< j, flags := f } := by
  have hone : 2^(k+j) ≤ d*2^(k+j) := Nat.le_mul_of_pos_left _ hd
  constructor
  · exact shiftLeft_toNat_of_lt h.divisor hlt
  · have hbit : s.r3.toNat = 1*2^k := by rw [h.curbit,Nat.one_mul]
    have := @shiftLeft_toNat_of_lt s.r3 1 k j hbit (by omega)
    rwa [Nat.one_mul] at this

theorem lsl_work_leads {code : Code} (k : ℕ) (s : Cpu) :
    ∃ f, Leads prog link (.running (.lsl work work k :: code) s)
      (.running code { s with r4 := s.r4 <<< k, flags := f }) := ⟨_,1,rfl⟩

/-- One test of the first loop: out of it, or four bits up. -/
theorem loop1_step (ha : Aligns prog rest body) (s : Cpu) :
    ((s.r4 ≤ s.r1 ∨ s.r0 ≤ s.r1) ∧ ∃ f, Leads prog link (.running (alignDivisor.drop 3++rest) s)
      (.running (alignDivisor.drop 11++rest) { s with flags := f })) ∨
    (s.r1 < s.r4 ∧ s.r1 < s.r0 ∧ ∃ f, Leads prog link (.running (alignDivisor.drop 3++rest) s)
      (.running (alignDivisor.drop 3++rest)
        { s with r1 := s.r1 <<< 4, r3 := s.r3 <<< 4, flags := f })) := by
  by_cases hw : s.r4 ≤ s.r1
  · exact .inl ⟨.inl hw,_,⟨2,branch_taken ha.lbignum (decide_eq_true hw) _⟩⟩
  by_cases hn : s.r0 ≤ s.r1
  · exact .inl ⟨.inr hn,_,.trans ⟨2,branch_not_taken (decide_eq_false hw) _⟩
      ⟨2,branch_taken ha.lbignum (decide_eq_true hn) _⟩⟩
  · exact .inr ⟨BitVec.not_le.mp hw,BitVec.not_le.mp hn,_,
      .trans ⟨2,branch_not_taken (decide_eq_false hw) _⟩
        (.trans ⟨2,branch_not_taken (decide_eq_false hn) _⟩ ⟨3,goto_of_seek ha.loop1 _⟩)⟩

theorem loop2_step (ha : Aligns prog rest body) (s : Cpu) :
    ((s.r4 ≤ s.r1 ∨ s.r0 ≤ s.r1) ∧ ∃ f, Leads prog link (.running (alignDivisor.drop 13++rest) s)
      (.running body { s with flags := f })) ∨
    (s.r1 < s.r4 ∧ s.r1 < s.r0 ∧ ∃ f, Leads prog link (.running (alignDivisor.drop 13++rest) s)
      (.running (alignDivisor.drop 13++rest)
        { s with r1 := s.r1 <<< 1, r3 := s.r3 <<< 1, flags := f })) := by
  by_cases hw : s.r4 ≤ s.r1
  · exact .inl ⟨.inl hw,_,⟨2,branch_taken ha.loop3 (decide_eq_true hw) _⟩⟩
  by_cases hn : s.r0 ≤ s.r1
  · exact .inl ⟨.inr hn,_,.trans ⟨2,branch_not_taken (decide_eq_false hw) _⟩
      ⟨2,branch_taken ha.loop3 (decide_eq_true hn) _⟩⟩
  · exact .inr ⟨BitVec.not_le.mp hw,BitVec.not_le.mp hn,_,
      .trans ⟨2,branch_not_taken (decide_eq_false hw) _⟩
        (.trans ⟨2,branch_not_taken (decide_eq_false hn) _⟩ ⟨3,goto_of_seek ha.loop2 _⟩)⟩

theorem limit1_toNat : ((1 : Word) <<< 28).toNat = 2^28 := by decide

theorem limit2_toNat : ((1 : Word) <<< 28 <<< 3).toNat = 2^31 := by decide

/-- The first loop keeps the shift a multiple of four, so that it ends at 28 at the latest. -/
theorem loop1_leads (ha : Aligns prog rest body) {d : ℕ} (hd : 0 < d) (m : ℕ) :
    ∀ (k : ℕ) (s : Cpu), Shifted d k s → 4 ∣ k → k ≤ 28 → 28 ≤ k+m → s.r4 = (1 : Word) <<< 28 →
    ∃ k' r1 r3 f, Leads prog link (.running (alignDivisor.drop 3++rest) s)
      (.running (alignDivisor.drop 11++rest) { s with r1 := r1, r3 := r3, flags := f }) ∧
      Shifted d k' { s with r1 := r1, r3 := r3, flags := f } ∧ k' ≤ 28 := by
  induction m with
  | zero =>
    intro k s hs hdvd hk hkm hw
    obtain ⟨-,f,hout⟩ | ⟨hlt,-⟩ := @loop1_step prog rest body link ha s
    · exact ⟨k,s.r1,s.r3,f,hout,⟨hs.divisor,hs.curbit⟩,hk⟩
    · rw [BitVec.lt_def,hs.divisor,hw,limit1_toNat] at hlt
      have hpow : 2^28 ≤ 2^k := Nat.pow_le_pow_right (by omega) (by omega)
      have hle : 2^k ≤ d*2^k := Nat.le_mul_of_pos_left _ hd
      exact absurd (hpow.trans hle) (Nat.not_le.mpr hlt)
  | succ m ih =>
    intro k s hs hdvd hk hkm hw
    obtain ⟨-,f,hout⟩ | ⟨hlt,-,f,hup⟩ := @loop1_step prog rest body link ha s
    · exact ⟨k,s.r1,s.r3,f,hout,⟨hs.divisor,hs.curbit⟩,hk⟩
    rw [BitVec.lt_def,hs.divisor,hw,limit1_toNat] at hlt
    have hklt : k < 28 := by
      have hle : 2^k ≤ d*2^k := Nat.le_mul_of_pos_left _ hd
      exact (Nat.pow_lt_pow_iff_right (by omega)).mp (Nat.lt_of_le_of_lt hle hlt)
    have hroom : d*2^(k+4) < 2^32 := by
      rw [pow_add,← Nat.mul_assoc]
      omega
    obtain ⟨k',r1,r3,f',hrun,hs',hk'⟩ := ih (k+4) _ (hs.shift hd hroom f) (by omega) (by omega)
      (by omega) hw
    exact ⟨k',r1,r3,f',hup.trans hrun,hs',hk'⟩

theorem loop2_leads (ha : Aligns prog rest body) {d n : ℕ} (hd : 0 < d) (m : ℕ) :
    ∀ (k : ℕ) (s : Cpu), Shifted d k s → 32 ≤ k+m → (28 < k → d*2^(k-1) < n) → s.r0.toNat = n →
    s.r4 = (1 : Word) <<< 28 <<< 3 →
    ∃ k' r1 r3 f, Leads prog link (.running (alignDivisor.drop 13++rest) s)
      (.running body { s with r1 := r1, r3 := r3, flags := f }) ∧
      Shifted d k' { s with r1 := r1, r3 := r3, flags := f } ∧ n < d*2^(k'+1) ∧
      (28 < k' → d*2^(k'-1) < n) ∧ (n ≤ d*2^k' ∨ 2^31 ≤ d*2^k') := by
  induction m with
  | zero =>
    intro k s hs hkm
    have hpow : 2^32 ≤ 2^k := Nat.pow_le_pow_right (by omega) (by omega)
    have := hs.lt.2
    omega
  | succ m ih =>
    intro k s hs hkm hlast hn hw
    obtain ⟨hstop,f,hout⟩ | ⟨hlt,hlt',f,hup⟩ := @loop2_step prog rest body link ha s
    · refine ⟨k,s.r1,s.r3,f,hout,⟨hs.divisor,hs.curbit⟩,?_,hlast,?_⟩
      all_goals
        rw [BitVec.le_def,BitVec.le_def,hs.divisor,hn,hw,limit2_toNat] at hstop
      · have := s.r0.isLt
        have := Nat.mul_pos hd (Nat.two_pow_pos k)
        rw [pow_succ,← Nat.mul_assoc]
        omega
      · exact hstop.symm
    rw [BitVec.lt_def,hs.divisor,hw,limit2_toNat] at hlt
    rw [BitVec.lt_def,hs.divisor,hn] at hlt'
    have hroom : d*2^(k+1) < 2^32 := by
      rw [pow_succ,← Nat.mul_assoc]
      omega
    obtain ⟨k',r1,r3,f',hrun,hs',hk',hl',hstop⟩ := ih (k+1) _ (hs.shift hd hroom f) (by omega)
      (fun _ => hlt') hn hw
    exact ⟨k',r1,r3,f',hup.trans hrun,hs',hk',hl',hstop⟩

/-- The divisor ends shifted up by some `k`: more than half of the dividend, and by more than 28 only
when half of it is still below the dividend. -/
theorem alignDivisor_leads (ha : Aligns prog rest body) (s : Cpu) (hd : s.r1 ≠ 0) (hb : s.r3 = 1) :
    ∃ k r1 r3 r4 f, Leads prog link (.running (alignDivisor++rest) s)
      (.running body { s with r1 := r1, r3 := r3, r4 := r4, flags := f }) ∧
      Shifted s.r1.toNat k { s with r1 := r1, r3 := r3, r4 := r4, flags := f } ∧
      s.r0.toNat < s.r1.toNat*2^(k+1) ∧ (28 < k → s.r1.toNat*2^(k-1) < s.r0.toNat) ∧
      (s.r0.toNat ≤ s.r1.toNat*2^k ∨ 2^31 ≤ s.r1.toNat*2^k) := by
  have hpos : 0 < s.r1.toNat := by
    rw [Nat.pos_iff_ne_zero]
    intro h0
    exact hd (BitVec.eq_of_toNat_eq h0)
  obtain ⟨f₀,hone⟩ : ∃ f, Leads prog link (.running (alignDivisor++rest) s)
      (.running (alignDivisor.drop 1++rest) { s with r4 := 1, flags := f }) := ⟨_,1,rfl⟩
  obtain ⟨f,hlimit⟩ := @lsl_work_leads prog link (alignDivisor.drop 2++rest) 28
    { s with r4 := 1, flags := f₀ }
  have hstart := hone.trans (hlimit.trans ⟨1,rfl⟩)
  have hs : Shifted s.r1.toNat 0 { s with r4 := (1 : Word) <<< 28, flags := f } := by
    constructor
    · change s.r1.toNat = s.r1.toNat*2^0
      rw [pow_zero,Nat.mul_one]
    · change s.r3.toNat = 2^0
      rw [hb]
      rfl
  obtain ⟨k,r1,r3,f,hrun,hs,hk⟩ := @loop1_leads prog rest body link ha _ hpos 28 0 _ hs (by omega)
    (by omega) (by omega) rfl
  obtain ⟨f',hlimit'⟩ := @lsl_work_leads prog link (alignDivisor.drop 12++rest) 3
    { s with r1 := r1, r3 := r3, r4 := (1 : Word) <<< 28, flags := f }
  have hbig := hlimit'.trans ⟨1,rfl⟩
  obtain ⟨k',r1',r3',f'',hrun',hs',hlt,hlast,hstop⟩ := @loop2_leads prog rest body link ha _
    s.r0.toNat hpos 32 k { s with r1 := r1, r3 := r3, r4 := (1 : Word) <<< 28 <<< 3, flags := f' }
    ⟨hs.divisor,hs.curbit⟩ (by omega) (by omega) rfl rfl
  exact ⟨k',r1',r3',_,f'',hstart.trans (hrun.trans (hbig.trans hrun')),hs',hlt,hlast,hstop⟩

end Align

section Words

variable {n d k i : ℕ} {x y b q : Word}

theorem less_toNat (x y : Word) :
    (less x y).toNat = if y.toNat ≤ x.toNat then x.toNat-y.toNat else x.toNat := by
  unfold less
  by_cases h : y ≤ x
  · rw [if_pos h,if_pos (BitVec.le_def.mp h),BitVec.toNat_sub_of_le h]
  · rw [if_neg h,if_neg (mt BitVec.le_def.mpr h)]

theorem shifted_right (h : y.toNat = d*2^k) (hi : i ≤ k) : (y >>> i).toNat = d*2^(k-i) := by
  have hsplit : d*2^k = d*2^(k-i)*2^i := by
    rw [Nat.mul_assoc,← pow_add,Nat.sub_add_cancel hi]
  rw [BitVec.toNat_ushiftRight,Nat.shiftRight_eq_div_pow,h,hsplit,
    Nat.mul_div_cancel _ (Nat.two_pow_pos i)]

/-- A subtraction at a bit the divisor reaches decides that bit. -/
theorem bit_decided (hy : y.toNat = d*2^k) (hb : b.toNat = 2^k) (hi : i ≤ k)
    (h : Decided n d (k-i+1) x.toNat q.toNat) :
    Decided n d (k-i) (less x (y >>> i)).toNat
      (if y >>> i ≤ x then q ||| b >>> i else q).toNat := by
  have hbit : (b >>> i).toNat = 2^(k-i) := by
    have := @shifted_right 1 k i b (by rw [hb,Nat.one_mul]) hi
    rwa [Nat.one_mul] at this
  have hor : (q ||| b >>> i).toNat = q.toNat+2^(k-i) := by
    obtain ⟨c,hc⟩ := h.dvd
    rw [BitVec.toNat_or,hbit,hc,← Nat.two_pow_add_eq_or_of_lt (Nat.pow_lt_pow_right (by omega) (by omega))]
  have hstep := h.bit
  rw [less_toNat,shifted_right hy hi]
  by_cases hle : y >>> i ≤ x
  · have hle' := BitVec.le_def.mp hle
    rw [shifted_right hy hi] at hle'
    rw [if_pos hle,hor,if_pos hle']
    rwa [if_pos hle',if_pos hle'] at hstep
  · have hle' := mt BitVec.le_def.mpr hle
    rw [shifted_right hy hi] at hle'
    rw [if_neg hle,if_neg hle']
    rwa [if_neg hle',if_neg hle'] at hstep

/-- A bit shifted out at the bottom leaves the result alone. -/
theorem bit_past (hb : b.toNat = 2^k) (hi : k < i) {p : Prop} [Decidable p] :
    (if p then q ||| b >>> i else q) = q := by
  have hzero : b >>> i = 0 := by
    apply BitVec.eq_of_toNat_eq
    rw [BitVec.toNat_ushiftRight,Nat.shiftRight_eq_div_pow,hb]
    exact Nat.div_eq_of_lt (Nat.pow_lt_pow_right (by omega) hi)
  have hor : q ||| (0 : Word) = q := BitVec.or_zero
  rw [hzero,hor,ite_self]

/-- After the test at bit `k-i` of a pass: the bits from there on are decided, and all of them once
the divisor is shifted back to its place. -/
structure Tested (n d k i : ℕ) (x q : Word) : Prop where
  decided : i ≤ k → Decided n d (k-i) x.toNat q.toNat
  quotient : k ≤ i → q.toNat = n/d

theorem Tested.first (hy : y.toNat = d*2^k) (hb : b.toNat = 2^k)
    (h : Decided n d (k+1) x.toNat q.toNat) :
    Tested n d k 0 (less x y) (if y ≤ x then q ||| b else q) := by
  have hbit := @bit_decided n d k 0 x y b q hy hb (Nat.zero_le k) h
  rw [BitVec.ushiftRight_zero,BitVec.ushiftRight_zero] at hbit
  refine ⟨fun _ => hbit,fun hk => ?_⟩
  obtain rfl : k = 0 := by omega
  exact hbit.div_mod.1.symm

theorem Tested.next (hy : y.toNat = d*2^k) (hb : b.toNat = 2^k) (h : Tested n d k i x q) :
    Tested n d k (i+1) (less x (y >>> (i+1)))
      (if y >>> (i+1) ≤ x then q ||| b >>> (i+1) else q) := by
  by_cases hi : i+1 ≤ k
  · have hdec := h.decided (by omega)
    rw [show k-i = k-(i+1)+1 by omega] at hdec
    have hbit := bit_decided hy hb hi hdec
    refine ⟨fun _ => hbit,fun hk => ?_⟩
    rw [show k-(i+1) = 0 by omega] at hbit
    exact hbit.div_mod.1.symm
  · refine ⟨fun hk => absurd hk hi,fun _ => ?_⟩
    rw [bit_past hb (by omega)]
    exact h.quotient (by omega)

end Words

section DivideLoop

/-- What follows a label of `divideLoop`, up to the end of the pass and the code behind the loop. -/
def passFrom3 (d : Label) (tail : Code) : Code := quotientBit 3 d++(nextPass .lgotResult++tail)
def passFrom2 (c d : Label) (tail : Code) : Code := quotientBit 2 c++passFrom3 d tail
def passFrom1 (b c d : Label) (tail : Code) : Code := quotientBit 1 b++passFrom2 c d tail
def pass (a b c d : Label) (tail : Code) : Code := firstBit a++passFrom1 b c d tail

structure DivideLoop (prog : Code) (a b c d : Label) (tail out : Code) : Prop where
  loop3 : seek .loop3 prog = some (pass a b c d tail)
  over1 : seek a prog = some (passFrom1 b c d tail)
  over2 : seek b prog = some (passFrom2 c d tail)
  over3 : seek c prog = some (passFrom3 d tail)
  over4 : seek d prog = some (nextPass .lgotResult++tail)
  out : seek .lgotResult prog = some out

variable {prog tail out : Code} {link : Word} {la lb lc ld : Label} {n d k : ℕ}

/-- One pass decides four more bits, or all that are left. -/
theorem pass_leads (hl : DivideLoop prog la lb lc ld tail out) {s : Cpu} (hs : Shifted d k s)
    (h : Decided n d (k+1) s.r0.toNat s.r2.toNat) :
    ∃ r0 r2 r4 f, Leads prog link (.running (pass la lb lc ld tail) s)
      (.running (nextPass .lgotResult++tail) { s with r0 := r0, r2 := r2, r4 := r4, flags := f }) ∧
      Tested n d k 3 r0 r2 := by
  obtain ⟨f₀,h₀⟩ := @firstBit_leads prog _ link la hl.over1 s
  obtain ⟨w₁,f₁,h₁⟩ := @quotientBit_leads prog _ link lb hl.over2 1 _
  obtain ⟨w₂,f₂,h₂⟩ := @quotientBit_leads prog _ link lc hl.over3 2 _
  obtain ⟨w₃,f₃,h₃⟩ := @quotientBit_leads prog _ link ld hl.over4 3 _
  have ht₀ := Tested.first hs.divisor hs.curbit h
  have ht₁ := Tested.next hs.divisor hs.curbit ht₀
  have ht₂ := Tested.next hs.divisor hs.curbit ht₁
  have ht₃ := Tested.next hs.divisor hs.curbit ht₂
  exact ⟨_,_,_,_,h₀.trans (h₁.trans (h₂.trans h₃)),ht₃⟩

variable {exit : Label}

/-- The end of a pass: out of the loop because nothing is left of the dividend or no bit is left to
do, or four bits down. -/
theorem nextPass_leads (hloop : seek .loop3 prog = some tail) (hout : seek exit prog = some out)
    {rest : Code} {s : Cpu} (hs : Shifted d k s) :
    (s.r0 = 0 ∧ ∃ f, Leads prog link (.running (nextPass exit++rest) s)
      (.running out { s with flags := f })) ∨
    (s.r0 ≠ 0 ∧ k < 4 ∧ ∃ f, Leads prog link (.running (nextPass exit++rest) s)
      (.running out { s with r3 := s.r3 >>> 4, flags := f })) ∨
    (s.r0 ≠ 0 ∧ 4 ≤ k ∧ ∃ f, Leads prog link (.running (nextPass exit++rest) s)
        (.running tail { s with r1 := s.r1 >>> 4, r3 := s.r3 >>> 4, flags := f }) ∧
      Shifted d (k-4) { s with r1 := s.r1 >>> 4, r3 := s.r3 >>> 4, flags := f }) := by
  by_cases h0 : s.r0 = 0
  · exact .inl ⟨h0,_,⟨2,branch_taken hout (decide_eq_true h0) _⟩⟩
  have hrest : Leads prog link (.running (nextPass exit++rest) s) _ :=
    ⟨2,branch_not_taken (decide_eq_false h0) _⟩
  have hbit : (s.r3 >>> 4).toNat = 2^k/2^4 := by
    rw [BitVec.toNat_ushiftRight,Nat.shiftRight_eq_div_pow,hs.curbit]
  by_cases hk : k < 4
  · have hz : s.r3 >>> 4 = 0 := by
      apply BitVec.eq_of_toNat_eq
      rw [hbit]
      exact Nat.div_eq_of_lt (Nat.pow_lt_pow_right (by omega) hk)
    exact .inr (.inl ⟨h0,hk,_,hrest.trans ⟨2,branch_taken hout (decide_eq_true hz) _⟩⟩)
  · have hone : (s.r3 >>> 4).toNat = 2^(k-4) := by
      rw [hbit,Nat.pow_div (by omega) (by omega)]
    have hz : s.r3 >>> 4 ≠ 0 := by
      intro hz
      rw [hz] at hone
      exact absurd hone.symm (Nat.two_pow_pos _).ne'
    refine .inr (.inr ⟨h0,by omega,_,hrest.trans (.trans ⟨2,branch_not_taken (decide_eq_false hz) _⟩
      ⟨2,goto_of_seek hloop _⟩),?_,hone⟩)
    exact shifted_right hs.divisor (by omega)

/-- The division loop leaves the quotient in the result register. -/
theorem divideLoop_leads (hl : DivideLoop prog la lb lc ld tail out) :
    ∀ (k : ℕ) (s : Cpu), Shifted d k s → Decided n d (k+1) s.r0.toNat s.r2.toNat →
    ∃ r0 r1 r2 r3 r4 f, Leads prog link (.running (pass la lb lc ld tail) s)
      (.running out { s with r0 := r0, r1 := r1, r2 := r2, r3 := r3, r4 := r4, flags := f }) ∧
      r2.toNat = n/d := by
  intro k
  induction k using Nat.strong_induction_on with
  | h k ih =>
    intro s hs hdec
    obtain ⟨r0,r2,r4,f,hpass,ht⟩ := @pass_leads prog tail out link la lb lc ld n d k hl s hs hdec
    have hs' : Shifted d k { s with r0 := r0, r2 := r2, r4 := r4, flags := f } :=
      ⟨hs.divisor,hs.curbit⟩
    obtain ⟨h0,f',hrun⟩ | ⟨-,hk,f',hrun⟩ | ⟨-,hk,f',hrun,hs''⟩ :=
      @nextPass_leads prog _ out link d k .lgotResult hl.loop3 hl.out tail _ hs'
    · refine ⟨_,_,_,_,_,_,hpass.trans hrun,?_⟩
      by_cases hk : k ≤ 3
      · exact ht.quotient hk
      · have hexact := ht.decided (by omega)
        change r0 = 0 at h0
        rw [h0] at hexact
        exact hexact.div_mod_of_zero.1.symm
    · exact ⟨_,_,_,_,_,_,hpass.trans hrun,ht.quotient (by omega)⟩
    · have hdec' := ht.decided (by omega)
      rw [show k-3 = k-4+1 by omega] at hdec'
      obtain ⟨_,_,_,_,_,_,hrest,hq⟩ := ih (k-4) (by omega) _ hs'' hdec'
      exact ⟨_,_,_,_,_,_,hpass.trans (hrun.trans hrest),hq⟩

end DivideLoop

section Division

variable {prog rest tail out : Code} {link : Word} {la lb lc ld : Label}

/-- From the alignment of the divisor to the exit of a division routine. -/
theorem divide_leads (ha : Aligns prog rest (pass la lb lc ld tail))
    (hl : DivideLoop prog la lb lc ld tail out) {s : Cpu} (hd : s.r1 ≠ 0) (hb : s.r3 = 1)
    (hq : s.r2 = 0) :
    ∃ r0 r1 r3 r4 f, Leads prog link (.running (alignDivisor++rest) s)
      (.running out { s with r0 := r0, r1 := r1, r2 := s.r0/s.r1, r3 := r3, r4 := r4, flags := f }) := by
  obtain ⟨k,r1,r3,r4,f,hrun,hs,hlt,-⟩ := @alignDivisor_leads prog rest _ link ha s hd hb
  have hstart : Decided s.r0.toNat s.r1.toNat (k+1) s.r0.toNat s.r2.toNat := by
    rw [hq]
    exact Decided.start hlt
  obtain ⟨r0',r1',r2',r3',r4',f',hloop,hquot⟩ := @divideLoop_leads prog tail out link la lb lc ld
    s.r0.toNat s.r1.toNat hl k _ hs hstart
  have hr2 : r2' = s.r0/s.r1 := by
    apply BitVec.eq_of_toNat_eq
    rw [hquot,BitVec.toNat_udiv]
  rw [hr2] at hloop
  exact ⟨_,_,_,_,_,hrun.trans hloop⟩

theorem udivsi3_aligns : Aligns udivsi3
    (divideLoop .over1 .over2 .over3 .over4++udivsi3Exit++divideByZero)
    (pass .over1 .over2 .over3 .over4 (udivsi3Exit++divideByZero)) := ⟨rfl,rfl,rfl,rfl⟩

theorem udivsi3_loop : DivideLoop udivsi3 .over1 .over2 .over3 .over4 (udivsi3Exit++divideByZero)
    (udivsi3Exit.drop 1++divideByZero) := ⟨rfl,rfl,rfl,rfl,rfl,rfl⟩

theorem divsi3_aligns : Aligns divsi3
    (divideLoop .over3 .over4 .over5 .over6++divsi3Exit++divideByZero)
    (pass .over3 .over4 .over5 .over6 (divsi3Exit++divideByZero)) := ⟨rfl,rfl,rfl,rfl⟩

theorem divsi3_loop : DivideLoop divsi3 .over3 .over4 .over5 .over6 (divsi3Exit++divideByZero)
    (divsi3Exit.drop 1++divideByZero) := ⟨rfl,rfl,rfl,rfl,rfl,rfl⟩

/-- The routine returns to its caller with a value and with the caller's register, stack pointer and
handler as they were. -/
def ReturnsWith (prog : Code) (link : Word) (s : Cpu) (v : Word) : Prop :=
  ∃ s', Leads prog link (call prog s) (.returned s.lr s') ∧ s'.r0 = v ∧ s'.r4 = s.r4 ∧
    s'.sp = s.sp ∧ s'.div0 = s.div0

/-- The same wherever the routine is placed. -/
def Returns (prog : Code) (s : Cpu) (v : Word) : Prop := ∀ link, ReturnsWith prog link s v

/-- The routine calls the division-by-zero handler, once, and returns. -/
def Handles (prog : Code) (s : Cpu) : Prop :=
  ∀ link, ∃ s', Leads prog link (call prog s) (.returned s.lr s') ∧ s'.r4 = s.r4 ∧ s'.sp = s.sp ∧
    s'.div0 = s.div0+1

theorem pop_pushed (a : Word) : a-4+4 = a := BitVec.sub_add_cancel a 4

theorem divideByZero_leads {code : Code} (hseek : seek .ldiv0 prog = some (divideByZero.drop 1++code))
    (s : Cpu) : ∃ s', Leads prog link (goto prog .ldiv0 s) (.returned s.lr s') ∧
      s'.r4 = s.r4 ∧ s'.sp = s.sp ∧ s'.div0 = s.div0+1 := by
  rw [goto_of_seek hseek]
  obtain ⟨s',hrun,h4,hsp,h0⟩ : ∃ s', Leads prog link (.running (divideByZero.drop 1++code) s)
      (.returned (Function.update s.mem (s.sp-4) s.lr (s.sp-4)) s') ∧ s'.r4 = s.r4 ∧
      s'.sp = s.sp-4+4 ∧ s'.div0 = s.div0+1 := ⟨_,⟨4,rfl⟩,rfl,rfl,rfl⟩
  rw [Function.update_self] at hrun
  rw [pop_pushed] at hsp
  exact ⟨s',hrun,h4,hsp,h0⟩

theorem udivsi3_handles {s : Cpu} (hd : s.r1 = 0) : Handles udivsi3 s := by
  intro link
  obtain ⟨s',hrun,h4,hsp,h0⟩ := @divideByZero_leads udivsi3 link [] rfl
    { s with flags := subFlags s.r1 0 }
  have hentry : Leads udivsi3 link (call udivsi3 s)
      (goto udivsi3 .ldiv0 { s with flags := subFlags s.r1 0 }) :=
    ⟨2,if_pos (decide_eq_true hd)⟩
  exact ⟨s',hentry.trans hrun,h4,hsp,h0⟩

/-- A state inside a routine entered from `s`: the caller's work register is on the stack. -/
structure Inside (s t : Cpu) : Prop where
  sp : t.sp = s.sp-4
  saved : t.mem (s.sp-4) = s.r4
  lr : t.lr = s.lr
  div0 : t.div0 = s.div0

/-- The common exit. -/
theorem popReturn_leads {s t : Cpu} (h : Inside s t) {code : Code} :
    ∃ s', Leads prog link (.running (.pop work :: .ret :: code) t) (.returned s.lr s') ∧
      s'.r0 = t.r0 ∧ s'.r4 = s.r4 ∧ s'.sp = s.sp ∧ s'.div0 = s.div0 := by
  obtain ⟨s',hrun,hr0,hr4,hsp,h0⟩ : ∃ s', Leads prog link (.running (.pop work :: .ret :: code) t)
      (.returned t.lr s') ∧ s'.r0 = t.r0 ∧ s'.r4 = t.mem t.sp ∧ s'.sp = t.sp+4 ∧
      s'.div0 = t.div0 := ⟨_,⟨2,rfl⟩,rfl,rfl,rfl,rfl⟩
  rw [h.sp,pop_pushed] at hsp
  rw [h.sp,h.saved] at hr4
  rw [← h.lr]
  exact ⟨s',hrun,hr0,hr4,hsp,h0.trans h.div0⟩

theorem div_of_lt {x y : Word} (h : ¬y ≤ x) : x/y = 0 := by
  apply BitVec.eq_of_toNat_eq
  rw [BitVec.toNat_udiv,Nat.div_eq_of_lt (Nat.lt_of_not_le (mt BitVec.le_def.mpr h))]
  rfl

theorem udivsi3_returns {s : Cpu} (hd : s.r1 ≠ 0) : Returns udivsi3 s (s.r0/s.r1) := by
  intro link
  have hexit : ∀ t : Cpu, Inside s t → t.r2 = s.r0/s.r1 → ∃ s', Leads udivsi3 link
      (.running (udivsi3Exit.drop 1++divideByZero) t) (.returned s.lr s') ∧
      s'.r0 = s.r0/s.r1 ∧ s'.r4 = s.r4 ∧ s'.sp = s.sp ∧ s'.div0 = s.div0 := by
    intro t ht hq
    obtain ⟨f,hmov⟩ : ∃ f, Leads udivsi3 link (.running (udivsi3Exit.drop 1++divideByZero) t)
        (.running (udivsi3Exit.drop 2++divideByZero) { t with r0 := t.r2, flags := f }) := ⟨_,1,rfl⟩
    obtain ⟨s',hrun,hr0,hs'⟩ := @popReturn_leads udivsi3 link s { t with r0 := t.r2, flags := f }
      ⟨ht.sp,ht.saved,ht.lr,ht.div0⟩ divideByZero
    exact ⟨s',hmov.trans hrun,hr0.trans hq,hs'⟩
  have hdz : decide (s.r1 = 0) = false := decide_eq_false hd
  obtain ⟨f,hc,hentry⟩ : ∃ f : Flags, f.c = decide (s.r1 ≤ s.r0) ∧
      Leads udivsi3 link (call udivsi3 s) (.running (udivsi3.drop 6) { s with
        r2 := 0, r3 := 1, sp := s.sp-4, mem := Function.update s.mem (s.sp-4) s.r4, flags := f }) :=
    ⟨_,rfl,.trans ⟨2,branch_not_taken hdz _⟩ ⟨4,rfl⟩⟩
  by_cases hle : s.r1 ≤ s.r0
  · obtain ⟨r0,r1,r3,r4,f',hcore⟩ := @divide_leads udivsi3 _ _ _ link _ _ _ _ udivsi3_aligns
      udivsi3_loop { s with
        r2 := 0, r3 := 1, sp := s.sp-4, mem := Function.update s.mem (s.sp-4) s.r4, flags := f }
      hd rfl rfl
    obtain ⟨s',hout,hs'⟩ := hexit { s with
      r0 := r0, r1 := r1, r2 := s.r0/s.r1, r3 := r3, r4 := r4
      sp := s.sp-4, mem := Function.update s.mem (s.sp-4) s.r4, flags := f' }
      ⟨rfl,Function.update_self ..,rfl,rfl⟩ rfl
    have hcs : (!f.c) = false := by rw [hc,decide_eq_true hle]; rfl
    exact ⟨s',hentry.trans (.trans ⟨1,branch_not_taken hcs _⟩ (hcore.trans hout)),hs'⟩
  · have hcc : (!f.c) = true := by rw [hc,decide_eq_false hle]; rfl
    obtain ⟨s',hout,hs'⟩ := hexit { s with
      r2 := 0, r3 := 1, sp := s.sp-4, mem := Function.update s.mem (s.sp-4) s.r4, flags := f }
      ⟨rfl,Function.update_self ..,rfl,rfl⟩ (div_of_lt hle).symm
    exact ⟨s',hentry.trans (.trans ⟨1,branch_taken udivsi3_loop.out hcc _⟩ hout),hs'⟩

/-- A register made non-negative, as the loops use unsigned values. -/
def magnitude (w : Word) : Word := if w.msb then -w else w

theorem subFlags_zero_n (w : Word) : (subFlags w 0).n = w.msb := by
  have h : w-0 = w := BitVec.sub_zero w
  simp only [subFlags,h]

theorem negDivisor_leads {past : Label} (hpast : seek past prog = some rest) {s : Cpu}
    (hn : s.flags.n = s.r1.msb) :
    ∃ f, Leads prog link (.running (.bpl past :: .neg divisor divisor :: .label past :: rest) s)
      (.running rest { s with r1 := magnitude s.r1, flags := f }) := by
  unfold magnitude
  cases h : s.r1.msb with
  | true =>
    have hneg : (!s.flags.n) = false := by rw [hn,h]; rfl
    exact ⟨_,.trans ⟨1,branch_not_taken hneg _⟩ ⟨2,rfl⟩⟩
  | false =>
    have hpos : (!s.flags.n) = true := by rw [hn,h]; rfl
    exact ⟨_,1,branch_taken hpast hpos _⟩

theorem negDividend_leads {past : Label} (hpast : seek past prog = some rest) {s : Cpu}
    (hn : s.flags.n = s.r0.msb) :
    ∃ f, Leads prog link (.running (.bpl past :: .neg dividend dividend :: .label past :: rest) s)
      (.running rest { s with r0 := magnitude s.r0, flags := f }) := by
  unfold magnitude
  cases h : s.r0.msb with
  | true =>
    have hneg : (!s.flags.n) = false := by rw [hn,h]; rfl
    exact ⟨_,.trans ⟨1,branch_not_taken hneg _⟩ ⟨2,rfl⟩⟩
  | false =>
    have hpos : (!s.flags.n) = true := by rw [hn,h]; rfl
    exact ⟨_,1,branch_taken hpast hpos _⟩

theorem divsi3_handles {s : Cpu} (hd : s.r1 = 0) : Handles divsi3 s := by
  intro link
  obtain ⟨s',hrun,h4,hsp,h0⟩ := @divideByZero_leads divsi3 link [] rfl
    { s with flags := subFlags s.r1 0 }
  have hentry : Leads divsi3 link (call divsi3 s)
      (goto divsi3 .ldiv0 { s with flags := subFlags s.r1 0 }) :=
    ⟨2,if_pos (decide_eq_true hd)⟩
  exact ⟨s',hentry.trans hrun,h4,hsp,h0⟩

theorem sdiv_eq_magnitude (x y : Word) : x.sdiv y =
    if (x ^^^ y).msb then -(magnitude x/magnitude y) else magnitude x/magnitude y := by
  rw [BitVec.sdiv_eq,BitVec.msb_xor]
  unfold magnitude
  cases x.msb <;> cases y.msb <;> rfl

theorem sdiv_eq_tdiv (x y : Word) : x.sdiv y = BitVec.ofInt 32 (x.toInt.tdiv y.toInt) := by
  apply BitVec.eq_of_toInt_eq
  rw [BitVec.toInt_sdiv,BitVec.toInt_ofInt]

theorem magnitude_ne_zero {w : Word} (h : w ≠ 0) : magnitude w ≠ 0 := by
  unfold magnitude
  split
  · intro h0
    exact h (BitVec.neg_eq_zero_iff.mp h0)
  · exact h

/-- The exit of the signed division negates the quotient when the signs differ. -/
theorem divsi3Exit_leads {s t : Cpu} (ht : Inside s t) (hip : t.ip = s.r0 ^^^ s.r1)
    (hq : t.r2 = magnitude s.r0/magnitude s.r1) :
    ∃ s', Leads divsi3 link (.running (divsi3Exit.drop 1++divideByZero) t) (.returned s.lr s') ∧
      s'.r0 = s.r0.sdiv s.r1 ∧ s'.r4 = s.r4 ∧ s'.sp = s.sp ∧ s'.div0 = s.div0 := by
  obtain ⟨f,hn,hsign⟩ : ∃ f : Flags, f.n = t.ip.msb ∧ Leads divsi3 link
      (.running (divsi3Exit.drop 1++divideByZero) t)
      (.running (divsi3Exit.drop 4++divideByZero) { t with r0 := t.r2, r4 := t.ip, flags := f }) :=
    ⟨subFlags t.ip 0,subFlags_zero_n _,⟨3,rfl⟩⟩
  rw [sdiv_eq_magnitude,← hq,← hip]
  cases h : t.ip.msb with
  | true =>
    have hneg : (!f.n) = false := by rw [hn,h]; rfl
    obtain ⟨f',hnegate⟩ : ∃ f', Leads divsi3 link
        (.running (divsi3Exit.drop 5++divideByZero) { t with r0 := t.r2, r4 := t.ip, flags := f })
        (.running (divsi3Exit.drop 7++divideByZero) { t with r0 := -t.r2, r4 := t.ip, flags := f' }) :=
      ⟨_,2,rfl⟩
    obtain ⟨s',hrun,hs'⟩ := @popReturn_leads divsi3 link s
      { t with r0 := -t.r2, r4 := t.ip, flags := f' } ⟨ht.sp,ht.saved,ht.lr,ht.div0⟩ divideByZero
    exact ⟨s',hsign.trans (.trans ⟨1,branch_not_taken hneg _⟩ (hnegate.trans hrun)),hs'⟩
  | false =>
    have hpos : (!f.n) = true := by rw [hn,h]; rfl
    have hseek : seek .over7 divsi3 = some (divsi3Exit.drop 7++divideByZero) := rfl
    obtain ⟨s',hrun,hs'⟩ := @popReturn_leads divsi3 link s
      { t with r0 := t.r2, r4 := t.ip, flags := f } ⟨ht.sp,ht.saved,ht.lr,ht.div0⟩ divideByZero
    exact ⟨s',hsign.trans (.trans ⟨1,branch_taken hseek hpos _⟩ hrun),hs'⟩

theorem saveSign_leads (t : Cpu) :
    ∃ f : Flags, f.n = t.r1.msb ∧ Leads divsi3 link (.running (divsi3.drop 4) t)
      (.running (divsi3.drop 9)
        { t with r2 := 0, r3 := 1, r4 := t.r4 ^^^ t.r1, ip := t.r4 ^^^ t.r1, flags := f }) := by
  obtain ⟨f,heor⟩ : ∃ f, Leads divsi3 link (.running (divsi3.drop 4) t)
      (.running (divsi3.drop 5) { t with r4 := t.r4 ^^^ t.r1, flags := f }) := ⟨_,1,rfl⟩
  have hmoves : ∀ w : Word, Leads divsi3 link
      (.running (divsi3.drop 5) { t with r4 := w, flags := f })
      (.running (divsi3.drop 9)
        { t with r2 := 0, r3 := 1, r4 := w, ip := w, flags := subFlags t.r1 0 }) :=
    fun w => ⟨4,rfl⟩
  exact ⟨subFlags t.r1 0,subFlags_zero_n _,heor.trans (hmoves _)⟩

/-- The state in which the signed division compares the magnitudes. -/
theorem divsi3Entry_leads {s : Cpu} (hd : s.r1 ≠ 0) :
    ∃ r4 f, Leads divsi3 link (call divsi3 s) (.running (divsi3.drop 16) { s with
      r0 := magnitude s.r0, r1 := magnitude s.r1, r2 := 0, r3 := 1, r4 := r4, ip := s.r0 ^^^ s.r1
      sp := s.sp-4, mem := Function.update s.mem (s.sp-4) s.r4, flags := f }) := by
  have hdz : decide (s.r1 = 0) = false := decide_eq_false hd
  obtain ⟨f₀,hsave⟩ : ∃ f : Flags, Leads divsi3 link (call divsi3 s) (.running (divsi3.drop 4) { s with
      r4 := s.r0, sp := s.sp-4, mem := Function.update s.mem (s.sp-4) s.r4, flags := f }) :=
    ⟨_,.trans ⟨2,branch_not_taken hdz _⟩ ⟨2,rfl⟩⟩
  obtain ⟨f₁,hn₁,hsign⟩ := @saveSign_leads link { s with
    r4 := s.r0, sp := s.sp-4, mem := Function.update s.mem (s.sp-4) s.r4, flags := f₀ }
  obtain ⟨f₂,hdiv⟩ := @negDivisor_leads divsi3 (divsi3.drop 12) link .over1 rfl { s with
    r2 := 0, r3 := 1, r4 := s.r0 ^^^ s.r1, ip := s.r0 ^^^ s.r1
    sp := s.sp-4, mem := Function.update s.mem (s.sp-4) s.r4, flags := f₁ } hn₁
  obtain ⟨f₃,hn₃,htest⟩ : ∃ f : Flags, f.n = s.r0.msb ∧ Leads divsi3 link
      (.running (divsi3.drop 12) { s with
        r1 := magnitude s.r1, r2 := 0, r3 := 1, r4 := s.r0 ^^^ s.r1, ip := s.r0 ^^^ s.r1
        sp := s.sp-4, mem := Function.update s.mem (s.sp-4) s.r4, flags := f₂ })
      (.running (divsi3.drop 13) { s with
        r1 := magnitude s.r1, r2 := 0, r3 := 1, r4 := s.r0 ^^^ s.r1, ip := s.r0 ^^^ s.r1
        sp := s.sp-4, mem := Function.update s.mem (s.sp-4) s.r4, flags := f }) :=
    ⟨subFlags s.r0 0,subFlags_zero_n _,1,rfl⟩
  obtain ⟨f₄,hnum⟩ := @negDividend_leads divsi3 (divsi3.drop 16) link .over2 rfl { s with
    r1 := magnitude s.r1, r2 := 0, r3 := 1, r4 := s.r0 ^^^ s.r1, ip := s.r0 ^^^ s.r1
    sp := s.sp-4, mem := Function.update s.mem (s.sp-4) s.r4, flags := f₃ } hn₃
  exact ⟨_,f₄,hsave.trans (hsign.trans (hdiv.trans (htest.trans hnum)))⟩

theorem divsi3_returns {s : Cpu} (hd : s.r1 ≠ 0) : Returns divsi3 s (s.r0.sdiv s.r1) := by
  intro link
  obtain ⟨r4,f,hentry⟩ := @divsi3Entry_leads link s hd
  obtain ⟨f',hc,hcmp⟩ : ∃ f' : Flags, f'.c = decide (magnitude s.r1 ≤ magnitude s.r0) ∧
      Leads divsi3 link (.running (divsi3.drop 16) { s with
        r0 := magnitude s.r0, r1 := magnitude s.r1, r2 := 0, r3 := 1, r4 := r4, ip := s.r0 ^^^ s.r1
        sp := s.sp-4, mem := Function.update s.mem (s.sp-4) s.r4, flags := f })
      (.running (divsi3.drop 17) { s with
        r0 := magnitude s.r0, r1 := magnitude s.r1, r2 := 0, r3 := 1, r4 := r4, ip := s.r0 ^^^ s.r1
        sp := s.sp-4, mem := Function.update s.mem (s.sp-4) s.r4, flags := f' }) := ⟨_,rfl,1,rfl⟩
  by_cases hle : magnitude s.r1 ≤ magnitude s.r0
  · have hcs : (!f'.c) = false := by rw [hc,decide_eq_true hle]; rfl
    obtain ⟨r0,r1,r3,r4',f'',hcore⟩ := @divide_leads divsi3 _ _ _ link _ _ _ _ divsi3_aligns
      divsi3_loop { s with
        r0 := magnitude s.r0, r1 := magnitude s.r1, r2 := 0, r3 := 1, r4 := r4, ip := s.r0 ^^^ s.r1
        sp := s.sp-4, mem := Function.update s.mem (s.sp-4) s.r4, flags := f' }
      (magnitude_ne_zero hd) rfl rfl
    obtain ⟨s',hout,hs'⟩ := @divsi3Exit_leads link s { s with
      r0 := r0, r1 := r1, r2 := magnitude s.r0/magnitude s.r1, r3 := r3, r4 := r4'
      ip := s.r0 ^^^ s.r1, sp := s.sp-4, mem := Function.update s.mem (s.sp-4) s.r4, flags := f'' }
      ⟨rfl,Function.update_self ..,rfl,rfl⟩ rfl rfl
    exact ⟨s',hentry.trans (hcmp.trans (.trans ⟨1,branch_not_taken hcs _⟩ (hcore.trans hout))),hs'⟩
  · have hcc : (!f'.c) = true := by rw [hc,decide_eq_false hle]; rfl
    obtain ⟨s',hout,hs'⟩ := @divsi3Exit_leads link s { s with
      r0 := magnitude s.r0, r1 := magnitude s.r1, r2 := 0, r3 := 1, r4 := r4, ip := s.r0 ^^^ s.r1
      sp := s.sp-4, mem := Function.update s.mem (s.sp-4) s.r4, flags := f' }
      ⟨rfl,Function.update_self ..,rfl,rfl⟩ rfl (div_of_lt hle).symm
    exact ⟨s',hentry.trans (hcmp.trans (.trans ⟨1,branch_taken divsi3_loop.out hcc _⟩ hout)),hs'⟩

/-- 32-bit division: the unsigned quotient, the signed quotient truncated towards zero, and only the
handler when the divisor is zero. -/
theorem division32 (s : Cpu) :
    (s.r1 ≠ 0 → Returns udivsi3 s (s.r0/s.r1) ∧
      Returns divsi3 s (BitVec.ofInt 32 (s.r0.toInt.tdiv s.r1.toInt))) ∧
    (s.r1 = 0 → Handles udivsi3 s ∧ Handles divsi3 s) := by
  constructor
  · intro hd
    rw [← sdiv_eq_tdiv]
    exact ⟨udivsi3_returns hd,divsi3_returns hd⟩
  · intro hd
    exact ⟨udivsi3_handles hd,divsi3_handles hd⟩

/-- A call with the given operands and everything else zero. -/
def callState (n d : Word) : Cpu :=
  { r0 := n, r1 := d, r2 := 0, r3 := 0, r4 := 0, ip := 0, sp := 0, lr := 0
    flags := { n := false, z := false, c := false }, mem := fun _ => 0, div0 := 0 }

theorem division32_overflow :
    Returns udivsi3 (callState 0x80000000 0xffffffff) 0 ∧
      Returns divsi3 (callState 0x80000000 0xffffffff) 0x80000000 ∧
      Handles divsi3 (callState 7 0) :=
  ⟨((division32 (callState 0x80000000 0xffffffff)).1 (by decide)).1,
    ((division32 (callState 0x80000000 0xffffffff)).1 (by decide)).2,
    ((division32 (callState 7 0)).2 (by decide)).2⟩

end Division

end Divide
end Thumb
end AgbTools
