import AgbTools.M4aMixer

/-! Mixing at a fixed pitch: the loop over whole words and the loop over single samples together do
what one sample after the other does, whatever the length of the sample and of its loop. -/
namespace AgbTools
namespace M4a
namespace Mixer

open Runs RotatingWord LoopedTrack

section Reference

/-- Every output takes the next sample. -/
def fixedJob (f : Frame) (c : Channel) (right left : ℕ → Byte) : Job where
  frame := f
  channel := c
  right := right
  left := left
  played i := ((f.track c).place i).map fun l => (f.data l.pointer).toInt

/-- The channel after `n` outputs. A sample that has ended has its status cleared. -/
def fixedAfter (f : Frame) (c : Channel) (n : ℕ) : Channel :=
  match (f.track c).place n with
  | some l => {c with ct := BitVec.ofNat 32 l.left, cp := l.pointer}
  | none => {c with status := 0}

end Reference

section Tail

variable {f : Frame} {c : Channel} {right left : ℕ → Byte} {q k : ℕ} {s : State}

/-- The sample of an output is the one that the pointer is at. -/
theorem fixedJob_played (right left : ℕ → Byte) {i : ℕ} {l : Place Word}
    (h : (f.track c).place i = some l) :
    (fixedJob f c right left).played i = some (f.ldrsb l.pointer).toInt := by
  rw [toInt_ldrsb]
  simp only [fixedJob,h,Option.map_some]

/-- The next place, from the registers. -/
theorem place_next {i : ℕ} {r3 r2 : Word} (h : (f.track c).place i = some ⟨r3,r2.toNat⟩) :
    (f.track c).place (i+1) =
      if r2-1 = 0 then if f.loopLength = 0 then none else some ⟨f.loopStart,f.loopLength.toNat⟩
      else some ⟨r3+1,(r2-1).toNat⟩ := by
  have hpos : 0 < r2.toNat := Track.left_pos h
  rw [Track.place_add,h,Option.bind_some,Track.advance]
  by_cases hone : r2-1 = 0
  · have hr2 : r2.toNat = 1 := by
      rw [sub_eq_zero.mp hone]
      rfl
    rw [if_neg (show ¬1 < r2.toNat by omega),if_pos hone]
    by_cases hloop : f.loopLength = 0
    · rw [if_pos hloop,if_pos (track_loopLength.mpr hloop)]
    · rw [if_neg hloop,if_neg (mt track_loopLength.mp hloop)]
      simp [hr2,Frame.track]
  · have hmore : 1 < r2.toNat := by
      have hne : r2.toNat ≠ 1 := fun h1 => hone (sub_eq_zero.mpr (BitVec.eq_of_toNat_eq h1))
      omega
    have hleft : (r2-1).toNat = r2.toNat-1 := BitVec.toNat_sub_of_le hmore.le
    rw [if_pos hmore,if_neg hone,hleft,Nat.cast_one]

/-- Where a sample of the loop over single samples leads: the next one is in the registers, or
there is none. -/
def Played (f : Frame) (c : Channel) (right left : ℕ → Byte) (q k : ℕ) (r8 : Word) (t : State) : Prop :=
  (fixedJob f c right left).InWord q k (k+1) t ∧ t.r8 = r8 ∧
    (t.pc = .l081DD118 ∧ (f.track c).place (4*q+k+1) = some ⟨t.r3,t.r2.toNat⟩ ∨
      t.pc = .l081DD174 ∧ t.r2 = 0 ∧ (f.track c).place (4*q+k+1) = none)

/-- The end of the sample, with or without a loop. -/
theorem restart (h : (fixedJob f c right left).InWord q k (k+1) s) (hpc : s.pc = .l081DD164)
    (hplace : (f.track c).place (4*q+k+1) =
      if f.loopLength = 0 then none else some ⟨f.loopStart,f.loopLength.toNat⟩) :
    Played f c right left q k s.r8 (next f s) := by
  by_cases hloop : f.loopLength = 0
  · have hone : next f s = {s with r2 := f.loopLength, pc := .l081DD174} := by
      unfold next
      rw [hpc]
      exact if_pos hloop
    rw [if_pos hloop] at hplace
    rw [hone]
    exact ⟨h,rfl,.inr ⟨rfl,hloop,hplace⟩⟩
  · have hone : next f s = {s with r2 := f.loopLength, r3 := f.loopStart, pc := .l081DD118} := by
      unfold next
      rw [hpc]
      exact if_neg hloop
    rw [if_neg hloop] at hplace
    rw [hone]
    exact ⟨h,rfl,.inl ⟨rfl,hplace⟩⟩

theorem tailSample (h : (fixedJob f c right left).InWord q k k s) (hk : k < 4)
    (hpc : s.pc = .l081DD0F4) (hplace : (f.track c).place (4*q+k) = some ⟨s.r3,s.r2.toNat⟩) :
    Reaches (next f) s (Played f c right left q k s.r8) := by
  have hmix := h.mix hk (fixedJob_played right left hplace)
  have hnext := place_next hplace
  apply Reaches.step
  by_cases hr2 : s.r2-1 = 0
  · have hone : next f s = {mixSample (f.ldrsb s.r3) s with
        r0 := f.ldrsb s.r3, r3 := s.r3+1, r2 := s.r2-1, pc := .l081DD164} := by
      unfold next
      rw [hpc]
      exact if_pos hr2
    rw [if_pos hr2] at hnext
    rw [hone]
    exact Reaches.step (Reaches.done (restart hmix rfl hnext))
  · have hone : next f s = {mixSample (f.ldrsb s.r3) s with
        r0 := f.ldrsb s.r3, r3 := s.r3+1, r2 := s.r2-1, pc := .l081DD118} := by
      unfold next
      rw [hpc]
      exact if_neg hr2
    rw [if_neg hr2] at hnext
    rw [hone]
    exact Reaches.done ⟨hmix,rfl,.inl ⟨rfl,hnext⟩⟩

/-- Where a word leads: it is complete, or the sample has ended in it. -/
def WordPlayed (f : Frame) (c : Channel) (right left : ℕ → Byte) (q : ℕ) (r8 : Word) (t : State) : Prop :=
  (fixedJob f c right left).AtWord (q+1) t ∧ t.r8 = r8-4 ∧
      t.pc = (if (4 : Word).slt r8 then .l081DD07C else .l081DD22C) ∧
      (f.track c).place (4*(q+1)) = some ⟨t.r3,t.r2.toNat⟩ ∨
    ∃ n, 4*q < n ∧ n ≤ 4*(q+1) ∧ (f.track c).place n = none ∧
      (fixedJob f c right left).Over n {c with status := 0} t

/-- The rest of a word, from one of its bytes on. -/
theorem tailRest (hbound : f.buffer.toNat+4*q+4 ≤ 2^30) (n : ℕ) (hk : k+n = 3)
    (h : (fixedJob f c right left).InWord q k k s) (hpc : s.pc = .l081DD0F4)
    (hplace : (f.track c).place (4*q+k) = some ⟨s.r3,s.r2.toNat⟩) :
    Reaches (next f) s (WordPlayed f c right left q s.r8) := by
  induction n generalizing k s with
  | zero =>
    refine (tailSample h (by omega) hpc hplace).bind fun t ⟨hin,hr8,hend⟩ => ?_
    obtain rfl : k = 3 := by omega
    refine Reaches.step (Reaches.done ?_)
    obtain ⟨hpc,hplace⟩ | ⟨hpc,hr2,hnone⟩ := hend
    · obtain ⟨hdone,hword⟩ := hin.store hbound .l081DD07C
      rw [← hr8]
      by_cases hmore : (4 : Word).slt t.r8
      · have hone : next f t = {storeWords (nextByte .l081DD07C t) with r8 := t.r8-4} := by
          unfold next
          rw [hpc]
          exact (if_neg (not_not.mpr hdone)).trans (if_pos hmore)
        rw [hone]
        exact .inl ⟨hword.set _ _ _,rfl,(if_pos hmore).symm,hplace⟩
      · have hone : next f t =
            {storeWords (nextByte .l081DD07C t) with r8 := t.r8-4, pc := .l081DD22C} := by
          unfold next
          rw [hpc]
          exact (if_neg (not_not.mpr hdone)).trans (if_neg hmore)
        rw [hone]
        exact .inl ⟨hword.set _ _ _,rfl,(if_neg hmore).symm,hplace⟩
    · exact .inr ⟨4*q+3+1,by omega,by omega,hnone,hin.stop (by omega) hbound hpc hr2⟩
  | succ n ih =>
    refine (tailSample h (by omega) hpc hplace).bind fun t ⟨hin,hr8,hend⟩ => ?_
    apply Reaches.step
    obtain ⟨hpc,hplace⟩ | ⟨hpc,hr2,hnone⟩ := hend
    · obtain ⟨hdone,hnext⟩ := hin.nextByte (by omega) hbound .l081DD0F4
      have hone : next f t = nextByte .l081DD0F4 t := by
        unfold next
        rw [hpc]
        exact if_pos (by rw [hdone]; exact Bool.false_ne_true)
      rw [hone,← hr8]
      exact ih (by omega) hnext rfl hplace
    · exact Reaches.done (.inr ⟨4*q+k+1,by omega,by omega,hnone,hin.stop (by omega) hbound hpc hr2⟩)

/-- A word of the loop over single samples. -/
theorem tailWord (hbound : f.buffer.toNat+4*q+4 ≤ 2^30) (h : (fixedJob f c right left).AtWord q s)
    (hpc : s.pc = .l081DD0EC) (hplace : (f.track c).place (4*q) = some ⟨s.r3,s.r2.toNat⟩) :
    Reaches (next f) s (WordPlayed f c right left q s.r8) := by
  have hone : next f s = {loadWords s with pc := .l081DD0F4} := by
    unfold next
    rw [hpc]
  apply Reaches.step
  rw [hone]
  exact tailRest hbound 3 rfl h.load rfl hplace

end Tail

section Fast

variable {f : Frame} {c : Channel} {right left : ℕ → Byte} {q k l : ℕ} {s : State}

/-- Where a word of the loop over whole words leads. The count stays in r2 as it was split. -/
def FastPlayed (f : Frame) (c : Channel) (right left : ℕ → Byte) (q l : ℕ) (s t : State) : Prop :=
  (fixedJob f c right left).AtWord (q+1) t ∧ (f.track c).place (4*(q+1)) = some ⟨t.r3,l⟩ ∧
    t.r2 = s.r2 ∧ t.r9 = s.r9 ∧
    (t.pc = .l081DD0A8 ∧ (4 : Word).slt s.r8 ∧ t.r8 = s.r8-4 ∨
      ¬(4 : Word).slt s.r8 ∧ t.r8 = s.r8-4+s.r9 ∧
        t.pc = if t.r8 = 0 then .l081DD22C else .l081DD0EC)

/-- The registers after a sample of the loop over whole words. -/
def fastMixed (f : Frame) (s : State) : State :=
  mixSample (f.ldrsb s.r3) {s with pc := .l081DD0B0, r0 := f.ldrsb s.r3, r3 := s.r3+1}

/-- A sample that is not the last one. -/
theorem fastSample (h : (fixedJob f c right left).InWord q k k s) (hk : k < 4)
    (hplace : (f.track c).place (4*q+k) = some ⟨s.r3,l+1⟩) (hl : 0 < l) :
    (fixedJob f c right left).InWord q k (k+1) (fastMixed f s) ∧
      (f.track c).place (4*q+k+1) = some ⟨s.r3+1,l⟩ := by
  have hx := fixedJob_played right left hplace
  refine ⟨(h.set .l081DD0B0 (f.ldrsb s.r3) s.r1 s.r2 (s.r3+1) s.r9 s.lr s.z).mix hk hx,?_⟩
  rw [Track.place_add,hplace,Option.bind_some,Track.advance,if_pos (Nat.lt_add_of_pos_left hl),
    Nat.cast_one,Nat.add_sub_cancel]

theorem fastRest (hbound : f.buffer.toNat+4*q+4 ≤ 2^30) (hl : 0 < l) (n : ℕ) (hk : k+n = 3)
    (h : (fixedJob f c right left).InWord q k k s) (hpc : s.pc = .l081DD0B0)
    (hplace : (f.track c).place (4*q+k) = some ⟨s.r3,l+n+1⟩) :
    Reaches (next f) s (FastPlayed f c right left q l s) := by
  induction n generalizing k s with
  | zero =>
    obtain rfl : k = 3 := by omega
    obtain ⟨hin,hnext⟩ := fastSample h (by omega) hplace hl
    obtain ⟨hdone,hword⟩ := hin.store hbound .l081DD0A8
    refine Reaches.step (Reaches.done ?_)
    by_cases hmore : (4 : Word).slt s.r8
    · have hone : next f s =
          {storeWords (nextByte .l081DD0A8 (fastMixed f s)) with r8 := s.r8-4} := by
        unfold next
        rw [hpc]
        exact (if_neg (not_not.mpr hdone)).trans (if_pos hmore)
      rw [hone]
      exact ⟨hword.set _ _ _,hnext,rfl,rfl,.inl ⟨rfl,hmore,rfl⟩⟩
    · by_cases hzero : s.r8-4+s.r9 = 0
      · have hone : next f s = {storeWords (nextByte .l081DD0A8 (fastMixed f s)) with
            r8 := s.r8-4+s.r9, pc := .l081DD22C} := by
          unfold next
          rw [hpc]
          exact (if_neg (not_not.mpr hdone)).trans ((if_neg hmore).trans (if_pos hzero))
        rw [hone]
        exact ⟨hword.set _ _ _,hnext,rfl,rfl,.inr ⟨hmore,rfl,(if_pos hzero).symm⟩⟩
      · have hone : next f s = {storeWords (nextByte .l081DD0A8 (fastMixed f s)) with
            r8 := s.r8-4+s.r9, pc := .l081DD0EC} := by
          unfold next
          rw [hpc]
          exact (if_neg (not_not.mpr hdone)).trans ((if_neg hmore).trans (if_neg hzero))
        rw [hone]
        exact ⟨hword.set _ _ _,hnext,rfl,rfl,.inr ⟨hmore,rfl,(if_neg hzero).symm⟩⟩
  | succ n ih =>
    obtain ⟨hin,hnext⟩ := fastSample h (by omega) hplace (by omega)
    obtain ⟨hdone,hbyte⟩ := hin.nextByte (by omega) hbound .l081DD0B0
    have hone : next f s = nextByte .l081DD0B0 (fastMixed f s) := by
      unfold next
      rw [hpc]
      exact if_pos (by rw [← fastMixed,hdone]; exact Bool.false_ne_true)
    apply Reaches.step
    rw [hone]
    exact ih (by omega) hbyte rfl hnext

theorem fastWord (hbound : f.buffer.toNat+4*q+4 ≤ 2^30) (hl : 0 < l)
    (h : (fixedJob f c right left).AtWord q s) (hpc : s.pc = .l081DD0A8)
    (hplace : (f.track c).place (4*q) = some ⟨s.r3,l+4⟩) :
    Reaches (next f) s (FastPlayed f c right left q l s) := by
  have hone : next f s = {loadWords s with pc := .l081DD0B0} := by
    unfold next
    rw [hpc]
  apply Reaches.step
  rw [hone]
  exact fastRest hbound hl 3 rfl h.load rfl hplace

/-- The loop over whole words, from `w+1` words before its end. -/
theorem fastLoop (w : ℕ) (hbound : f.buffer.toNat+4*(q+w+1) ≤ 2^30) (hl : 0 < l)
    (h : (fixedJob f c right left).AtWord q s) (hpc : s.pc = .l081DD0A8)
    (hplace : (f.track c).place (4*q) = some ⟨s.r3,l+4*(w+1)⟩)
    (hlow : 4*w < s.r8.toNat) (hhigh : s.r8.toNat ≤ 4*(w+1)) :
    Reaches (next f) s fun t => (fixedJob f c right left).AtWord (q+w+1) t ∧
      (f.track c).place (4*(q+w+1)) = some ⟨t.r3,l⟩ ∧ t.r2 = s.r2 ∧
      t.r8 = s.r8-BitVec.ofNat 32 (4*(w+1))+s.r9 ∧
      t.pc = if t.r8 = 0 then .l081DD22C else .l081DD0EC := by
  have hslt : (4 : Word).slt s.r8 ↔ 4 < s.r8.toNat := slt_small (by decide) (by omega)
  induction w generalizing q s with
  | zero =>
    refine (fastWord (by omega) hl h hpc hplace).bind fun t ⟨hword,hp,hr2,_,hend⟩ => Reaches.done ?_
    obtain ⟨-,hmore,-⟩ | ⟨-,hr8,hpc⟩ := hend
    · have := hslt.mp hmore
      omega
    · exact ⟨hword,hp,hr2,hr8,hpc⟩
  | succ w ih =>
    refine (fastWord (by omega) (show 0 < l+4*(w+1) by omega) h hpc hplace).bind
      fun t ⟨hword,hp,hr2,hr9,hend⟩ => ?_
    obtain ⟨hpc,-,hr8⟩ | ⟨hstop,-,-⟩ := hend
    · have hsub : t.r8.toNat = s.r8.toNat-4 := by
        rw [hr8]
        exact BitVec.toNat_sub_of_le (show 4 ≤ s.r8.toNat by omega)
      refine (ih (by omega) hword hpc hp (by omega) (by omega)
        (slt_small (by decide) (by omega))).bind fun u ⟨hu,hup,hur2,hur8,hupc⟩ => Reaches.done ?_
      rw [show q+(w+1)+1 = q+1+w+1 by omega]
      refine ⟨hu,hup,hur2.trans hr2,?_,hupc⟩
      rw [hur8,hr8,hr9,show 4*(w+1+1) = 4+4*(w+1) by omega,BitVec.ofNat_add,← sub_sub]
      rfl
    · exact absurd (hslt.mpr (by omega)) hstop

end Fast

section Frame

variable {f : Frame} {c : Channel} {right left : ℕ → Byte} {q n : ℕ} {s : State}

theorem writeBack (h : (fixedJob f c right left).AtWord q s) (hpc : s.pc = .l081DD22C)
    (hplace : (f.track c).place (4*q) = some ⟨s.r3,s.r2.toNat⟩) :
    Reaches (next f) s ((fixedJob f c right left).Over (4*q) (fixedAfter f c (4*q))) := by
  have hone : next f s = {s with channel := {s.channel with ct := s.r2, cp := s.r3}, pc := .l081DD240} := by
    unfold next
    rw [hpc]
  refine Reaches.step (Reaches.done ?_)
  obtain ⟨hkeeps,-,hright,hleft⟩ := h
  rw [hone,fixedAfter,hplace]
  refine ⟨rfl,?_,hright,hleft⟩
  rw [hkeeps.1]
  simp [fixedJob]

/-- After the sample has ended, the reference goes on without an effect. -/
theorem over_of_none {m : ℕ} (hnone : (f.track c).place m = none) (hm : m ≤ n)
    (h : (fixedJob f c right left).Over m {c with status := 0} s) :
    (fixedJob f c right left).Over n (fixedAfter f c n) s := by
  rw [fixedAfter,Track.place_none hnone hm]
  refine h.later (fun i hi => ?_) hm
  simp only [fixedJob,Track.place_none hnone hi,Option.map_none]

/-- What is to be shown at 081DD07C before the word `q` of `n`: the rest of the frame is mixed. -/
def Mixes (f : Frame) (c : Channel) (right left : ℕ → Byte) (n q : ℕ) : Prop :=
  ∀ s : State, (fixedJob f c right left).AtWord q s → s.pc = .l081DD07C →
    (f.track c).place (4*q) = some ⟨s.r3,s.r2.toNat⟩ → q < n → s.r8.toNat = 4*(n-q) →
    Reaches (next f) s ((fixedJob f c right left).Over (4*n) (fixedAfter f c (4*n)))

theorem mixes_tail (hbound : f.buffer.toNat+4*n ≤ 2^30) (hrest : Mixes f c right left n (q+1))
    (h : (fixedJob f c right left).AtWord q s) (hpc : s.pc = .l081DD0EC)
    (hplace : (f.track c).place (4*q) = some ⟨s.r3,s.r2.toNat⟩) (hq : q < n)
    (hr8 : s.r8.toNat = 4*(n-q)) :
    Reaches (next f) s ((fixedJob f c right left).Over (4*n) (fixedAfter f c (4*n))) := by
  have hslt : (4 : Word).slt s.r8 ↔ 4 < s.r8.toNat := slt_small (by decide) (by omega)
  refine (tailWord (by omega) h hpc hplace).bind fun t ht => ?_
  obtain ⟨hword,htr8,htpc,hp⟩ | ⟨m,-,hm,hnone,hover⟩ := ht
  · by_cases hmore : (4 : Word).slt s.r8
    · rw [if_pos hmore] at htpc
      have hsub : t.r8.toNat = s.r8.toNat-4 := by
        rw [htr8]
        exact BitVec.toNat_sub_of_le (show 4 ≤ s.r8.toNat by omega)
      have := hslt.mp hmore
      exact hrest t hword htpc hp (by omega) (by omega)
    · rw [if_neg hmore] at htpc
      have : ¬4 < s.r8.toNat := mt hslt.mpr hmore
      obtain rfl : n = q+1 := by omega
      exact writeBack hword htpc hp
  · exact Reaches.done (over_of_none hnone (by omega) hover)

/-- More samples are left than outputs: only whole words. -/
theorem mixes_whole (hbound : f.buffer.toNat+4*n ≤ 2^30)
    (h : (fixedJob f c right left).AtWord q s) (hpc : s.pc = .l081DD0A8)
    (hplace : (f.track c).place (4*q) = some ⟨s.r3,s.r2.toNat+s.r8.toNat⟩) (hr2 : 0 < s.r2.toNat)
    (hq : q < n) (hr8 : s.r8.toNat = 4*(n-q)) (hr9 : s.r9 = 0) :
    Reaches (next f) s ((fixedJob f c right left).Over (4*n) (fixedAfter f c (4*n))) := by
  obtain ⟨w,hw⟩ : ∃ w, n-q = w+1 := ⟨n-q-1,by omega⟩
  have hn : q+w+1 = n := by omega
  refine (fastLoop w (by omega) hr2 h hpc (by rw [hplace,hr8,hw]) (by omega) (by omega)).bind
    fun t ⟨hword,hp,htr2,htr8,htpc⟩ => ?_
  have hzero : t.r8 = 0 := by
    rw [htr8,hr9,add_zero,sub_eq_zero]
    apply BitVec.eq_of_toNat_eq
    rw [BitVec.toNat_ofNat]
    omega
  rw [if_pos hzero] at htpc
  rw [hn] at hword hp
  rw [← htr2] at hp
  exact writeBack hword htpc hp

/-- The count that is left for the loop over single samples. -/
theorem toNat_splitRest (r2 : Word) :
    (if r2 &&& 0x3 = 0 then (4 : Word) else r2 &&& 0x3).toNat = if r2.toNat%4 = 0 then 4 else r2.toNat%4 := by
  have hmod : (r2 &&& 0x3).toNat = r2.toNat%4 := by
    rw [BitVec.toNat_and]
    exact Nat.and_two_pow_sub_one_eq_mod r2.toNat 2
  by_cases hzero : r2 &&& 0x3 = 0
  · rw [if_pos hzero,if_pos (by rw [← hmod,hzero]; rfl)]
    rfl
  · have hne : r2.toNat%4 ≠ 0 := fun h => hzero (BitVec.eq_of_toNat_eq (hmod.trans h))
    rw [if_neg hzero,if_neg hne,hmod]

/-- The sample ends in the frame: whole words up to its last one to four samples, the rest of it
with the rest of the frame. -/
theorem mixes_split (hbound : f.buffer.toNat+4*n ≤ 2^30) (hrest : ∀ p, q < p → Mixes f c right left n p)
    (h : (fixedJob f c right left).AtWord q s) (hpc : s.pc = .l081DD0A8) {r2 r8 : Word}
    (hplace : (f.track c).place (4*q) = some ⟨s.r3,r2.toNat⟩) (hmore : 4 < r2.toNat)
    (hle : r2.toNat ≤ r8.toNat) (hq : q < n) (hr8 : r8.toNat = 4*(n-q)) (hsr8 : s.r8 = r2-4)
    (hsr9 : s.r9 = r8-(r2-4)) (hsr2 : s.r2 = if r2 &&& 0x3 = 0 then 4 else r2 &&& 0x3) :
    Reaches (next f) s ((fixedJob f c right left).Over (4*n) (fixedAfter f c (4*n))) := by
  obtain ⟨w,hw⟩ : ∃ w, (r2.toNat-1)/4 = w+1 := ⟨(r2.toNat-1)/4-1,by omega⟩
  have hleft : s.r2.toNat = r2.toNat-4*(w+1) := by
    rw [hsr2,toNat_splitRest]
    split_ifs <;> omega
  have hcount : s.r8.toNat = r2.toNat-4 := by
    rw [hsr8]
    exact BitVec.toNat_sub_of_le (show 4 ≤ r2.toNat by omega)
  refine (fastLoop w (by omega) (show 0 < s.r2.toNat by omega) h hpc
    (by rw [hplace,hleft,Nat.sub_add_cancel (by omega)]) (by omega) (by omega)).bind
    fun t ⟨hword,hp,htr2,htr8,htpc⟩ => ?_
  have hgone : t.r8 = r8-BitVec.ofNat 32 (4*(w+1)) := by
    rw [htr8,hsr9,hsr8]
    ring
  have hstill : t.r8.toNat = 4*(n-(q+w+1)) := by
    have hsmall : (BitVec.ofNat 32 (4*(w+1))).toNat = 4*(w+1) := by
      rw [BitVec.toNat_ofNat]
      omega
    rw [hgone,BitVec.toNat_sub_of_le (show (BitVec.ofNat 32 (4*(w+1))).toNat ≤ r8.toNat by omega),hsmall]
    omega
  have hne : t.r8 ≠ 0 := by
    intro hzero
    have : t.r8.toNat = 0 := congrArg BitVec.toNat hzero
    omega
  rw [if_neg hne] at htpc
  rw [← htr2] at hp
  exact mixes_tail hbound (hrest _ (by omega)) hword htpc hp (by omega) hstill

/-- The frame from one of its words on. -/
theorem mixes (hbound : f.buffer.toNat+4*n ≤ 2^30) (m : ℕ) (hm : n-q ≤ m) : Mixes f c right left n q := by
  induction m generalizing q with
  | zero =>
    intro s _ _ _ hq
    omega
  | succ m ih =>
    intro s h hpc hplace hq hr8
    have hrest : ∀ p, q < p → Mixes f c right left n p := fun p hp => ih (by omega)
    apply Reaches.step
    by_cases hfew : s.r2.sle 4
    · have hone : next f s = {s with pc := .l081DD0EC} := by
        unfold next
        rw [hpc]
        exact if_pos hfew
      rw [hone]
      exact mixes_tail hbound (hrest _ (by omega)) h rfl hplace hq hr8
    · obtain ⟨hmore,hsmall⟩ := small_of_not_sle (by decide) hfew
      have hcompare : s.r8.slt s.r2 ↔ s.r8.toNat < s.r2.toNat := slt_small (by omega) hsmall
      by_cases hall : s.r8.slt s.r2
      · have hone : next f s = {s with r2 := s.r2-s.r8, r9 := 0, pc := .l081DD0A8} := by
          unfold next
          rw [hpc]
          exact (if_neg hfew).trans (if_pos hall)
        have hlt := hcompare.mp hall
        have hsub : (s.r2-s.r8).toNat = s.r2.toNat-s.r8.toNat := BitVec.toNat_sub_of_le hlt.le
        rw [hone]
        refine mixes_whole hbound h rfl ?_ (show 0 < (s.r2-s.r8).toNat by omega) hq hr8 rfl
        rw [hplace,hsub,Nat.sub_add_cancel hlt.le]
      · have hone : next f s = {s with
            r2 := if s.r2 &&& 0x3 = 0 then 4 else s.r2 &&& 0x3, r8 := s.r2-4,
            r9 := s.r8-(s.r2-4), pc := .l081DD0A8} := by
          unfold next
          rw [hpc]
          refine (if_neg hfew).trans ((if_neg hall).trans ?_)
          rw [sub_add_cancel]
        rw [hone]
        exact mixes_split hbound hrest h rfl hplace hmore (Nat.not_lt.mp (mt hcompare.mpr hall)) hq hr8
          rfl rfl rfl

end Frame

section Mixing

/-- Mixing at a fixed pitch is mixing one sample after the other: the outputs that are played get the
scaled sample added, the others stay, and the channel is where the samples have led it. -/
theorem fixed_mixing (f : Frame) (s : State) (hpc : s.pc = .l081DCF60)
    (hon : s.channel.status &&& 0xC7 ≠ 0) (hplain : s.channel.type &&& 0x30 = 0)
    (hfix : s.channel.type &&& 0x8 ≠ 0) (hcount : s.channel.ct ≠ 0)
    (hwords : 4 ∣ f.samples.toNat) (hsome : f.samples ≠ 0)
    (hbuffer : f.buffer.toNat+f.samples.toNat ≤ 2^30) :
    Reaches (next f) s ((fixedJob f s.channel s.right s.left).Over f.samples.toNat
      (fixedAfter f s.channel f.samples.toNat)) := by
  obtain ⟨n,hn⟩ := hwords
  have hpos : 0 < f.samples.toNat := Nat.pos_of_ne_zero fun h => hsome (BitVec.eq_of_toNat_eq h)
  have hfirst : 0 < s.channel.ct.toNat := Nat.pos_of_ne_zero fun h => hcount (BitVec.eq_of_toNat_eq h)
  refine (enter hpc hon hplain (fixedJob f s.channel s.right s.left).played).bind fun t ⟨hword,hr2,hr3,hr8,_,htpc⟩ => ?_
  rw [if_neg hfix] at htpc
  rw [hn] at hbuffer hpos ⊢
  refine mixes hbuffer n (Nat.sub_le n 0) t hword htpc ?_ (by omega) (by rw [hr8]; exact hn)
  rw [hr2,hr3]
  exact Track.place_zero _ hfirst

/-- Eight outputs of five samples without a loop: the last ones stay. -/
def fiveSamples : Frame where
  data a := a.setWidth 8
  buffer := 0
  loopStart := 0
  loopLength := 0
  divFreq := 0
  samples := 8

def fiveLeft : State where
  pc := .l081DCF60
  r0 := 0
  r1 := 0
  r2 := 0
  r3 := 0
  r4 := 0
  r5 := 0
  r6 := 0
  r7 := 0
  r8 := 0
  r9 := 0
  r10 := 0
  r11 := 0
  lr := 0
  z := false
  channel := {status := 2, type := 8, er := 0x80, el := 0x40, fw := 0, freq := 0, ct := 5, cp := 0x100}
  right _ := 0
  left _ := 0

theorem fixed_mixing_fiveLeft :
    Reaches (next fiveSamples) fiveLeft
      ((fixedJob fiveSamples fiveLeft.channel fiveLeft.right fiveLeft.left).Over 8
        {fiveLeft.channel with status := 0}) :=
  fixed_mixing fiveSamples fiveLeft rfl (by decide) (by decide) (by decide) (by decide)
    (by decide) (by decide) (by decide)

end Mixing

end Mixer
end M4a
end AgbTools
