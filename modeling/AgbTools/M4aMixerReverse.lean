import AgbTools.M4aMixerDelta

/-! The loops of `sub_81DD264` that play a wave backwards, next to the loop that plays the mirrored
wave forwards. -/
namespace AgbTools
namespace M4a
namespace Mixer

open Runs RotatingWord LoopedTrack

section Code

/-- The labels of the two loops. `fetch` is the place behind `ble _081DD4F4`, which has no label. -/
inductive Place
  | outside | l081DD3D8 | l081DD3E0 | l081DD428 | l081DD434 | l081DD440
  | l081DD480 | l081DD488 | fetch | l081DD4CC
deriving DecidableEq

structure Reverse extends Delta where
  place : Place

/-- `bl sub_81DD520` and `sub r1, r1, r0` for the sample before `r3`. -/
def previousSample (f : Frame) (wav : Word) (s : Delta) : Delta :=
  let s := sub_81DD520 f wav { s with r3 := s.r3-1 }
  { s with r1 := s.r1-s.r0 }

/-- The sample at `r3` in `r0`, and the one before it. -/
def bothBack (f : Frame) (wav : Word) (s : Delta) : Delta :=
  let s := sub_81DD520 f wav s
  previousSample f wav { s with r0 := s.r1 }

/-- `ldrsb` with a write back, and `ldrsb` and `sub` for the sample before it. -/
def plainBack (f : Frame) (n : Word) (s : Delta) : Delta :=
  { s with r3 := s.r3-n, r0 := f.ldrsb (s.r3-n), r1 := f.ldrsb (s.r3-n-1)-f.ldrsb (s.r3-n) }

/-- An output of either loop; `same` is where it goes with the samples that it has. -/
def mixOutput (same : Place) (jump : Delta → Reverse) (s : Delta) : Reverse :=
  let lr : Word := s.r0+(s.r9*s.r1).sshiftRight 23
  let s : Delta := { s with toState := mixSample lr s.toState }
  let r9 : Word := s.r9+s.r8
  let lr : Word := r9 >>> 23
  if lr = 0 then { s with r9 := r9, lr := lr, place := same } else
    let r9 : Word := r9 &&& ~~~0x3F800000
    let r2 : Word := s.r2-lr
    if s.r2.sle lr then { s with r9 := r9, r2 := r2, lr := lr, label := .l081DD4F4, place := .outside }
    else jump { s with r9 := r9, r2 := r2, lr := lr }

/-- What is behind an output; `back` is what the pointer runs ahead. -/
def outputEnd (output word : Place) (back : Word) (s : Delta) : Reverse :=
  if ¬wordDone s.toState then { s with r5 := s.r5+0x40000000, place := output } else
    let s : Delta := { s with toState := storeWords { s.toState with r5 := s.r5+0x40000000 } }
    let r6 : Word := s.counter-4
    if (4 : Word).slt s.counter then { s with r6 := r6, counter := r6, place := word }
    else { s with r6 := r6, counter := r6, r3 := s.r3+back, label := .l081DD4F0, place := .outside }

def reverseNext (f : Frame) (wav : Word) (s : Reverse) : Reverse :=
  match s.place with
  | .outside =>
    if s.pc = .sub_81DD264 ∧ s.label = .l081DD3C0 then
      { bothBack f wav { s.toDelta with r3 := s.r3-1 } with place := .l081DD3D8 }
    else if s.pc = .sub_81DD264 ∧ s.label = .l081DD480 then
      { plainBack f 1 s.toDelta with place := .l081DD480 }
    else { s with toDelta := deltaNext f wav s.toDelta }
  | .l081DD3D8 => { s with toState := loadWords s.toState, place := .l081DD3E0 }
  | .l081DD3E0 =>
    mixOutput .l081DD440 (fun s =>
      let lr : Word := s.lr-1
      if lr ≠ 0 then { s with lr := lr, place := .l081DD428 }
      else { s with lr := lr, r0 := s.r0+s.r1, place := .l081DD434 }) s.toDelta
  | .l081DD428 => { bothBack f wav { s.toDelta with r3 := s.r3-s.lr } with place := .l081DD440 }
  | .l081DD434 => { previousSample f wav s.toDelta with place := .l081DD440 }
  | .l081DD440 => outputEnd .l081DD3E0 .l081DD3D8 2 s.toDelta
  | .l081DD480 => { s with toState := loadWords s.toState, place := .l081DD488 }
  | .l081DD488 => mixOutput .l081DD4CC (fun s => { s with place := .fetch }) s.toDelta
  | .fetch => { plainBack f s.lr s.toDelta with place := .l081DD4CC }
  | .l081DD4CC => outputEnd .l081DD488 .l081DD480 1 s.toDelta

end Code

section Mirror

variable {f g : Frame} {wav base : Word} {s : Reverse} {p : State} {c d : Channel}

/-- The samples of a wave, compressed or not: by number or by address. -/
def Frame.sampleAt (f : Frame) (wav i : Word) : Byte := if f.half wav = 0 then f.data i else waveSample f wav i

/-- Behind the last sample. -/
def Frame.top (f : Frame) (wav : Word) : Word :=
  if f.half wav = 0 then wav+0x10+f.word (wav+0xC) else f.word (wav+0xC)

/-- The wave in the other direction at `base`, for the loop that mixes a wave as it is. -/
structure Mirrored (f : Frame) (wav base : Word) (g : Frame) : Prop where
  data : ∀ i, g.data (base+i) = f.sampleAt wav (f.top wav-1-i)
  buffer : g.buffer = f.buffer
  samples : g.samples = f.samples
  loopLength : g.loopLength = 0

/-- How far the channel is from the end of the wave: one that has just been started has a pointer,
which tells how far it is to be from there. -/
def Channel.depth (f : Frame) (wav : Word) (c : Channel) : Word :=
  if c.status &&& 0x20 = 0 then c.cp-wav-0x10 else f.top wav-c.cp

/-- The channel `c` plays the wave backwards as `d` plays the mirrored one forwards. -/
structure Turned (f : Frame) (wav base : Word) (g : Frame) (c d : Channel) : Prop where
  backward : c.type &&& 0x10 ≠ 0
  plain : d.type &&& 0x30 = 0
  pitched : d.type &&& 0x8 = 0
  step : g.step d = f.deltaStep c
  er : d.er = c.er
  el : d.el = c.el
  status : d.status &&& ~~~0x20 = c.status &&& ~~~0x20
  fw : c.status &&& 0xC7 ≠ 0 → d.fw = c.fw
  ct : c.status &&& 0xC7 ≠ 0 → d.ct = c.ct
  cp : c.status &&& 0xC7 ≠ 0 → d.cp = base+c.depth f wav

/-- The loop for compressed waves runs one sample ahead of the other one. -/
def Place.ahead : Place → Word
  | .l081DD480 | .l081DD488 | .fetch | .l081DD4CC => 0
  | _ => 1

/-- The label that does the same. -/
def Place.facing : Place → Label
  | .l081DD3D8 | .l081DD480 => .l081DD1B4
  | .l081DD3E0 | .l081DD488 => .l081DD1BC
  | .l081DD428 | .l081DD434 | .fetch => .l081DD1FC
  | .l081DD440 | .l081DD4CC => .l081DD208
  | .outside => .l081DD240

/-- What each loop knows of the wave. -/
def Knows (f : Frame) (wav : Word) (s : Reverse) : Prop :=
  match s.place with
  | .l081DD480 | .l081DD488 | .fetch | .l081DD4CC =>
    f.half wav = 0 ∧ s.r0 = f.ldrsb s.r3 ∧ s.r1 = f.ldrsb (s.r3-1)-f.ldrsb s.r3
  | _ => f.half wav ≠ 0 ∧ Cached f wav s.toDelta

/-- Both loops are at the same place. -/
structure Faces (f : Frame) (wav base : Word) (c d : Channel) (s : Reverse) (p : State) : Prop where
  entered : s.pc = .sub_81DD264
  inLoop : s.place ≠ .outside
  knows : Knows f wav s
  pc : p.pc = s.place.facing
  jump : s.place = .l081DD428 → p.z = false ∧ p.lr = s.lr
  follow : s.place = .l081DD434 → p.z = true
  fetch : s.place = .fetch →
    p.z = false ∧ p.lr = s.lr-1 ∧ p.r0 = s.r0 ∨ p.z = true ∧ s.lr = 1 ∧ p.r0 = s.r0+s.r1
  r0 : s.place ≠ .fetch → p.r0 = s.r0
  r1 : p.r1 = s.r1
  r2 : p.r2 = s.r2
  r3 : p.r3 = base+(f.top wav-(s.r3+s.place.ahead))
  r4 : p.r4 = s.r8
  r5 : p.r5 = s.r5
  words : s.place ≠ .l081DD3D8 → s.place ≠ .l081DD480 → p.r6 = s.r6 ∧ p.r7 = s.r7
  r8 : p.r8 = s.counter
  r9 : p.r9 = s.r9
  r10 : p.r10 = s.r10
  r11 : p.r11 = s.r11
  channel : s.channel = c
  plain : p.channel = d
  right : p.right = s.right
  left : p.left = s.left

/-- As far from the start of the mirrored wave as `x` is from the end there is the sample in front of
`x`. -/
theorem Mirrored.at (hg : Mirrored f wav base g) {a x y : Word} (ha : a = base+(f.top wav-x)) (hx : x = y+1) :
    g.ldrsb a = (f.sampleAt wav y).signExtend 32 := by
  rw [Frame.ldrsb,ha,hg.data]
  congr 2
  rw [hx]
  ring

theorem sampleAt_plain (hwave : f.half wav = 0) (i : Word) : f.sampleAt wav i = f.data i := if_pos hwave

theorem sampleAt_compressed (hwave : f.half wav ≠ 0) (i : Word) : f.sampleAt wav i = waveSample f wav i :=
  if_neg hwave

theorem Cached.previousSample {s : Delta} (h : Cached f wav s) : ∃ xpi decoded,
    previousSample f wav s = { s with
      r3 := s.r3-1, r1 := (waveSample f wav (s.r3-1)).signExtend 32-s.r0
      xpi := xpi, decoded := decoded } ∧
    Cached f wav (previousSample f wav s) := by
  obtain ⟨xpi,decoded,hfetch,hcached⟩ := Cached.fetch (f := f) (s := { s with r3 := s.r3-1 }) h
  unfold Mixer.previousSample
  rw [hfetch] at hcached ⊢
  exact ⟨xpi,decoded,rfl,hcached⟩

theorem Cached.bothBack {s : Delta} (h : Cached f wav s) : ∃ xpi decoded,
    bothBack f wav s = { s with
      r0 := (waveSample f wav s.r3).signExtend 32, r3 := s.r3-1
      r1 := (waveSample f wav (s.r3-1)).signExtend 32-(waveSample f wav s.r3).signExtend 32
      xpi := xpi, decoded := decoded } ∧
    Cached f wav (bothBack f wav s) := by
  obtain ⟨xpi,decoded,hfetch,hcached⟩ := h.fetch
  unfold Mixer.bothBack
  rw [hfetch] at hcached ⊢
  obtain ⟨xpi,decoded,hnext,hcached⟩ := Cached.previousSample (f := f) (s := { s with
    r0 := (waveSample f wav s.r3).signExtend 32, r1 := (waveSample f wav s.r3).signExtend 32
    xpi := xpi, decoded := decoded }) hcached
  exact ⟨xpi,decoded,hnext,hcached⟩

/-- A clause about another place says nothing. -/
theorem away {l l' : Place} {q : Prop} (h : decide (l = l') = false) : l = l' → q :=
  fun heq => absurd heq (of_decide_eq_false h)

/-- The places where the flag and the link register do not matter. -/
def Place.Bare : Place → Prop
  | .outside | .l081DD428 | .l081DD434 | .fetch => False
  | _ => True

/-- The state of the loop for the mirrored wave at such a place. -/
theorem faces_bare {r6 r7 lr : Word} {z : Bool} (hpc : s.pc = .sub_81DD264) (hbare : s.place.Bare)
    (hknows : Knows f wav s) (hchannel : s.channel = c)
    (hwords : s.place ≠ .l081DD3D8 → s.place ≠ .l081DD480 → r6 = s.r6 ∧ r7 = s.r7) :
    Faces f wav base c d s
      { pc := s.place.facing, r0 := s.r0, r1 := s.r1, r2 := s.r2
        r3 := base+(f.top wav-(s.r3+s.place.ahead)), r4 := s.r8, r5 := s.r5, r6 := r6, r7 := r7
        r8 := s.counter, r9 := s.r9, r10 := s.r10, r11 := s.r11, lr := lr, z := z, channel := d
        right := s.right, left := s.left } where
  entered := hpc
  inLoop := fun hplace => by rw [hplace] at hbare; exact hbare
  knows := hknows
  pc := rfl
  jump := fun hplace => by rw [hplace] at hbare; exact hbare.elim
  follow := fun hplace => by rw [hplace] at hbare; exact hbare.elim
  fetch := fun hplace => by rw [hplace] at hbare; exact hbare.elim
  r0 := fun _ => rfl
  r1 := rfl
  r2 := rfl
  r3 := rfl
  r4 := rfl
  r5 := rfl
  words := hwords
  r8 := rfl
  r9 := rfl
  r10 := rfl
  r11 := rfl
  channel := hchannel
  plain := rfl
  right := rfl
  left := rfl

/-- Both machines come to rest with the same buffers, and the channels are turned. -/
structure Matches (f : Frame) (wav base : Word) (g : Frame) (s : Reverse) (p : State) : Prop where
  right : p.right = s.right
  left : p.left = s.left
  channel : Turned f wav base g s.channel p.channel

def RestAlike (f : Frame) (wav base : Word) (g : Frame) (s : Reverse) (p : State) : Prop :=
  ∃ t u, (t.pc = .l081DD240 ∧ t.place = .outside) ∧ u.pc = .l081DD240 ∧
    Reaches (reverseNext f wav) s (· = t) ∧ Reaches (next g) p (· = u) ∧ Matches f wav base g t u

theorem Turned.written (h : Turned f wav base g c d) (hflag : c.status &&& 0x20 ≠ 0) (fw ct : Word)
    {r3 cp : Word} (hcp : cp = base+(f.top wav-r3)) :
    Turned f wav base g { c with fw := fw, ct := ct, cp := r3 } { d with fw := fw, ct := ct, cp := cp } where
  backward := h.backward
  plain := h.plain
  pitched := h.pitched
  step := h.step
  er := h.er
  el := h.el
  status := h.status
  fw _ := rfl
  ct _ := rfl
  cp _ := hcp.trans (congrArg (base+·) (if_neg hflag).symm)

theorem Turned.ended (h : Turned f wav base g c d) (fw ct r3 : Word) :
    Turned f wav base g { c with status := 0, fw := fw, ct := ct, cp := r3 } { d with status := 0 } where
  backward := h.backward
  plain := h.plain
  pitched := h.pitched
  step := h.step
  er := h.er
  el := h.el
  status := rfl
  fw hon := absurd (show (0 : Byte) &&& 0xC7 = 0 by decide) hon
  ct hon := absurd (show (0 : Byte) &&& 0xC7 = 0 by decide) hon
  cp hon := absurd (show (0 : Byte) &&& 0xC7 = 0 by decide) hon

/-- Outside of its loops the machine does what the machine for compressed waves does. -/
theorem reverseNext_outside {e : Delta}
    (h : e.pc = .sub_81DD264 → e.label ≠ .l081DD3C0 ∧ e.label ≠ .l081DD480) :
    reverseNext f wav ⟨e,.outside⟩ = ⟨deltaNext f wav e,.outside⟩ := by
  unfold reverseNext
  dsimp only
  rw [if_neg fun hin => (h hin.1).1 hin.2,if_neg fun hin => (h hin.1).2 hin.2]

/-- The wave has ended: the open word is completed, and the channel is off. -/
theorem Turned.over (h : Turned f wav base g c d) (hg : Mirrored f wav base g) (hpc : s.pc = .sub_81DD264)
    (hplace : s.place = .outside) (hlabel : s.label = .l081DD4F4) (hchannel : s.channel = c)
    (hp : p.pc = .l081DD134) (hd : p.channel = d) (h5 : p.r5 = s.r5) (h6 : p.r6 = s.r6) (h7 : p.r7 = s.r7)
    (hr : p.right = s.right) (hl : p.left = s.left) : RestAlike f wav base g s p := by
  obtain ⟨⟨⟨pc,r0,r1,r2,r3,r4,r5,r6,r7,r8,r9,r10,r11,lr,z,channel,right,left⟩,label,counter,xpi,decoded⟩,
    place⟩ := s
  obtain ⟨ppc,p0,p1,p2,p3,p4,p5,p6,p7,p8,p9,p10,p11,plr,pz,pchannel,pright,pleft⟩ := p
  dsimp only at hpc hplace hlabel hchannel hp hd h5 h6 h7 hr hl
  subst hpc hplace hlabel hchannel hp hd h5 h6 h7 hr hl
  have hnone : next g ⟨.l081DD134,p0,p1,p2,p3,p4,p5,p6,p7,p8,p9,p10,p11,plr,pz,pchannel,pright,pleft⟩ =
      ⟨.l081DD158,g.loopLength,p1,p2,p3,p4,p5,p6,p7,p8,p9,p10,p11,plr,pz,pchannel,pright,pleft⟩ :=
    if_pos hg.loopLength
  refine ⟨_,(next g)^[2]
    ⟨.l081DD158,g.loopLength,p1,p2,p3,p4,p5,p6,p7,p8,p9,p10,p11,plr,pz,pchannel,pright,pleft⟩,
    ⟨rfl,rfl⟩,rfl,⟨3,rfl⟩,Reaches.step ?_,rfl,rfl,h.ended r9 0 r3⟩
  rw [hnone]
  exact ⟨2,rfl⟩

/-- The frame is over: both channels stay where they are. -/
theorem Turned.stays (h : Turned f wav base g c d) (hflag : c.status &&& 0x20 ≠ 0)
    (hpc : s.pc = .sub_81DD264) (hplace : s.place = .outside) (hlabel : s.label = .l081DD4F0)
    (hchannel : s.channel = c) (hp : p.pc = .l081DD228) (hd : p.channel = d) (h2 : p.r2 = s.r2)
    (h3 : p.r3 = base+(f.top wav-s.r3)) (h9 : p.r9 = s.r9) (hr : p.right = s.right) (hl : p.left = s.left) :
    RestAlike f wav base g s p := by
  obtain ⟨⟨⟨pc,r0,r1,r2,r3,r4,r5,r6,r7,r8,r9,r10,r11,lr,z,channel,right,left⟩,label,counter,xpi,decoded⟩,
    place⟩ := s
  dsimp only at hpc hplace hlabel hchannel h2 h3 h9 hr hl
  subst hpc hplace hlabel hchannel
  refine ⟨_,_,⟨rfl,rfl⟩,rfl,⟨3,rfl⟩,⟨2,write_back hp⟩,hr,hl,?_⟩
  dsimp only
  rw [hd,h9,h2]
  exact h.written hflag r9 r2 h3

theorem ite_both {P : Reverse → State → Prop} {s s' : Reverse} {p p' : State} {a b : Prop}
    {da : Decidable a} {db : Decidable b} (hab : a ↔ b) (hyes : a → P s p) (hno : ¬a → P s' p') :
    P (@ite _ a da s s') (@ite _ b db p p') := by
  by_cases ha : a
  · rw [if_pos ha,if_pos (hab.mp ha)]
    exact hyes ha
  · rw [if_neg ha,if_neg (mt hab.mpr ha)]
    exact hno ha

/-- One step of both. -/
theorem Faces.step (h : Faces f wav base c d s p) (hg : Mirrored f wav base g)
    (ht : Turned f wav base g c d) (hflag : c.status &&& 0x20 ≠ 0) :
    Faces f wav base c d (reverseNext f wav s) (next g p) ∨
      RestAlike f wav base g (reverseNext f wav s) (next g p) := by
  obtain ⟨hinside,hloop,hknows,hpc,hjump,hfollow,hfetch,h0,h1,h2,h3,h4,h5,hwords,h8,h9,h10,h11,hc,hd,hr,
    hl⟩ := h
  obtain ⟨⟨⟨pc,r0,r1,r2,r3,r4,r5,r6,r7,r8,r9,r10,r11,lr,z,channel,right,left⟩,label,counter,xpi,decoded⟩,
    place⟩ := s
  obtain ⟨ppc,p0,p1,p2,p3,p4,p5,p6,p7,p8,p9,p10,p11,plr,pz,pchannel,pright,pleft⟩ := p
  dsimp only at hinside hloop hpc hjump hfollow hfetch h0 h1 h2 h3 h4 h5 hwords h8 h9 h10 h11 hc hd hr hl
  subst hinside hpc h1 h2 h3 h4 h5 h8 h9 h10 h11 hc hd hr hl
  cases place with
  | outside => exact absurd rfl hloop
  | l081DD3D8 | l081DD480 =>
    obtain rfl := h0 nofun
    exact .inl (faces_bare rfl trivial hknows rfl fun _ _ => ⟨rfl,rfl⟩)
  | l081DD3E0 =>
    obtain rfl := h0 nofun
    obtain ⟨rfl,rfl⟩ := hwords nofun nofun
    dsimp only [reverseNext,mixOutput,next,Place.facing,mixSample]
    refine ite_both (P := fun s p => Faces f wav base _ _ s p ∨ RestAlike f wav base g s p) Iff.rfl
      (fun hsame => ?_) fun hmoved => ?_
    · exact .inl (faces_bare rfl trivial hknows rfl fun _ _ => ⟨rfl,rfl⟩)
    refine ite_both (P := fun s p => Faces f wav base _ _ s p ∨ RestAlike f wav base g s p) Iff.rfl
      (fun hover => ?_) fun hmore => ?_
    · exact .inr (ht.over hg rfl rfl rfl rfl rfl rfl rfl rfl rfl rfl rfl)
    left
    by_cases hone : (p9+p4) >>> 23-1 = 0
    · rw [if_neg (not_not.mpr hone)]
      exact ⟨rfl,nofun,hknows,rfl,nofun,fun _ => decide_eq_true hone,nofun,fun _ => if_pos hone,rfl,rfl,rfl,
        rfl,rfl,fun _ _ => ⟨rfl,rfl⟩,rfl,rfl,rfl,rfl,rfl,rfl,rfl,rfl⟩
    · rw [if_pos hone]
      exact ⟨rfl,nofun,hknows,rfl,fun _ => ⟨decide_eq_false hone,rfl⟩,nofun,nofun,fun _ => if_neg hone,rfl,
        rfl,rfl,rfl,rfl,fun _ _ => ⟨rfl,rfl⟩,rfl,rfl,rfl,rfl,rfl,rfl,rfl,rfl⟩
  | l081DD488 =>
    obtain rfl := h0 nofun
    obtain ⟨rfl,rfl⟩ := hwords nofun nofun
    dsimp only [reverseNext,mixOutput,next,Place.facing,mixSample]
    refine ite_both (P := fun s p => Faces f wav base _ _ s p ∨ RestAlike f wav base g s p) Iff.rfl
      (fun hsame => ?_) fun hmoved => ?_
    · exact .inl (faces_bare rfl trivial hknows rfl fun _ _ => ⟨rfl,rfl⟩)
    refine ite_both (P := fun s p => Faces f wav base _ _ s p ∨ RestAlike f wav base g s p) Iff.rfl
      (fun hover => ?_) fun hmore => ?_
    · exact .inr (ht.over hg rfl rfl rfl rfl rfl rfl rfl rfl rfl rfl rfl)
    left
    by_cases hone : (p9+p4) >>> 23-1 = 0
    · have hlast : (p9+p4) >>> 23 = 1 := sub_eq_zero.mp hone
      exact ⟨rfl,nofun,hknows,rfl,nofun,nofun,fun _ => .inr ⟨decide_eq_true hone,hlast,if_pos hone⟩,
        fun hnot => absurd rfl hnot,rfl,rfl,rfl,rfl,rfl,fun _ _ => ⟨rfl,rfl⟩,rfl,rfl,rfl,rfl,rfl,rfl,rfl,rfl⟩
    · exact ⟨rfl,nofun,hknows,rfl,nofun,nofun,fun _ => .inl ⟨decide_eq_false hone,rfl,if_neg hone⟩,
        fun hnot => absurd rfl hnot,rfl,rfl,rfl,rfl,rfl,fun _ _ => ⟨rfl,rfl⟩,rfl,rfl,rfl,rfl,rfl,rfl,rfl,rfl⟩
  | l081DD428 =>
    obtain ⟨rfl,rfl⟩ := hjump rfl
    obtain rfl := h0 nofun
    obtain ⟨rfl,rfl⟩ := hwords nofun nofun
    obtain ⟨hwave,hcached⟩ := hknows
    obtain ⟨xpi',decoded',hboth,hcached⟩ := Cached.bothBack (s := ⟨⟨.sub_81DD264,p0,p1,p2,r3-plr,r4,p5,p6,p7,
      p4,p9,p10,p11,plr,z,channel,pright,pleft⟩,label,p8,xpi,decoded⟩) hcached
    rw [hboth] at hcached
    left
    rw [fetch_jump rfl rfl]
    dsimp only [reverseNext]
    rw [hboth]
    have hfirst : base+(f.top wav-(r3+1))+plr = base+(f.top wav-(r3-plr+1)) := by ring
    have hsecond : base+(f.top wav-(r3+1))+plr+1 = base+(f.top wav-(r3-plr-1+1)) := by ring
    dsimp only [Place.ahead]
    rw [hg.at hfirst rfl,hg.at hsecond rfl,hsecond,sampleAt_compressed hwave,sampleAt_compressed hwave]
    exact faces_bare (s := ⟨⟨⟨_,_,_,_,_,_,_,_,_,_,_,_,_,_,_,_,_,_⟩,_,_,_,_⟩,.l081DD440⟩) rfl trivial
      ⟨hwave,hcached⟩ rfl fun _ _ => ⟨rfl,rfl⟩
  | l081DD434 =>
    obtain rfl := hfollow rfl
    obtain rfl := h0 nofun
    obtain ⟨rfl,rfl⟩ := hwords nofun nofun
    obtain ⟨hwave,hcached⟩ := hknows
    obtain ⟨xpi',decoded',hprevious,hcached⟩ := hcached.previousSample
    rw [hprevious] at hcached
    left
    rw [fetch_next rfl rfl]
    dsimp only [reverseNext]
    rw [hprevious]
    have hsecond : base+(f.top wav-(r3+1))+1 = base+(f.top wav-(r3-1+1)) := by ring
    dsimp only [Place.ahead]
    rw [hg.at hsecond rfl,hsecond,sampleAt_compressed hwave]
    exact faces_bare (s := ⟨⟨⟨_,_,_,_,_,_,_,_,_,_,_,_,_,_,_,_,_,_⟩,_,_,_,_⟩,.l081DD440⟩) rfl trivial
      ⟨hwave,hcached⟩ rfl fun _ _ => ⟨rfl,rfl⟩
  | fetch =>
    obtain ⟨rfl,rfl⟩ := hwords nofun nofun
    obtain ⟨hwave,hr0,hr1⟩ := hknows
    left
    obtain ⟨rfl,rfl,rfl⟩ | ⟨rfl,rfl,rfl⟩ := hfetch rfl
    · have hfirst : base+(f.top wav-(r3+0))+(lr-1) = base+(f.top wav-(r3-lr+1)) := by ring
      have hsecond : base+(f.top wav-(r3+0))+(lr-1)+1 = base+(f.top wav-(r3-lr+0)) := by ring
      rw [fetch_jump rfl rfl]
      dsimp only [reverseNext,plainBack,Place.ahead]
      rw [hg.at hfirst rfl,hg.at hsecond (y := r3-lr-1) (by ring),hsecond,sampleAt_plain hwave,
        sampleAt_plain hwave]
      exact faces_bare (s := ⟨⟨⟨_,_,_,_,_,_,_,_,_,_,_,_,_,_,_,_,_,_⟩,_,_,_,_⟩,.l081DD4CC⟩) rfl trivial
        ⟨hwave,rfl,rfl⟩ rfl fun _ _ => ⟨rfl,rfl⟩
    · have hsecond : base+(f.top wav-(r3+0))+1 = base+(f.top wav-(r3-1+0)) := by ring
      have hnext : r0+p1 = f.ldrsb (r3-1) := by
        rw [show r0 = f.ldrsb r3 from hr0,show p1 = f.ldrsb (r3-1)-f.ldrsb r3 from hr1]
        ring
      rw [fetch_next rfl rfl]
      dsimp only [reverseNext,plainBack,Place.ahead]
      rw [hg.at hsecond (y := r3-1-1) (by ring),hsecond,sampleAt_plain hwave,hnext]
      exact faces_bare (s := ⟨⟨⟨_,_,_,_,_,_,_,_,_,_,_,_,_,_,_,_,_,_⟩,_,_,_,_⟩,.l081DD4CC⟩) rfl trivial
        ⟨hwave,rfl,rfl⟩ rfl fun _ _ => ⟨rfl,rfl⟩
  | l081DD440 =>
    obtain rfl := h0 nofun
    obtain ⟨rfl,rfl⟩ := hwords nofun nofun
    obtain ⟨hwave,hcached⟩ := hknows
    have hback : base+(f.top wav-(r3+1))-1 = base+(f.top wav-(r3+2)) := by ring
    dsimp only [reverseNext,outputEnd,next,Place.facing,Place.ahead]
    refine ite_both (P := fun s p => Faces f wav base _ _ s p ∨ RestAlike f wav base g s p) Iff.rfl
      (fun hopen => ?_) fun hdone => ?_
    · exact .inl (faces_bare rfl trivial ⟨hwave,fun i => hcached i⟩ rfl fun _ _ => ⟨rfl,rfl⟩)
    refine ite_both (P := fun s p => Faces f wav base _ _ s p ∨ RestAlike f wav base g s p) Iff.rfl
      (fun hmore => ?_) fun hover => ?_
    · exact .inl ⟨rfl,nofun,⟨hwave,fun i => hcached i⟩,rfl,nofun,nofun,nofun,fun _ => rfl,rfl,rfl,rfl,rfl,rfl,
        fun hnot => absurd rfl hnot,rfl,rfl,rfl,rfl,rfl,rfl,rfl,rfl⟩
    · exact .inr (ht.stays hflag rfl rfl rfl rfl rfl rfl rfl hback rfl rfl rfl)
  | l081DD4CC =>
    obtain rfl := h0 nofun
    obtain ⟨rfl,rfl⟩ := hwords nofun nofun
    obtain ⟨hwave,hr0,hr1⟩ := hknows
    have hback : base+(f.top wav-(r3+0))-1 = base+(f.top wav-(r3+1)) := by ring
    dsimp only [reverseNext,outputEnd,next,Place.facing,Place.ahead]
    refine ite_both (P := fun s p => Faces f wav base _ _ s p ∨ RestAlike f wav base g s p) Iff.rfl
      (fun hopen => ?_) fun hdone => ?_
    · exact .inl (faces_bare rfl trivial ⟨hwave,hr0,hr1⟩ rfl fun _ _ => ⟨rfl,rfl⟩)
    refine ite_both (P := fun s p => Faces f wav base _ _ s p ∨ RestAlike f wav base g s p) Iff.rfl
      (fun hmore => ?_) fun hover => ?_
    · exact .inl ⟨rfl,nofun,⟨hwave,hr0,hr1⟩,rfl,nofun,nofun,nofun,fun _ => rfl,rfl,rfl,rfl,rfl,rfl,
        fun _ hnot => absurd rfl hnot,rfl,rfl,rfl,rfl,rfl,rfl,rfl,rfl⟩
    · exact .inr (ht.stays hflag rfl rfl rfl rfl rfl rfl rfl hback rfl rfl rfl)

theorem Turned.on (h : Turned f wav base g c d) : d.status &&& 0xC7 = c.status &&& 0xC7 := by
  rw [status_on,h.status,← status_on]

theorem Turned.called (h : Turned f wav base g c d) : c.type &&& 0x30 ≠ 0 := by
  have hpart (b : Byte) (hb : b &&& 0x10 ≠ 0) : b &&& 0x30 ≠ 0 := by
    revert b
    decide
  exact hpart _ h.backward

/-- The channel from its first turn on. -/
def Channel.turned (f : Frame) (wav : Word) (c : Channel) : Channel :=
  { c with status := c.status ||| 0x20, cp := f.top wav-c.depth f wav }

theorem Channel.depth_turned (f : Frame) (wav : Word) (c : Channel) :
    (c.turned f wav).depth f wav = c.depth f wav :=
  (if_neg (entered_flag c.status)).trans (sub_sub_cancel _ _)

theorem Turned.turned (h : Turned f wav base g c d) : Turned f wav base g (c.turned f wav) d := by
  have hon : (c.turned f wav).status &&& 0xC7 = c.status &&& 0xC7 := by
    rw [status_on,Channel.turned,entered_status,← status_on]
  obtain ⟨hbackward,hplain,hpitched,hstep,her,hel,hstatus,hfw,hct,hcp⟩ := h
  refine ⟨hbackward,hplain,hpitched,hstep,her,hel,?_,?_,?_,?_⟩
  · rw [hstatus]
    exact (entered_status c.status).symm
  · rw [hon]
    exact hfw
  · rw [hon]
    exact hct
  · rw [hon,Channel.depth_turned]
    exact hcp

/-- From the first turn on the channel knows how far the end is. -/
theorem Turned.inside_first {e : Delta} (h : Turned f wav base g e.channel d)
    (hlabel : e.label = .l081DD264) (hr3 : e.r3 = e.channel.cp) : inside f wav e = { e with
      r3 := f.top wav-e.channel.depth f wav, channel := e.channel.turned f wav, label := .l081DD2B4 } := by
  obtain ⟨⟨pc,r0,r1,r2,r3,r4,r5,r6,r7,r8,r9,r10,r11,lr,z,⟨status,type,er,el,fw,freq,ct,cp⟩,right,left⟩,
    label,counter,xpi,decoded⟩ := e
  obtain rfl : label = .l081DD264 := hlabel
  obtain rfl : r3 = cp := hr3
  have hbackward : type &&& 0x10 ≠ 0 := h.backward
  have hdouble : wav <<< 1 = wav+wav := by
    rw [BitVec.shiftLeft_eq_mul_twoPow]
    exact (mul_two wav)
  dsimp only [inside,Channel.depth,Channel.turned,Frame.top]
  by_cases hflag : status &&& 0x20 = 0
  · rw [if_neg (not_not.mpr hflag),if_neg hbackward,if_pos hflag,hdouble]
    by_cases hwave : f.half wav = 0
    · have hplain : f.word (wav+0xC)+(wav+wav)+0x20-r3 = wav+0x10+f.word (wav+0xC)-(r3-wav-0x10) := by ring
      rw [if_pos hwave,if_pos hwave,hplain]
    · have hcompressed : f.word (wav+0xC)+(wav+wav)+0x20-r3-wav-0x10 =
          f.word (wav+0xC)-(r3-wav-0x10) := by ring
      rw [if_neg hwave,if_neg hwave,hcompressed]
  · rw [if_pos hflag,if_neg hflag,or_flag status hflag,sub_sub_cancel]

/-- Where the two loops begin, with the samples that are fetched in front of them. -/
theorem Turned.first {e : Delta} (h : Turned f wav base g e.channel d) (hpc : e.pc = .sub_81DD264)
    (hlabel : e.label = .l081DD2B4) : ∃ xpi decoded label place, let a : Reverse := { e with
        counter := e.r8, r10 := e.r10 <<< 16, r11 := e.r11 <<< 16, r8 := f.deltaStep e.channel
        r0 := (f.sampleAt wav (e.r3-1)).signExtend 32
        r1 := (f.sampleAt wav (e.r3-1-1)).signExtend 32-(f.sampleAt wav (e.r3-1)).signExtend 32
        r3 := e.r3-1-place.ahead, xpi := xpi, decoded := decoded, label := label, place := place }
      (place = .l081DD3D8 ∨ place = .l081DD480) ∧ Knows f wav a ∧
        reverseNext f wav (reverseNext f wav ⟨e,.outside⟩) = a := by
  obtain ⟨s,label,counter,xpi,decoded⟩ := e
  obtain rfl : label = .l081DD2B4 := hlabel
  set r : State := { s with r10 := s.r10 <<< 16, r11 := s.r11 <<< 16, r8 := f.deltaStep s.channel } with hr
  have hnot : DeltaLabel.l081DD2B4 ≠ .l081DD3C0 ∧ DeltaLabel.l081DD2B4 ≠ .l081DD480 := by decide
  have hfirst : DeltaLabel.l081DD480 ≠ .l081DD3C0 := by decide
  rw [reverseNext_outside fun _ => hnot,deltaNext_inside hpc]
  by_cases hwave : f.half wav = 0
  · have hone : inside f wav ⟨s,.l081DD2B4,counter,xpi,decoded⟩ = ⟨r,.l081DD480,s.r8,xpi,decoded⟩ :=
      (if_pos hwave).trans (if_neg h.backward)
    have hfetch : reverseNext f wav ⟨⟨r,.l081DD480,s.r8,xpi,decoded⟩,.outside⟩ =
        ⟨plainBack f 1 ⟨r,.l081DD480,s.r8,xpi,decoded⟩,.l081DD480⟩ :=
      (if_neg fun hin => hfirst hin.2).trans (if_pos ⟨hpc,rfl⟩)
    rw [hone,hfetch]
    have hzero : s.r3-1-0 = s.r3-1 := sub_zero _
    refine ⟨xpi,decoded,.l081DD480,.l081DD480,.inr rfl,?_,?_⟩
    · dsimp only [Knows,Place.ahead]
      rw [hzero,sampleAt_plain hwave,sampleAt_plain hwave]
      exact ⟨hwave,rfl,rfl⟩
    · dsimp only [Place.ahead]
      rw [hzero,sampleAt_plain hwave,sampleAt_plain hwave]
      rfl
  · have hone : inside f wav ⟨s,.l081DD2B4,counter,xpi,decoded⟩ = ⟨r,.l081DD3C0,s.r8,0xFF000000,decoded⟩ :=
      (if_neg hwave).trans (if_pos h.backward)
    have hfetch : reverseNext f wav ⟨⟨r,.l081DD3C0,s.r8,0xFF000000,decoded⟩,.outside⟩ =
        ⟨bothBack f wav ⟨{ r with r3 := s.r3-1 },.l081DD3C0,s.r8,0xFF000000,decoded⟩,.l081DD3D8⟩ :=
      if_pos ⟨hpc,rfl⟩
    have hstart : Cached f wav ⟨{ r with r3 := s.r3-1 },.l081DD3C0,s.r8,0xFF000000,decoded⟩ := cached_start rfl
    obtain ⟨xpi',decoded',hboth,hcached⟩ := hstart.bothBack
    rw [hboth] at hcached
    rw [hone,hfetch,hboth]
    refine ⟨xpi',decoded',.l081DD3C0,.l081DD3D8,.inl rfl,?_,?_⟩
    · dsimp only [Knows,Place.ahead]
      exact ⟨hwave,fun i => hcached i⟩
    · dsimp only [Place.ahead]
      rw [sampleAt_compressed hwave,sampleAt_compressed hwave]

theorem Turned.enter {e : Delta} (h : Turned f wav base g e.channel d) (hon : e.channel.status &&& 0xC7 ≠ 0)
    (hpc : e.pc = .l081DCF60) (hlabel : e.label = .l081DD264) :
    ∃ xpi decoded label place, let a : Reverse := { e with
        pc := .sub_81DD264, channel := e.channel.turned f wav, counter := f.samples, r5 := f.buffer
        r2 := e.channel.ct, r9 := e.channel.fw
        r10 := e.channel.er.setWidth 32 <<< 16, r11 := e.channel.el.setWidth 32 <<< 16
        r8 := f.deltaStep e.channel
        r0 := (f.sampleAt wav (f.top wav-e.channel.depth f wav-1)).signExtend 32
        r1 := (f.sampleAt wav (f.top wav-e.channel.depth f wav-1-1)).signExtend 32-
          (f.sampleAt wav (f.top wav-e.channel.depth f wav-1)).signExtend 32
        r3 := f.top wav-e.channel.depth f wav-1-place.ahead
        xpi := xpi, decoded := decoded, label := label, place := place }
      (place = .l081DD3D8 ∨ place = .l081DD480) ∧ Knows f wav a ∧
        Reaches (reverseNext f wav) ⟨e,.outside⟩ (· = a) := by
  have houtside : e.pc ≠ .sub_81DD264 := by
    rw [hpc]
    nofun
  have hone : next f e.toState = { e.toState with pc := .l081DD03A } := by
    unfold next
    rw [hpc]
    exact if_neg hon
  have hfirst : reverseNext f wav ⟨e,.outside⟩ = ⟨{ e with pc := .l081DD03A },.outside⟩ := by
    rw [reverseNext_outside fun hin => absurd hin houtside,deltaNext_outside houtside hone]
  have hsecond : reverseNext f wav ⟨{ e with pc := .l081DD03A },.outside⟩ = ⟨{ e with
      r5 := f.buffer, r2 := e.channel.ct, r3 := e.channel.cp, r8 := f.samples, r9 := e.channel.fw
      r10 := e.channel.er.setWidth 32, r11 := e.channel.el.setWidth 32, pc := .sub_81DD264 },.outside⟩ := by
    have hpc' : Label.l081DD03A ≠ .sub_81DD264 := by decide
    rw [reverseNext_outside fun hin => absurd hin hpc']
    exact congrArg (Reverse.mk · .outside)
      (deltaNext_outside (s := { e with pc := .l081DD03A }) hpc' (if_neg h.called))
  have hnot : DeltaLabel.l081DD264 ≠ .l081DD3C0 ∧ DeltaLabel.l081DD264 ≠ .l081DD480 := by decide
  obtain ⟨xpi,decoded,label,place,hplace,hknows,hreaches⟩ := Turned.first (e := { e with
      r5 := f.buffer, r2 := e.channel.ct, r3 := f.top wav-e.channel.depth f wav, r8 := f.samples
      r9 := e.channel.fw, r10 := e.channel.er.setWidth 32, r11 := e.channel.el.setWidth 32
      pc := .sub_81DD264, channel := e.channel.turned f wav, label := .l081DD2B4 }) h.turned rfl rfl
  refine ⟨xpi,decoded,label,place,hplace,hknows,Reaches.step (Reaches.step (Reaches.step ⟨2,?_⟩))⟩
  rw [hfirst,hsecond,reverseNext_outside fun _ => by rw [hlabel]; exact hnot,deltaNext_inside rfl]
  rw [Turned.inside_first (e := { e with
      r5 := f.buffer, r2 := e.channel.ct, r3 := e.channel.cp, r8 := f.samples, r9 := e.channel.fw
      r10 := e.channel.er.setWidth 32, r11 := e.channel.el.setWidth 32, pc := .sub_81DD264 }) h hlabel rfl]
  exact hreaches

/-- The samples of a channel that is on are fetched on both sides. -/
theorem Turned.faces_start {e : Delta} (h : Turned f wav base g e.channel p.channel)
    (hg : Mirrored f wav base g) (hon : e.channel.status &&& 0xC7 ≠ 0) (he : e.pc = .l081DCF60)
    (hlabel : e.label = .l081DD264) (hp : p.pc = .l081DCF60) (hright : p.right = e.right)
    (hleft : p.left = e.left) :
    ∃ a b, Reaches (reverseNext f wav) ⟨e,.outside⟩ (· = a) ∧ Reaches (next g) p (· = b) ∧
      Faces f wav base (e.channel.turned f wav) p.channel a b := by
  obtain ⟨xpi,decoded,label,place,hplace,hknows,hreaches⟩ := h.enter hon he hlabel
  obtain ⟨m,⟨⟨hchannel,hr10,hr11⟩,hr5,hright',hleft'⟩,hr2,hr3,hr8,hr9,hpc⟩ :=
    Mixer.enter (f := g) hp (by rwa [h.on]) h.plain fun _ => none
  rw [if_pos h.pitched] at hpc
  refine ⟨_,_,hreaches,⟨m+1,(Function.iterate_succ_apply' _ _ _).trans (fetch_first hpc)⟩,?_⟩
  generalize (next g)^[m] p = t at *
  generalize hdepth : e.channel.depth f wav = depth at *
  have hfirst : t.r3 = base+(f.top wav-(f.top wav-depth)) := by
    rw [hr3,h.cp hon,hdepth]
    ring
  have hsecond : t.r3+1 = base+(f.top wav-(f.top wav-depth-1)) := by
    rw [hfirst]
    ring
  have hahead : f.top wav-depth-1-place.ahead+place.ahead = f.top wav-depth-1 := sub_add_cancel _ _
  have hbuffer : t.r5 = f.buffer := by
    rw [Nat.mul_zero,Nat.add_zero] at hr5
    exact (BitVec.eq_of_toNat_eq hr5).trans hg.buffer
  have hinLoop : place ≠ .outside ∧ place ≠ .l081DD428 ∧ place ≠ .l081DD434 ∧ place ≠ .fetch := by
    rcases hplace with rfl | rfl <;> decide
  have hwords (q : Prop) (h3D8 : place ≠ .l081DD3D8) (h480 : place ≠ .l081DD480) : q :=
    (hplace.elim h3D8 h480).elim
  have hfacing : place.facing = .l081DD1B4 := by
    rcases hplace with rfl | rfl <;> rfl
  refine ⟨rfl,hinLoop.1,hknows,hfacing.symm,fun hjump => absurd hjump hinLoop.2.1,
    fun hfollow => absurd hfollow hinLoop.2.2.1,fun hfetch => absurd hfetch hinLoop.2.2.2,?_,?_,
    hr2.trans (h.ct hon),?_,?_,hbuffer,hwords _,hr8.trans hg.samples,hr9.trans (h.fw hon),?_,?_,rfl,hchannel,?_,?_⟩
  · intro _
    show g.ldrsb t.r3 = _
    rw [hg.at hfirst (sub_add_cancel _ _).symm]
  · show g.ldrsb (t.r3+1)-g.ldrsb t.r3 = _
    rw [hg.at hsecond (sub_add_cancel _ _).symm,hg.at hfirst (sub_add_cancel _ _).symm]
  · show t.r3+1 = _
    rw [hsecond]
    dsimp only
    rw [hahead]
  · show g.divFreq*t.channel.freq = _
    rw [hchannel]
    exact h.step
  · show t.r10 = _
    rw [hr10,← h.er]
  · show t.r11 = _
    rw [hr11,← h.el]
  · show t.right = _
    rw [hright',← hright]
    exact mixed_zero ..
  · show t.left = _
    rw [hleft',← hleft]
    exact mixed_zero ..

theorem Place.facing_ne {l : Place} (h : l ≠ .outside) : l.facing ≠ .l081DD240 := by
  cases l <;> first | exact absurd rfl h | nofun

/-- The end of a turn. -/
def Reverse.Rests (t : Reverse) : Prop := t.pc = .l081DD240 ∧ t.place = .outside

theorem reverseNext_rest {t : Reverse} (h : t.Rests) : reverseNext f wav t = t := by
  obtain ⟨e,place⟩ := t
  obtain ⟨hpc,rfl⟩ : e.pc = .l081DD240 ∧ place = .outside := h
  have houtside : e.pc ≠ .sub_81DD264 := by
    rw [hpc]
    nofun
  rw [reverseNext_outside fun hin => absurd hin houtside,deltaNext_rest hpc]

def ReverseLeaves (f : Frame) (wav : Word) (s t : Reverse) : Prop :=
  t.Rests ∧ Reaches (reverseNext f wav) s (· = t)

/-- When one of the two comes to rest, so does the other one. -/
def RestTurned (f : Frame) (wav base : Word) (g : Frame) (s : Reverse) (p : State) : Prop :=
  (∀ t, ReverseLeaves f wav s t → ∃ u, Leaves g p u ∧ Matches f wav base g t u) ∧
    ∀ u, Leaves g p u → ∃ t, ReverseLeaves f wav s t ∧ Matches f wav base g t u

theorem RestAlike.turned (h : RestAlike f wav base g s p) : RestTurned f wav base g s p := by
  obtain ⟨t,u,ht,hu,hst,hpu,hsame⟩ := h
  refine ⟨fun t' ht' => ⟨u,⟨hu,hpu⟩,?_⟩,fun u' hu' => ⟨t,⟨ht,hst⟩,?_⟩⟩
  · have hone : t' = t := ht'.2.rest (Q := (· = t)) (reverseNext_rest ht'.1) hst fun v hv => by
      rw [hv,reverseNext_rest ht]
    rwa [hone]
  · have hone : u' = u := hu'.2.rest (Q := (· = u)) (next_rest hu'.1) hpu fun v hv => by
      rw [hv,next_rest hu]
    rwa [hone]

theorem Faces.turned (h : Faces f wav base c d s p) (hg : Mirrored f wav base g)
    (ht : Turned f wav base g c d) (hflag : c.status &&& 0x20 ≠ 0) : RestTurned f wav base g s p := by
  have hreverse (s : Reverse) (p : State) (h : Faces f wav base c d s p) : ¬s.Rests :=
    fun hrests => h.inLoop hrests.2
  have hplain (p : State) (s : Reverse) (h : Faces f wav base c d s p) : p.pc ≠ .l081DD240 := by
    rw [h.pc]
    exact Place.facing_ne h.inLoop
  have hstep (s : Reverse) (p : State) (h : Faces f wav base c d s p) :
      Faces f wav base c d (reverseNext f wav s) (next g p) ∨ ∃ t u, t.Rests ∧ u.pc = .l081DD240 ∧
        Reaches (reverseNext f wav) s (· = t) ∧ Reaches (next g) p (· = u) ∧ Matches f wav base g t u := by
    refine (h.step hg ht hflag).imp_right fun hrest => ?_
    obtain ⟨t,u,ht,hu,hst,hpu,hsame⟩ := hrest
    exact ⟨t,u,ht,hu,hst.step,hpu.step,hsame⟩
  refine ⟨fun t ⟨ht,hst⟩ => ?_,fun u ⟨hu,hpu⟩ => ?_⟩
  · obtain ⟨u,hu,hpu,hsame⟩ := Reaches.lockstep (fun _ => reverseNext_rest) hreverse hstep h hst ht
    exact ⟨u,⟨hu,hpu⟩,hsame⟩
  · obtain ⟨t,ht,hst,hsame⟩ := Reaches.lockstep
      (r := fun p s => Faces f wav base c d s p) (q := fun u t => Matches f wav base g t u)
      (fun _ => next_rest) hplain (fun p s h => by
        obtain hnext | ⟨t,u,ht,hu,hst,hpu,hsame⟩ := hstep s p h
        · exact .inl hnext
        · exact .inr ⟨u,t,hu,ht,hpu,hst,hsame⟩) h hpu hu
    exact ⟨t,⟨ht,hst⟩,hsame⟩

/-- A channel that is off is passed over. -/
theorem Turned.off {e : Delta} (h : Turned f wav base g e.channel p.channel)
    (hoff : e.channel.status &&& 0xC7 = 0) (he : e.pc = .l081DCF60) (hp : p.pc = .l081DCF60)
    (hright : p.right = e.right) (hleft : p.left = e.left) : RestAlike f wav base g ⟨e,.outside⟩ p := by
  have hreverse : next f e.toState = { e.toState with pc := .l081DD240 } := by
    unfold next
    rw [he]
    exact if_pos hoff
  have hplain : next g p = { p with pc := .l081DD240 } := by
    unfold next
    rw [hp]
    exact if_pos (h.on.trans hoff)
  have houtside : e.pc ≠ .sub_81DD264 := by
    rw [he]
    nofun
  have hone : reverseNext f wav ⟨e,.outside⟩ = ⟨{ e with pc := .l081DD240 },.outside⟩ := by
    rw [reverseNext_outside fun hin => absurd hin houtside,deltaNext_outside houtside hreverse]
  exact ⟨_,_,⟨rfl,rfl⟩,rfl,⟨1,hone⟩,⟨1,hplain⟩,hright,hleft,h⟩

/-- One turn of the channel. -/
theorem Turned.turn {e : Delta} (h : Turned f wav base g e.channel p.channel) (hg : Mirrored f wav base g)
    (he : e.pc = .l081DCF60) (hlabel : e.label = .l081DD264) (hp : p.pc = .l081DCF60)
    (hright : p.right = e.right) (hleft : p.left = e.left) : RestTurned f wav base g ⟨e,.outside⟩ p := by
  by_cases hoff : e.channel.status &&& 0xC7 = 0
  · exact (h.off hoff he hp hright hleft).turned
  obtain ⟨a,b,hea,hpb,hfaces⟩ := h.faces_start hg hoff he hlabel hp hright hleft
  obtain ⟨hreverse,hplain⟩ := hfaces.turned hg h.turned (entered_flag e.channel.status)
  refine ⟨fun t ⟨ht,hst⟩ => ?_,fun u ⟨hu,hpu⟩ => ?_⟩
  · obtain ⟨u,⟨hu,hbu⟩,hsame⟩ := hreverse t ⟨ht,hea.through hst (reverseNext_rest ht)⟩
    exact ⟨u,⟨hu,hpb.bind fun b' hb => hb ▸ hbu⟩,hsame⟩
  · obtain ⟨t,⟨ht,hat⟩,hsame⟩ := hplain u ⟨hu,hpb.through hpu (next_rest hu)⟩
    exact ⟨t,⟨ht,hea.bind fun a' ha => ha ▸ hat⟩,hsame⟩

end Mirror

section Passes

/-- A frame of the channel: the place and the number of its samples, and what the machine and the
buffers hold before it. -/
structure Pass where
  buffer : Word
  samples : Word
  before : Delta

def Frame.pass (f : Frame) (x : Pass) : Frame := { f with buffer := x.buffer, samples := x.samples }

def Pass.back (x : Pass) (c : Channel) : Reverse :=
  ⟨{ x.before with pc := .l081DCF60, label := .l081DD264, channel := c },.outside⟩

def Pass.forth (x : Pass) (d : Channel) : State := { x.before.toState with pc := .l081DCF60, channel := d }

/-- Frames of a channel one after another, with the buffers that each of them leaves. -/
inductive PlaysBack (f : Frame) (wav : Word) :
    List Pass → Channel → List ((ℕ → Byte) × (ℕ → Byte)) → Channel → Prop
  | nil {c} : PlaysBack f wav [] c [] c
  | cons {x xs c t outs c'} (hturn : ReverseLeaves (f.pass x) wav (x.back c) t)
      (hrest : PlaysBack f wav xs t.channel outs c') : PlaysBack f wav (x::xs) c ((t.right,t.left)::outs) c'

inductive PlaysForth (g : Frame) :
    List Pass → Channel → List ((ℕ → Byte) × (ℕ → Byte)) → Channel → Prop
  | nil {d} : PlaysForth g [] d [] d
  | cons {x xs d u outs d'} (hturn : Leaves (g.pass x) (x.forth d) u)
      (hrest : PlaysForth g xs u.channel outs d') : PlaysForth g (x::xs) d ((u.right,u.left)::outs) d'

/-- The wave of `c` in the other direction, at `base` and at the pitch of `c`. -/
def Frame.mirror (f : Frame) (wav base : Word) (c : Channel) : Frame := { f with
  data := fun a => f.sampleAt wav (f.top wav-1-(a-base)), loopLength := 0, divFreq := f.deltaStep c }

def Channel.mirror (f : Frame) (wav base : Word) (c : Channel) : Channel :=
  { c with type := 0, freq := 1, cp := base+c.depth f wav }

variable {f g : Frame} {wav base : Word} {c d : Channel}

theorem mirror_mirrored (f : Frame) (wav base : Word) (c : Channel) :
    Mirrored f wav base (f.mirror wav base c) where
  data i := by
    dsimp only [Frame.mirror]
    rw [add_sub_cancel_left]
  buffer := rfl
  samples := rfl
  loopLength := rfl

theorem mirror_turned (f : Frame) (wav base : Word) (hbackward : c.type &&& 0x10 ≠ 0) :
    Turned f wav base (f.mirror wav base c) c (c.mirror f wav base) where
  backward := hbackward
  plain := BitVec.zero_and
  pitched := BitVec.zero_and
  step := mul_one _
  er := rfl
  el := rfl
  status := rfl
  fw _ := rfl
  ct _ := rfl
  cp _ := rfl

theorem Mirrored.pass (h : Mirrored f wav base g) (x : Pass) :
    Mirrored (f.pass x) wav base (g.pass x) where
  data := h.data
  buffer := rfl
  samples := rfl
  loopLength := h.loopLength

theorem Turned.pass (h : Turned f wav base g c d) (x : Pass) :
    Turned (f.pass x) wav base (g.pass x) c d := ⟨h.1,h.2,h.3,h.4,h.5,h.6,h.7,h.8,h.9,h.10⟩

theorem Turned.frames (hg : Mirrored f wav base g) (h : Turned f wav base g c d) (x : Pass) :
    RestTurned (f.pass x) wav base (g.pass x) (x.back c) (x.forth d) :=
  Turned.turn (e := { x.before with pc := .l081DCF60, label := .l081DD264, channel := c }) (h.pass x) (hg.pass x)
    rfl rfl rfl rfl rfl

theorem Matches.channel_pass {s : Reverse} {p : State} {x : Pass}
    (h : Matches (f.pass x) wav base (g.pass x) s p) : Turned f wav base g s.channel p.channel :=
  ⟨h.3.1,h.3.2,h.3.3,h.3.4,h.3.5,h.3.6,h.3.7,h.3.8,h.3.9,h.3.10⟩

/-- A wave that is played backwards, compressed or not, sounds in every frame as its mirror image does
forwards: the same bytes are added to the buffers, whatever these hold, and it ends with it. -/
theorem reverse_playback (f : Frame) (wav base : Word) (c : Channel) (hbackward : c.type &&& 0x10 ≠ 0)
    (xs : List Pass) (outs : List ((ℕ → Byte) × (ℕ → Byte))) :
    let g := f.mirror wav base c
    (∀ c', PlaysBack f wav xs c outs c' →
      ∃ d', PlaysForth g xs (c.mirror f wav base) outs d' ∧ Turned f wav base g c' d') ∧
    ∀ d', PlaysForth g xs (c.mirror f wav base) outs d' →
      ∃ c', PlaysBack f wav xs c outs c' ∧ Turned f wav base g c' d' := by
  have hg := mirror_mirrored f wav base c
  have hturned := mirror_turned f wav base hbackward
  dsimp only
  generalize f.mirror wav base c = g at *
  generalize c.mirror f wav base = d at *
  clear hbackward
  refine ⟨fun c' hback => ?_,fun d' hforth => ?_⟩
  · induction hback generalizing d with
    | nil => exact ⟨d,.nil,hturned⟩
    | @cons x xs c t outs c' hturn _ ih =>
      obtain ⟨u,hu,hsame⟩ := (hturned.frames hg x).1 t hturn
      obtain ⟨d',hforth,hlast⟩ := ih u.channel hsame.channel_pass
      rw [← hsame.right,← hsame.left]
      exact ⟨d',.cons hu hforth,hlast⟩
  · induction hforth generalizing c with
    | nil => exact ⟨c,.nil,hturned⟩
    | @cons x xs d u outs d' hturn _ ih =>
      obtain ⟨t,ht,hsame⟩ := (hturned.frames hg x).2 u hturn
      obtain ⟨c',hback,hlast⟩ := ih t.channel hsame.channel_pass
      rw [hsame.right,hsame.left]
      exact ⟨c',.cons ht hback,hlast⟩

/-- A compressed wave that is played backwards from its end. -/
def backFrame : Frame := { sixSamples with
  data := fun a => if a = 0 then 1 else if a = 0xC then 6 else if a < 0x10 then 0 else a.setWidth 8 }

def backPass : Pass := ⟨0,4,{ sixLeft with label := .l081DD264, counter := 0, xpi := 0, decoded := fun _ => 0 }⟩

def backChannel : Channel := { sixLeft.channel with type := 0x30, cp := 0x10 }

def backFirst : Reverse := (reverseNext (backFrame.pass backPass) 0)^[21] (backPass.back backChannel)

def backSecond : Reverse := (reverseNext (backFrame.pass backPass) 0)^[13] (backPass.back backFirst.channel)

theorem reverse_playback_six : backSecond.channel.status = 0 ∧
    ∃ d', PlaysForth (backFrame.mirror 0 0 backChannel) [backPass,backPass] (backChannel.mirror backFrame 0 0)
        [(backFirst.right,backFirst.left),(backSecond.right,backSecond.left)] d' ∧
      Turned backFrame 0 0 (backFrame.mirror 0 0 backChannel) backSecond.channel d' := by
  have hfirst : ReverseLeaves (backFrame.pass backPass) 0 (backPass.back backChannel) backFirst :=
    ⟨⟨by decide +kernel,by decide +kernel⟩,21,rfl⟩
  have hsecond : ReverseLeaves (backFrame.pass backPass) 0 (backPass.back backFirst.channel) backSecond :=
    ⟨⟨by decide +kernel,by decide +kernel⟩,13,rfl⟩
  exact ⟨by decide +kernel,
    (reverse_playback backFrame 0 0 backChannel (by decide) _ _).1 _ (.cons hfirst (.cons hsecond .nil))⟩

end Passes

end Mixer
end M4a
end AgbTools
