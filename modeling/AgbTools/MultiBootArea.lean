import Mathlib.Tactic
import AgbTools.MultiBoot

/-! The multiboot image area: the two destination pointers never leave it, and every
word stored by the interrupt handler or rewritten by the decrypt loop lies in it. -/
namespace AgbTools
namespace MultiBoot

open Runs

/-- First address behind the image area. -/
def imageLimit : ℕ := ewramStart.toNat + 0x20000

theorem ewramStart_toNat : ewramStart.toNat = 0x2000000 := rfl
theorem imageLimit_eq : imageLimit = 0x2020000 := rfl

/-- The image and the pointers into it agree. -/
structure SameImage (s t : Machine) : Prop where
  base : t.baseDestPtr = s.baseDestPtr
  cur : t.curDestPtr = s.curDestPtr
  mem : t.mem = s.mem
  stores : t.stores = s.stores

/-- Everything an interrupt can do to the image: nothing, restart the handshake, accept
an image size, or append one word. -/
inductive SerialEffect (s : Machine) (recv : Word) (s' : Machine) : Prop
  | quiet (h : SameImage s s') (hh : s'.serialIntrHandler ≠ .checkImageResponse)
  | begun (hb : s'.baseDestPtr = ewramStart) (hc : s'.curDestPtr = ewramStart)
      (hs : s'.stores = s.stores) (hh : s'.serialIntrHandler = .checkGameCodeSent)
  | accepted (hb : s'.baseDestPtr = ewramStart) (hc : s'.curDestPtr = ewramStart)
      (hs : s'.stores = s.stores) (hr : recv < maximumImageSizeUInt32s)
      (hi : s'.imageSize = ((recv + 1) + (recv + 1)).setWidth 16)
  | word (h : s.serialIntrHandler = .checkImageResponse)
      (hb : s'.baseDestPtr = s.baseDestPtr) (hc : s'.curDestPtr = s.curDestPtr + 4)
      (hs : s'.stores = s.stores ++ [.received s.curDestPtr])
      (hi : s'.imageSize = s.imageSize - 1)
      (hh : s'.serialIntrHandler = .checkImageResponse → s.imageSize - 1 ≠ 0)

section Effects
variable {s t : Machine} {recv : Word} {v : BitVec 16}

theorem setInterruptHandler_effect (h : SameImage s t) {k : Handler}
    (hk : k ≠ .checkImageResponse) : SerialEffect s recv (setInterruptHandler t k v) :=
  .quiet ⟨h.base,h.cur,h.mem,h.stores⟩ hk

theorem intrStop_effect (h : SameImage s t) : SerialEffect s recv (intrStop t v) :=
  .quiet ⟨h.base,h.cur,h.mem,h.stores⟩ (by simp [intrStop,setInterruptHandler,readVCount])

theorem beginHandshake_effect (h : SameImage s t) : SerialEffect s recv (beginHandshake t v) := by
  simp only [beginHandshake]
  split
  · exact intrStop_effect ⟨h.base,h.cur,h.mem,h.stores⟩
  · exact .begun rfl rfl h.stores rfl

theorem handshakeResponse_effect (h : SameImage s t) :
    SerialEffect s recv (handshakeResponse t recv v) := by
  unfold handshakeResponse
  split
  · exact intrStop_effect h
  · exact .quiet ⟨h.base,h.cur,h.mem,h.stores⟩ (by simp [setInterruptHandler,readVCount])

theorem receiveKeyA_effect (h : SameImage s t) : SerialEffect s recv (receiveKeyA t recv v) := by
  unfold receiveKeyA
  split
  · exact intrStop_effect h
  · exact .quiet ⟨h.base,h.cur,h.mem,h.stores⟩ (by simp [setInterruptHandler,readVCount])

theorem imageSizeResponse_effect (h : SameImage s t) :
    SerialEffect s recv (imageSizeResponse t recv v) := by
  unfold imageSizeResponse
  split
  · exact intrStop_effect h
  · rename_i hr
    dsimp only
    split
    · exact intrStop_effect ⟨h.base,h.cur,h.mem,h.stores⟩
    · exact .accepted rfl rfl h.stores (by simpa using hr) rfl

theorem counter2Sent_effect (h : SameImage s t) : SerialEffect s recv (counter2Sent t v) := by
  unfold counter2Sent sendCounter2
  split
  · exact .quiet ⟨h.base,h.cur,h.mem,h.stores⟩ (by simp [setInterruptHandler,readVCount])
  · exact .quiet ⟨h.base,h.cur,h.mem,h.stores⟩ (by simp [setInterruptHandler,readVCount])

theorem bootKeyResponse_effect (h : SameImage s t) :
    SerialEffect s recv (bootKeyResponse t recv v) := by
  unfold bootKeyResponse
  split
  · exact intrStop_effect h
  · exact .quiet ⟨h.base,h.cur,h.mem,h.stores⟩ (by simp [setInterruptHandler,readVCount])

theorem imageResponse_effect (h : SameImage s t) (hi : t.imageSize = s.imageSize)
    (hs : s.serialIntrHandler = .checkImageResponse) :
    SerialEffect s recv (imageResponse t recv v) := by
  simp only [imageResponse,hi]
  split
  · rename_i hz
    refine .word hs h.base ?_ ?_ rfl (fun _ => hz) <;> simp [readVCount,h.cur,h.stores]
  · refine .word hs h.base ?_ ?_ rfl ?_ <;>
      simp [sendCounter2,setInterruptHandler,readVCount,h.cur,h.stores]

theorem runHandler_effect {i : Interrupt} (h : SameImage s t) (hi : t.imageSize = s.imageSize)
    (hh : t.serialIntrHandler = s.serialIntrHandler) (hn : t.serialIntrHandler ≠ .null) :
    SerialEffect s i.joyRecv (runHandler t i v) := by
  unfold runHandler
  split
  case h_1 hk => exact absurd hk hn
  case h_2 => exact intrStop_effect h
  case h_3 =>
    split_ifs
    · exact intrStop_effect h
    · exact handshakeResponse_effect h
    · exact setInterruptHandler_effect h (by simp)
  case h_4 =>
    split_ifs
    · exact intrStop_effect h
    · exact handshakeResponse_effect h
  case h_5 =>
    split_ifs
    · exact intrStop_effect h
    · exact receiveKeyA_effect h
  case h_6 =>
    split_ifs
    · exact intrStop_effect h
    · exact imageSizeResponse_effect h
    · exact setInterruptHandler_effect h (by simp)
  case h_7 =>
    split_ifs
    · exact intrStop_effect h
    · exact imageSizeResponse_effect h
  case h_8 hk =>
    split_ifs
    · exact intrStop_effect h
    · exact imageResponse_effect h hi (hh.symm.trans hk)
  case h_9 =>
    split_ifs
    · exact intrStop_effect h
    · exact counter2Sent_effect h
  case h_10 =>
    split_ifs
    · exact intrStop_effect h
    · exact bootKeyResponse_effect h
    · exact setInterruptHandler_effect h (by simp)
  case h_11 =>
    split_ifs
    · exact intrStop_effect h
    · exact bootKeyResponse_effect h
  case h_12 => exact intrStop_effect h

end Effects

theorem serial_effect (s : Machine) (joyCnt : BitVec 16) (recv : Word) (v : BitVec 16) :
    SerialEffect s recv (handleSerialInterrupt s joyCnt recv v) := by
  have h : SameImage s { s with
      joyCnt := joyCnt, counter1 := 0, seen := s.seen ++ [⟨joyCnt,recv,s.joyTrans⟩] } :=
    ⟨rfl,rfl,rfl,rfl⟩
  simp only [handleSerialInterrupt]
  split
  · rename_i hn
    exact .quiet h (by simp [hn])
  · rename_i hn
    split
    · exact beginHandshake_effect h
    · exact runHandler_effect (i := ⟨joyCnt,recv,s.joyTrans⟩) h rfl rfl hn

/-- Both pointers are word aligned and ordered inside the area. -/
structure InImage (s : Machine) : Prop where
  start : ewramStart.toNat ≤ s.baseDestPtr.toNat
  order : s.baseDestPtr.toNat ≤ s.curDestPtr.toNat
  limit : s.curDestPtr.toNat ≤ imageLimit
  aligned : s.baseDestPtr.toNat % 4 = 0
  curAligned : s.curDestPtr.toNat % 4 = 0

/-- Init leaves the pointers alone, so before the first reset command they may still be the
equal, otherwise arbitrary pointers of the initial struct. -/
structure AreaInv (s : Machine) : Prop where
  pointers : s.baseDestPtr = s.curDestPtr ∨ InImage s
  image : s.serialIntrHandler = .checkImageResponse →
    InImage s ∧ 1 ≤ s.imageSize.toNat ∧ s.curDestPtr.toNat + 4*s.imageSize.toNat ≤ imageLimit
  stores : ∀ a ∈ s.stores, ewramStart.toNat ≤ a.dest.toNat ∧ a.dest.toNat < imageLimit

theorem AreaInv.order {s : Machine} (h : AreaInv s) :
    s.baseDestPtr.toNat ≤ s.curDestPtr.toNat := by
  rcases h.pointers with he | hi
  · rw [he]
  · exact hi.order

theorem InImage.of_start {s : Machine} (hb : s.baseDestPtr = ewramStart)
    (hc : s.curDestPtr = ewramStart) : InImage s := by
  constructor <;> simp only [hb,hc,ewramStart_toNat,imageLimit_eq] <;> omega

theorem InImage.congr {s t : Machine} (h : InImage s) (hb : t.baseDestPtr = s.baseDestPtr)
    (hc : t.curDestPtr = s.curDestPtr) : InImage t :=
  ⟨hb ▸ h.start,hb ▸ hc ▸ h.order,hc ▸ h.limit,hb ▸ h.aligned,hc ▸ h.curAligned⟩

/-- A step that keeps the pointers and the stores and installs another handler. -/
theorem AreaInv.quiet {s t : Machine} (h : AreaInv s) (hi : SameImage s t)
    (hh : t.serialIntrHandler ≠ .checkImageResponse) : AreaInv t where
  pointers := by
    rcases h.pointers with he | hp
    · left; rw [hi.base,hi.cur,he]
    · exact Or.inr (hp.congr hi.base hi.cur)
  image := fun hk => absurd hk hh
  stores := by rw [hi.stores]; exact h.stores

/-- The invariant reads the pointers, the stores, the handler and the image size only. -/
theorem AreaInv.congr {s t : Machine} (h : AreaInv s) (hi : SameImage s t)
    (hh : t.serialIntrHandler = s.serialIntrHandler) (hz : t.imageSize = s.imageSize) :
    AreaInv t where
  pointers := by
    rcases h.pointers with he | hp
    · left; rw [hi.base,hi.cur,he]
    · exact Or.inr (hp.congr hi.base hi.cur)
  image := by
    intro hk
    obtain ⟨hin,hone,hfit⟩ := h.image (hh.symm.trans hk)
    exact ⟨hin.congr hi.base hi.cur,by rwa [hz],by rwa [hz,hi.cur]⟩
  stores := by rw [hi.stores]; exact h.stores

theorem AreaInv.init {s : Machine} (h : AreaInv s) : AreaInv (init s) :=
  h.quiet ⟨rfl,rfl,rfl,rfl⟩ (by simp [MultiBoot.init])

/-- The size word announces at most 0x8000 image words. -/
theorem imageSize_of_accepted {recv : Word} (hr : recv < maximumImageSizeUInt32s) :
    (((recv + 1) + (recv + 1)).setWidth 16).toNat = 2*(recv.toNat + 1) := by
  have hlt : recv.toNat < 0x4000 := by simpa [maximumImageSizeUInt32s,BitVec.lt_def] using hr
  simp only [BitVec.toNat_setWidth,BitVec.toNat_add]
  simp
  omega

theorem AreaInv.serial {s : Machine} (h : AreaInv s) (joyCnt : BitVec 16) (recv : Word)
    (v : BitVec 16) : AreaInv (handleSerialInterrupt s joyCnt recv v) := by
  rcases serial_effect s joyCnt recv v with ⟨hi,hh⟩ | ⟨hb,hc,hs,hh⟩ | ⟨hb,hc,hs,hr,hi⟩ |
    ⟨hk,hb,hc,hs,hi,hh⟩
  · exact h.quiet hi hh
  · exact ⟨Or.inl (hb.trans hc.symm),by simp [hh],by rw [hs]; exact h.stores⟩
  · have hn := imageSize_of_accepted hr
    have hlt : recv.toNat < 0x4000 := by simpa [maximumImageSizeUInt32s,BitVec.lt_def] using hr
    refine ⟨Or.inl (hb.trans hc.symm),fun _ => ⟨.of_start hb hc,?_⟩,by rw [hs]; exact h.stores⟩
    rw [hi,hn,hc,ewramStart_toNat,imageLimit_eq]
    omega
  · obtain ⟨hin,hone,hfit⟩ := h.image hk
    have hlim := imageLimit_eq
    have hcur : (s.curDestPtr + 4).toNat = s.curDestPtr.toNat + 4 := by
      rw [BitVec.toNat_add]; simp; omega
    have hsize : (s.imageSize - 1).toNat = s.imageSize.toNat - 1 := by
      rw [BitVec.toNat_sub]; simp; omega
    have hin' : InImage (handleSerialInterrupt s joyCnt recv v) := by
      have hst := hin.start; have hor := hin.order; have hal := hin.aligned; have hca := hin.curAligned
      constructor <;> simp only [hb,hc,hcur] <;> omega
    refine ⟨Or.inr hin',fun hk' => ⟨hin',?_⟩,?_⟩
    · have hz : (s.imageSize - 1).toNat ≠ 0 := fun h0 => hh hk' (BitVec.eq_of_toNat_eq h0)
      rw [hi,hc,hcur,hsize]
      omega
    · intro a ha
      rw [hs,List.mem_append,List.mem_singleton] at ha
      rcases ha with ha | rfl
      · exact h.stores a ha
      · have hst := hin.start; have hor := hin.order
        simp only [Store.dest]
        omega

/-- Moving the lower pointer inside the area. -/
theorem InImage.advance {s t : Machine} (h : InImage s) {n : ℕ} (hn : n % 4 = 0)
    (hle : s.baseDestPtr.toNat + n ≤ s.curDestPtr.toNat)
    (hb : t.baseDestPtr = s.baseDestPtr + BitVec.ofNat 32 n)
    (hc : t.curDestPtr = s.curDestPtr) : InImage t := by
  have hlim := h.limit
  have hal := h.aligned
  have hst := h.start
  have hca := h.curAligned
  have hb' : t.baseDestPtr.toNat = s.baseDestPtr.toNat + n := by
    have := s.curDestPtr.isLt
    rw [hb,BitVec.toNat_add,BitVec.toNat_ofNat]
    omega
  rw [imageLimit_eq] at hlim
  constructor <;> simp only [hb',hc,imageLimit_eq] <;> omega

theorem AreaInv.inImage {s : Machine} (h : AreaInv s) (hlt : s.baseDestPtr < s.curDestPtr) :
    InImage s := by
  rcases h.pointers with he | hi
  · exact absurd (he ▸ hlt) (by simp)
  · exact hi

theorem AreaInv.decryptStep {s : Machine} (h : AreaInv s) (hlt : s.baseDestPtr < s.curDestPtr) :
    AreaInv (decryptStep s) := by
  have hin := h.inImage hlt
  have hnat := BitVec.lt_def.mp hlt
  have hle : s.baseDestPtr.toNat + 4 ≤ s.curDestPtr.toNat := by
    have := hin.aligned; have := hin.curAligned; omega
  have hin' : InImage (MultiBoot.decryptStep s) := hin.advance (n := 4) (by omega) hle rfl rfl
  refine ⟨Or.inr hin',fun hk => ⟨hin',(h.image hk).2⟩,?_⟩
  intro a ha
  simp only [MultiBoot.decryptStep,List.mem_append,List.mem_singleton] at ha
  rcases ha with ha | rfl
  · exact h.stores a ha
  · exact ⟨hin.start,lt_of_lt_of_le hnat hin.limit⟩

theorem AreaInv.decryptLoop {s : Machine} (h : AreaInv s) (n : ℕ) :
    AreaInv (decryptLoop s.curDestPtr n s) := by
  induction n generalizing s with
  | zero => exact h
  | succ n ih =>
    simp only [MultiBoot.decryptLoop]
    split
    · rename_i hlt
      exact ih (h.decryptStep hlt)
    · exact h

theorem generateKeyC_sameImage (s : Machine) : SameImage s (generateKeyC s) := by
  constructor <;> simp only [generateKeyC]

theorem AreaInv.finishImage {s : Machine} (h : AreaInv s) : AreaInv (finishImage s) := by
  unfold MultiBoot.finishImage
  split_ifs
  · exact h
  · exact h
  · exact h.congr (generateKeyC_sameImage s) (by simp only [generateKeyC]) (by simp only [generateKeyC])
  · exact h
  · exact h.init
  · exact h.congr ⟨rfl,rfl,rfl,rfl⟩ rfl rfl

/-- Both branches of the logo check move the pointer at most to the current one. -/
theorem AreaInv.logoCheck {s : Machine} (h : AreaInv s) (logo : ℕ → Word) :
    AreaInv (logoCheck logo s) := by
  unfold MultiBoot.logoCheck
  dsimp only
  split_ifs with h0 hlt hw hl
  · exact h
  · exact h
  · exact h.init
  all_goals
    have hne : s.baseDestPtr ≠ s.curDestPtr := fun he => h0 (by rw [he]; simp)
    have hin : InImage s := h.pointers.resolve_left hne
    have hord := hin.order
    have hge : s.baseDestPtr.toNat + 0xA0 ≤ s.curDestPtr.toNat := by
      have hend : logoEnd.toNat = 0xA0 := rfl
      rw [BitVec.lt_def,BitVec.toNat_sub,hend] at hlt
      omega
  · refine AreaInv.init ⟨Or.inr (hin.advance (n := 0xA0) (by omega) hge rfl rfl),fun hk => ?_,h.stores⟩
    exact ⟨hin.advance (n := 0xA0) (by omega) hge rfl rfl,(h.image hk).2⟩
  · refine ⟨Or.inr (hin.advance (n := 0xA0) (by omega) hge rfl rfl),fun hk => ?_,h.stores⟩
    exact ⟨hin.advance (n := 0xA0) (by omega) hge rfl rfl,(h.image hk).2⟩

theorem AreaInv.main {s : Machine} (h : AreaInv s) (logo : ℕ → Word) : AreaInv (main logo s) := by
  have h2 : AreaInv { s with counter2 := s.counter2 + 1 } := h.congr ⟨rfl,rfl,rfl,rfl⟩ rfl rfl
  have h1 : AreaInv { s with counter2 := s.counter2 + 1, counter1 := s.counter1 + 1 } :=
    h.congr ⟨rfl,rfl,rfl,rfl⟩ rfl rfl
  unfold MultiBoot.main
  dsimp only
  split_ifs
  · exact h.init
  · exact h2
  · exact h2.init
  · exact h1.logoCheck logo
  · exact (h1.decryptLoop _).finishImage

theorem AreaInv.step {s : Machine} (logo : ℕ → Word) (e : Event) (h : AreaInv s) :
    AreaInv (step logo s e) := by
  cases e with
  | init => exact h.init
  | main => exact h.main logo
  | serial joyCnt joyRecv vcount => exact h.serial joyCnt joyRecv vcount

theorem AreaInv.boot {s : Machine} (h : s.baseDestPtr = s.curDestPtr) : AreaInv (boot s) :=
  ⟨Or.inl h,by simp [MultiBoot.boot,MultiBoot.init],by simp [MultiBoot.boot,MultiBoot.init]⟩

/-- In every run after the first Init the pointers stay ordered, an expected image word has
its place in the area, and all image stores so far were inside it. -/
theorem image_area (logo : ℕ → Word) (s₀ : Machine) (h₀ : s₀.baseDestPtr = s₀.curDestPtr)
    (es : List Event) :
    let s := run (step logo) (boot s₀) es
    s.baseDestPtr.toNat ≤ s.curDestPtr.toNat ∧
    (s.serialIntrHandler = .checkImageResponse →
      1 ≤ s.imageSize.toNat ∧ s.curDestPtr.toNat + 4*s.imageSize.toNat ≤ imageLimit) ∧
    ∀ a ∈ s.stores, ewramStart.toNat ≤ a.dest.toNat ∧ a.dest.toNat < imageLimit := by
  intro s
  have h : AreaInv s := run_invariant (fun s e hs => hs.step logo e) (.boot h₀) es
  exact ⟨h.order,fun hk => (h.image hk).2,h.stores⟩

/-- A handshake up to the first word of a four-word image. -/
def shortHandshake : List Event :=
  [.serial 1 0 0x21, .serial 6 gameCode 0x35, .main, .serial 2 0xDD000001 0x40, .serial 6 1 0x41,
    .serial 2 0x11223344 0x42]

theorem image_area_shortHandshake :
    blank.baseDestPtr = blank.curDestPtr ∧
    (run (step fun _ => 0) (boot blank) shortHandshake).serialIntrHandler = .checkImageResponse ∧
    1 ≤ (run (step fun _ => 0) (boot blank) shortHandshake).imageSize.toNat ∧
    (run (step fun _ => 0) (boot blank) shortHandshake).curDestPtr.toNat +
      4*(run (step fun _ => 0) (boot blank) shortHandshake).imageSize.toNat ≤ imageLimit := by
  have hh : (run (step fun _ => 0) (boot blank) shortHandshake).serialIntrHandler =
      .checkImageResponse := by decide
  exact ⟨rfl,hh,(image_area (fun _ => 0) blank rfl shortHandshake).2.1 hh⟩

end MultiBoot
end AgbTools
