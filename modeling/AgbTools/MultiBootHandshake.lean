import Mathlib.Tactic
import AgbTools.MultiBootArea
import AgbTools.MultiBootCipher

/-! The multiboot handshake: what the serial handler must have seen, and what Main must
have done, before the library reports that the image is ready to boot. -/
namespace AgbTools
namespace MultiBoot

open Runs Transducer WordArray

/-- The word put into JOY_TRANS was sent, and no reset command came with it. -/
def Sends (out : Word) (i : Interrupt) : Prop :=
  i.reset = false ∧ i.sent = true ∧ i.joyTrans = out

/-- A word was received, and no reset command came with it. -/
def Receives (back : Word) (i : Interrupt) : Prop :=
  i.reset = false ∧ i.received = true ∧ i.joyRecv = back

/-- A word is sent and answered, by one interrupt or by two. -/
inductive Exchange (out back : Word) : List Interrupt → Prop
  | together {i : Interrupt} (hs : Sends out i) (hr : Receives back i) : Exchange out back [i]
  | apart {i j : Interrupt} (hs : Sends out i) (hr : Receives back j) : Exchange out back [i,j]

/-- The transcript starts with a device reset. -/
def Begun (l : List Interrupt) : Prop := ∃ i, i.reset = true ∧ l = [i]

/-- The game code was sent and came back. -/
def Agreed (l : List Interrupt) : Prop :=
  ∃ l₀ x, Begun l₀ ∧ Exchange gameCode gameCode x ∧ l = l₀ ++ x

def Keyed (keyA : Word) (l : List Interrupt) : Prop :=
  ∃ l₀ i, Agreed l₀ ∧ Receives keyA i ∧ keyA >>> 24 = 0xDD ∧ l = l₀ ++ [i]

/-- KeyB was sent with its magic number and an image size came back. -/
def Sized (keyA keyB size : Word) (l : List Interrupt) : Prop :=
  ∃ l₀ x, Keyed keyA l₀ ∧ Exchange (keyB + 0xEE) size x ∧ size < maximumImageSizeUInt32s ∧ l = l₀ ++ x

/-- Image words were received, one an interrupt. -/
def Loaded (keyA keyB size : Word) (ws : List Word) (l : List Interrupt) : Prop :=
  ∃ l₀ x, Sized keyA keyB size l₀ ∧ (∀ i ∈ x, i.reset = false ∧ i.received = true) ∧
    x.map Interrupt.joyRecv = ws ∧ l = l₀ ++ x

/-- The whole image arrived and the second counter was sent, perhaps several times. -/
def Counted (keyA keyB size : Word) (ws : List Word) (l : List Interrupt) : Prop :=
  ∃ l₀ x, Loaded keyA keyB size ws l₀ ∧ ws.length = 2*(size.toNat+1) ∧
    (∀ i ∈ x, i.reset = false ∧ i.sent = true) ∧ l = l₀ ++ x

/-- The KeyC derivation was sent and a boot key came back. -/
def Booted (keyA keyB size : Word) (ws : List Word) (derivation bootWord : Word)
    (l : List Interrupt) : Prop :=
  ∃ l₀ x, Counted keyA keyB size ws l₀ ∧ Exchange derivation bootWord x ∧
    bootWord >>> 24 = 0xBB ∧ l = l₀ ++ x

def derivation (keyC hashVal : Word) : Word := (hash keyC hashVal <<< 8) + 0xFF

/-- The state came out of `GameCubeMultiBoot_Init`. -/
def Restarted (s : Machine) : Prop := ∃ t, s = init t

/-- What Main leaves to the serial handler. -/
structure SameSession (s t : Machine) : Prop where
  handler : t.serialIntrHandler = s.serialIntrHandler
  seen : t.seen = s.seen
  joyTrans : t.joyTrans = s.joyTrans
  keyA : t.keyA = s.keyA
  keyB : t.keyB = s.keyB
  imageSize : t.imageSize = s.imageSize
  bootKey : t.bootKey = s.bootKey
  cur : t.curDestPtr = s.curDestPtr
  keyC : s.keyC ≠ 0 → t.keyC = s.keyC ∧ t.keyCDerivation = s.keyCDerivation

theorem SameSession.refl (s : Machine) : SameSession s s :=
  ⟨rfl,rfl,rfl,rfl,rfl,rfl,rfl,rfl,fun _ => ⟨rfl,rfl⟩⟩

theorem SameSession.trans {s t u : Machine} (h : SameSession s t) (h' : SameSession t u) :
    SameSession s u where
  handler := h'.handler.trans h.handler
  seen := h'.seen.trans h.seen
  joyTrans := h'.joyTrans.trans h.joyTrans
  keyA := h'.keyA.trans h.keyA
  keyB := h'.keyB.trans h.keyB
  imageSize := h'.imageSize.trans h.imageSize
  bootKey := h'.bootKey.trans h.bootKey
  cur := h'.cur.trans h.cur
  keyC := by
    intro hk
    obtain ⟨h1,h2⟩ := h.keyC hk
    obtain ⟨h3,h4⟩ := h'.keyC (by rwa [h1])
    exact ⟨h3.trans h1,h4.trans h2⟩

theorem decryptLoop_sameSession (r12 : Word) (n : ℕ) (s : Machine) :
    SameSession s (decryptLoop r12 n s) := by
  obtain ⟨mem,stores,base,hash,key,h⟩ := decryptLoop_frame r12 n s
  rw [h]
  exact ⟨rfl,rfl,rfl,rfl,rfl,rfl,rfl,rfl,fun _ => ⟨rfl,rfl⟩⟩

theorem finishImage_frame (s : Machine) :
    Restarted (finishImage s) ∨ SameSession s (finishImage s) := by
  unfold finishImage
  split_ifs with _ _ hk
  · exact Or.inr (.refl s)
  · exact Or.inr (.refl s)
  · right
    constructor <;> simp only [generateKeyC]
    exact fun h => absurd hk h
  · exact Or.inr (.refl s)
  · exact Or.inl ⟨s,rfl⟩
  · exact Or.inr ⟨rfl,rfl,rfl,rfl,rfl,rfl,rfl,rfl,fun _ => ⟨rfl,rfl⟩⟩

theorem logoCheck_frame (logo : ℕ → Word) (s : Machine) :
    Restarted (logoCheck logo s) ∨ SameSession s (logoCheck logo s) := by
  unfold logoCheck
  dsimp only
  split_ifs
  · exact Or.inr (.refl s)
  · exact Or.inr (.refl s)
  · exact Or.inl ⟨s,rfl⟩
  · exact Or.inl ⟨_,rfl⟩
  · exact Or.inr ⟨rfl,rfl,rfl,rfl,rfl,rfl,rfl,rfl,fun _ => ⟨rfl,rfl⟩⟩

/-- Main starts over or leaves the session to the serial handler as it was. -/
theorem main_frame (logo : ℕ → Word) (s : Machine) :
    Restarted (main logo s) ∨ SameSession s (main logo s) := by
  have h2 : SameSession s { s with counter2 := s.counter2 + 1 } :=
    ⟨rfl,rfl,rfl,rfl,rfl,rfl,rfl,rfl,fun _ => ⟨rfl,rfl⟩⟩
  have h1 : SameSession s { s with counter2 := s.counter2 + 1, counter1 := s.counter1 + 1 } :=
    ⟨rfl,rfl,rfl,rfl,rfl,rfl,rfl,rfl,fun _ => ⟨rfl,rfl⟩⟩
  unfold main
  dsimp only
  split_ifs
  · exact Or.inl ⟨s,rfl⟩
  · exact Or.inr h2
  · exact Or.inl ⟨_,rfl⟩
  · exact (logoCheck_frame logo _).imp_right h1.trans
  · exact (finishImage_frame _).imp_right fun h => (h1.trans (decryptLoop_sameSession _ _ _)).trans h

/-- Everything Main checked when it reports the image. -/
structure BootKeyMatches (s : Machine) : Prop where
  size : s.imageSize = 0
  decrypted : s.curDestPtr = s.baseDestPtr
  received : s.bootKey ≠ 0
  key : s.bootKey.setWidth 32 = hash 0xBB s.keyC

theorem finishImage_ready {s : Machine} (hs : s.mbProgress ≠ 2)
    (h : (finishImage s).mbProgress = 2) : BootKeyMatches (finishImage s) := by
  unfold finishImage at h ⊢
  split_ifs at h ⊢ with h1 h2 h3 h4 h5
  · exact absurd h hs
  · exact absurd h hs
  · exact absurd h (by simpa only [generateKeyC] using hs)
  · exact absurd h hs
  · exact absurd h (by simp [init])
  · exact ⟨by simpa using h1,by simpa using h2,h4,by simpa using h5⟩

theorem decryptLoop_mbProgress (r12 : Word) (n : ℕ) (s : Machine) :
    (decryptLoop r12 n s).mbProgress = s.mbProgress := by
  obtain ⟨mem,stores,base,hash,key,h⟩ := decryptLoop_frame r12 n s
  rw [h]

theorem logoCheck_not_ready {logo : ℕ → Word} {s : Machine} (hs : s.mbProgress = 0) :
    (logoCheck logo s).mbProgress ≠ 2 := by
  unfold logoCheck
  dsimp only
  split_ifs <;> simp [hs,init]

theorem main_ready {logo : ℕ → Word} {s : Machine} (hs : s.mbProgress ≠ 2)
    (h : (main logo s).mbProgress = 2) : BootKeyMatches (main logo s) := by
  unfold main at h ⊢
  dsimp only at h ⊢
  split_ifs at h ⊢ with h1 h2 h3
  · exact absurd h (by simp [init])
  · exact absurd h (by simp [init])
  · exact absurd h (logoCheck_not_ready h3)
  · exact finishImage_ready (by rwa [decryptLoop_mbProgress]) h

/-- Image and keys of a session: KeyC exists only once the whole image is decrypted. -/
structure SessionInv (logo : ℕ → Word) (ws : List Word) (s : Machine) : Prop where
  receiving : Receiving logo ws s
  keys : (s.keyC = 0 ∧ s.keyCDerivation = 0) ∨
    (s.keyC ≠ 0 ∧ s.mbProgress ≠ 0 ∧ s.imageSize = 0 ∧ s.curDestPtr = s.baseDestPtr ∧
      s.keyCDerivation = derivation s.keyC s.hashVal)

theorem keyC_ne_zero (v : BitVec 8) : (v.setWidth 32 <<< 24) - (1 : Word) ≠ 0 := by
  revert v
  decide

/-- Decrypting what has arrived ends with both pointers at the same place. -/
theorem SessionInv.decrypted {logo : ℕ → Word} {ws : List Word} {s : Machine}
    (h : SessionInv logo ws s) (hp : s.mbProgress ≠ 0) {n : ℕ}
    (hn : s.curDestPtr.toNat - s.baseDestPtr.toNat ≤ n) :
    SessionInv logo ws (decryptLoop s.curDestPtr n s) ∧
    (decryptLoop s.curDestPtr n s).curDestPtr = (decryptLoop s.curDestPtr n s).baseDestPtr := by
  obtain ⟨h0,-⟩ | ⟨-,header,done,rest,hws,hd⟩ := h.receiving.image
  · exact absurd h0 hp
  have hcur := h.receiving.cur
  have hb := h.receiving.bound
  have hrest : rest.length ≤ n := by
    have hl : ws.length = headerWords + done.length + rest.length := by
      rw [hws,← hd.header_length,List.length_append,List.length_append]
    rw [hcur,hd.base_eq,imageSlot_toNat hb,imageSlot_toNat (by omega)] at hn
    omega
  have hd' := hd.decryptLoop hrest (hws ▸ hb)
  rw [← hws,← hcur] at hd'
  have hbase : (decryptLoop s.curDestPtr n s).baseDestPtr = s.curDestPtr := by
    rw [hd'.base_eq,hcur,hws,← hd.header_length]
    simp
  have hsame := decryptLoop_sameSession s.curDestPtr n s
  refine ⟨⟨⟨hsame.cur.trans hcur,hb,Or.inr ⟨by rwa [decryptLoop_mbProgress],header,done++rest,[],
    by simp [hws],?_⟩⟩,?_⟩,by rw [hbase,hsame.cur]⟩
  · rw [hsame.keyA,hsame.keyB]
    exact hd'
  · obtain ⟨mem,stores,base,hash,key,hf⟩ := decryptLoop_frame s.curDestPtr n s
    obtain ⟨hk,hk'⟩ | ⟨hk,-,hz,he,hv⟩ := h.keys
    · left
      rw [hf]
      exact ⟨hk,hk'⟩
    -- with KeyC there is nothing left to decrypt, so the checksum is still the hashed one
    · have hloop : decryptLoop s.curDestPtr n s = s := by
        cases n with
        | zero => rfl
        | succ n => simp [decryptLoop,he]
      right
      rw [hloop]
      exact ⟨hk,hp,hz,he,hv⟩

/-- The counters of Main are no part of the session. -/
theorem SessionInv.counters {logo : ℕ → Word} {ws : List Word} {s : Machine}
    (h : SessionInv logo ws s) (c1 c2 : BitVec 8) :
    SessionInv logo ws { s with counter2 := c2, counter1 := c1 } :=
  ⟨⟨h.receiving.cur,h.receiving.bound,h.receiving.image⟩,h.keys⟩

theorem SessionInv.finishImage {logo : ℕ → Word} {ws : List Word} {s : Machine}
    (h : SessionInv logo ws s) (hp : s.mbProgress ≠ 0) :
    Restarted (finishImage s) ∨ SessionInv logo ws (finishImage s) := by
  have himage := h.receiving.image
  unfold MultiBoot.finishImage
  split_ifs with h1 h2 h3 h4 h5
  · exact Or.inr h
  · exact Or.inr h
  · refine Or.inr ⟨⟨?_,h.receiving.bound,?_⟩,Or.inr ?_⟩
    · simpa only [generateKeyC] using h.receiving.cur
    · simpa only [generateKeyC,Decrypting,Machine.cipher] using himage
    · simp only [generateKeyC,derivation]
      exact ⟨keyC_ne_zero _,hp,by simpa using h1,by simpa using h2,trivial⟩
  · exact Or.inr h
  · exact Or.inl ⟨s,rfl⟩
  · refine Or.inr ⟨⟨h.receiving.cur,h.receiving.bound,?_⟩,?_⟩
    · exact Or.inr ⟨by simp,(himage.resolve_left fun h0 => hp h0.1).2⟩
    · exact h.keys.imp_right fun hk => ⟨hk.1,by simp,hk.2.2⟩

/-- A matching logo moves the image into its decrypting stage. -/
theorem SessionInv.logoCheck {logo : ℕ → Word} {ws : List Word} {s : Machine}
    (h : SessionInv logo ws s) (hp : s.mbProgress = 0) :
    Restarted (logoCheck logo s) ∨ SessionInv logo ws (logoCheck logo s) := by
  obtain ⟨-,hbase,hholds⟩ | ⟨h0,-⟩ := h.receiving.image
  swap
  · exact absurd hp h0
  have hcur := h.receiving.cur
  have hb := h.receiving.bound
  unfold MultiBoot.logoCheck
  dsimp only
  split_ifs with h1 h2 h3 h4
  · exact Or.inr h
  · exact Or.inr h
  · exact Or.inl ⟨s,rfl⟩
  · exact Or.inl ⟨_,rfl⟩
  · right
    have hlen : headerWords ≤ ws.length := by
      have hs : ewramStart.toNat = 0x2000000 := rfl
      have he : logoEnd.toNat = 0xA0 := rfl
      rw [BitVec.lt_def,BitVec.toNat_sub,hcur,hbase,imageSlot_toNat hb,hs,he] at h2
      simp only [headerWords]
      omega
    rw [hbase] at h3 h4
    have hw := (logoWordsMatch_iff hholds hlen).mp (by simpa using h3)
    have hl := (logoLastMatch_iff hholds hlen).mp (by simpa using h4)
    refine ⟨⟨hcur,hb,Or.inr ⟨by simp,ws.take headerWords,[],ws.drop headerWords,by simp,?_⟩⟩,?_⟩
    · exact ⟨by simp [hlen],⟨hw,hl⟩,by simpa using hholds,by rw [hbase]; rfl,rfl⟩
    · obtain hk | ⟨-,hk,-⟩ := h.keys
      · exact Or.inl hk
      · exact absurd hp hk

theorem SessionInv.main {logo : ℕ → Word} {ws : List Word} {s : Machine}
    (h : SessionInv logo ws s) : Restarted (main logo s) ∨ SessionInv logo ws (main logo s) := by
  have hc := h.counters (s.counter1 + 1) (s.counter2 + 1)
  unfold MultiBoot.main
  dsimp only
  split_ifs with h1 h2 h3 h4
  · exact Or.inl ⟨s,rfl⟩
  · exact Or.inr (h.counters s.counter1 (s.counter2 + 1))
  · exact Or.inl ⟨_,rfl⟩
  · exact hc.logoCheck h4
  · exact ((hc.decrypted h4 le_rfl).1).finishImage (by rwa [decryptLoop_mbProgress])

/-- Before the first image word nothing of a session exists yet. -/
structure Fresh (s : Machine) : Prop where
  progress : s.mbProgress = 0
  base : s.baseDestPtr = ewramStart
  cur : s.curDestPtr = ewramStart
  keyC : s.keyC = 0
  derivation : s.keyCDerivation = 0

theorem SessionInv.fresh {logo : ℕ → Word} {s : Machine} (h : SessionInv logo [] s) : Fresh s := by
  have hcur : s.curDestPtr = ewramStart := h.receiving.cur.trans (slot_zero 4 ewramStart)
  obtain ⟨hp,hb,-⟩ | ⟨-,header,done,rest,hws,hd⟩ := h.receiving.image
  · obtain ⟨hk,hd⟩ | ⟨-,hk,-⟩ := h.keys
    · exact ⟨hp,hb,hcur,hk,hd⟩
    · exact absurd hp hk
  · have := hd.header_length
    have hl := congrArg List.length hws
    simp only [List.length_nil,List.length_append,headerWords] at hl this
    omega

theorem Fresh.sessionInv {s : Machine} (h : Fresh s) (logo : ℕ → Word) : SessionInv logo [] s where
  receiving := ⟨h.cur.trans (slot_zero 4 ewramStart).symm,by simp,
    Or.inl ⟨h.progress,h.base,holds_nil _ _ _⟩⟩
  keys := Or.inl ⟨h.keyC,h.derivation⟩

/-- The part of the handshake that the installed handler has behind it. -/
def Transcript (s : Machine) (ws : List Word) (l : List Interrupt) : Prop :=
  match s.serialIntrHandler with
  | .null | .stop => False
  | .checkGameCodeSent => ws = [] ∧ s.bootKey = 0 ∧ s.joyTrans = gameCode ∧ Begun l
  | .checkHandshakeResponse => ws = [] ∧ s.bootKey = 0 ∧
    ∃ l₀ i, Begun l₀ ∧ Sends gameCode i ∧ l = l₀ ++ [i]
  | .receiveKeyA => ws = [] ∧ s.bootKey = 0 ∧ Agreed l
  | .checkKeyBSent => ws = [] ∧ s.bootKey = 0 ∧ s.joyTrans = s.keyB + 0xEE ∧ Keyed s.keyA l
  | .checkImageSizeResponse => ws = [] ∧ s.bootKey = 0 ∧
    ∃ l₀ i, Keyed s.keyA l₀ ∧ Sends (s.keyB + 0xEE) i ∧ l = l₀ ++ [i]
  | .checkImageResponse => s.bootKey = 0 ∧ 1 ≤ s.imageSize.toNat ∧
    ∃ size, s.imageSize.toNat + ws.length = 2*(size.toNat+1) ∧ Loaded s.keyA s.keyB size ws l
  | .checkCounter2Sent => s.bootKey = 0 ∧ ∃ size, Counted s.keyA s.keyB size ws l
  | .checkKeyCDerivationSent => s.bootKey = 0 ∧ s.keyC ≠ 0 ∧ s.joyTrans = s.keyCDerivation ∧
    ∃ size, Counted s.keyA s.keyB size ws l
  | .checkBootKeyResponse => s.bootKey = 0 ∧ s.keyC ≠ 0 ∧
    ∃ size l₀ i, Counted s.keyA s.keyB size ws l₀ ∧ Sends s.keyCDerivation i ∧ l = l₀ ++ [i]
  | .stopUnconditionally => s.keyC ≠ 0 ∧
    ∃ size w, s.bootKey = w.setWidth 16 ∧ Booted s.keyA s.keyB size ws s.keyCDerivation w l

/-- Main does not touch what the transcript mentions. -/
theorem Transcript.congr {s t : Machine} {ws : List Word} {l : List Interrupt}
    (h : Transcript s ws l) (hs : SameSession s t) : Transcript t ws l := by
  unfold Transcript at h ⊢
  rw [hs.handler]
  cases hh : s.serialIntrHandler <;> rw [hh] at h <;> dsimp only at h ⊢
  case checkKeyCDerivationSent =>
    obtain ⟨hk,hd⟩ := hs.keyC h.2.1
    rwa [hs.keyA,hs.keyB,hs.bootKey,hs.joyTrans,hk,hd]
  case checkBootKeyResponse =>
    obtain ⟨hk,hd⟩ := hs.keyC h.2.1
    rwa [hs.keyA,hs.keyB,hs.bootKey,hk,hd]
  case stopUnconditionally =>
    obtain ⟨hk,hd⟩ := hs.keyC h.1
    rwa [hs.keyA,hs.keyB,hs.bootKey,hk,hd]
  all_goals simpa only [hs.keyA,hs.keyB,hs.bootKey,hs.joyTrans,hs.imageSize] using h

/-- Before the logo check no key material beyond KeyA and KeyB exists. -/
def NoKeys (s : Machine) : Prop :=
  s.mbProgress = 0 → s.keyC = 0 ∧ s.keyCDerivation = 0 ∧ s.bootKey = 0

structure HandshakeInv (logo : ℕ → Word) (s : Machine) : Prop where
  noKeys : NoKeys s
  stopped : s.serialIntrHandler = .stop → s.bootKey = 0
  stage : s.serialIntrHandler ≠ .null → s.serialIntrHandler ≠ .stop →
    ∃ pre ws l, s.seen = pre ++ l ∧ SessionInv logo ws s ∧ Transcript s ws l

theorem HandshakeInv.init (logo : ℕ → Word) (s : Machine) : HandshakeInv logo (init s) :=
  ⟨by simp [NoKeys,MultiBoot.init],by simp [MultiBoot.init],fun _ h => absurd rfl h⟩

theorem noKeys_init (s : Machine) : NoKeys (init s) := by simp [NoKeys,init]

theorem noKeys_finishImage {s : Machine} (hp : s.mbProgress ≠ 0) : NoKeys (finishImage s) := by
  unfold finishImage
  split_ifs
  · exact fun h => absurd h hp
  · exact fun h => absurd h hp
  · exact fun h => absurd (by simpa only [generateKeyC] using h) hp
  · exact fun h => absurd h hp
  · exact noKeys_init s
  · exact fun h => absurd h (by simp)

theorem noKeys_logoCheck {s : Machine} (h : NoKeys s) (logo : ℕ → Word) :
    NoKeys (logoCheck logo s) := by
  unfold logoCheck
  dsimp only
  split_ifs
  · exact h
  · exact h
  · exact noKeys_init _
  · exact noKeys_init _
  · exact fun hp => absurd hp (by simp)

theorem noKeys_main {s : Machine} (h : NoKeys s) (logo : ℕ → Word) : NoKeys (main logo s) := by
  unfold main
  dsimp only
  split_ifs with h1 h2 h3 h4
  · exact noKeys_init s
  · exact h
  · exact noKeys_init _
  · exact noKeys_logoCheck (by simpa only [NoKeys] using h) logo
  · exact noKeys_finishImage (by rwa [decryptLoop_mbProgress])

theorem HandshakeInv.main {logo : ℕ → Word} {s : Machine} (h : HandshakeInv logo s) :
    HandshakeInv logo (main logo s) := by
  obtain ⟨t,ht⟩ | hs := main_frame logo s
  · rw [ht]
    exact .init logo t
  refine ⟨noKeys_main h.noKeys logo,?_,?_⟩
  · rw [hs.handler,hs.bootKey]
    exact h.stopped
  · rw [hs.handler]
    intro hn hst
    obtain ⟨pre,ws,l,hseen,hinv,htr⟩ := h.stage hn hst
    obtain ⟨t,ht⟩ | hinv' := hinv.main
    · exact absurd (hs.handler.symm.trans (by rw [ht]; rfl)) hst
    · exact ⟨pre,ws,l,hs.seen.trans hseen,hinv',htr.congr hs⟩

section Tails
variable {logo : ℕ → Word} {t : Machine} {pre l : List Interrupt} {ws : List Word}
  {recv : Word} {v : BitVec 16}

theorem HandshakeInv.of_stage (ws : List Word) (l : List Interrupt) (hk : NoKeys t) (hne : t.serialIntrHandler ≠ .stop)
    (hseen : t.seen = pre ++ l) (hinv : SessionInv logo ws t) (htr : Transcript t ws l) :
    HandshakeInv logo t :=
  ⟨hk,fun h => absurd h hne,fun _ _ => ⟨pre,ws,l,hseen,hinv,htr⟩⟩

theorem intrStop_inv (hk : NoKeys t) (v : BitVec 16) : HandshakeInv logo (intrStop t v) :=
  ⟨hk,fun h => absurd h (by simp [intrStop,setInterruptHandler,readVCount]),fun h => absurd rfl h⟩

theorem beginHandshake_inv (hk : NoKeys t) {i : Interrupt} (hseen : t.seen = pre ++ [i])
    (hi : i.reset = true) : HandshakeInv logo (beginHandshake t v) := by
  simp only [beginHandshake]
  split
  · apply intrStop_inv
    exact hk
  · rename_i hp
    have hp : t.mbProgress = 0 := by simpa using hp
    obtain ⟨h1,h2,h3⟩ := hk hp
    refine .of_stage [] _ ?_ ?_ hseen ?_ ?_
    · exact hk
    · simp [setInterruptHandler,readVCount]
    · apply Fresh.sessionInv
      exact ⟨hp,rfl,rfl,h1,h2⟩
    · exact ⟨rfl,h3,rfl,i,hi,rfl⟩

theorem handshakeResponse_inv (hf : Fresh t) (hb : t.bootKey = 0) (hk : NoKeys t)
    (hseen : t.seen = pre ++ l) (hl : recv = gameCode → Agreed l) :
    HandshakeInv logo (handshakeResponse t recv v) := by
  unfold handshakeResponse
  split
  · exact intrStop_inv hk v
  · rename_i hr
    refine .of_stage [] _ ?_ ?_ hseen ?_ ?_
    · exact hk
    · simp [setInterruptHandler,readVCount]
    · apply Fresh.sessionInv
      exact ⟨hf.progress,hf.base,hf.cur,hf.keyC,hf.derivation⟩
    · exact ⟨rfl,hb,hl (by simpa using hr)⟩

theorem receiveKeyA_inv (hf : Fresh t) (hb : t.bootKey = 0) (hk : NoKeys t)
    (hseen : t.seen = pre ++ l) (hl : recv >>> 24 = 0xDD → Keyed recv l) :
    HandshakeInv logo (receiveKeyA t recv v) := by
  unfold receiveKeyA
  split
  · exact intrStop_inv hk v
  · rename_i hr
    refine .of_stage [] _ ?_ ?_ hseen ?_ ?_
    · exact hk
    · simp [setInterruptHandler,readVCount]
    · apply Fresh.sessionInv
      exact ⟨hf.progress,hf.base,hf.cur,hf.keyC,hf.derivation⟩
    · exact ⟨rfl,hb,rfl,hl (by simpa using hr)⟩

theorem imageSizeResponse_inv (hf : Fresh t) (hb : t.bootKey = 0) (hk : NoKeys t)
    (hseen : t.seen = pre ++ l)
    (hl : recv < maximumImageSizeUInt32s → Sized t.keyA t.keyB recv l) :
    HandshakeInv logo (imageSizeResponse t recv v) := by
  unfold imageSizeResponse
  split
  · exact intrStop_inv hk v
  · rename_i hr
    dsimp only
    split
    · apply intrStop_inv
      exact hk
    · have hr : recv < maximumImageSizeUInt32s := by simpa using hr
      have hn := imageSize_of_accepted hr
      refine .of_stage [] _ ?_ ?_ hseen ?_ ?_
      · exact hk
      · simp [setInterruptHandler,readVCount]
      · apply Fresh.sessionInv
        exact ⟨hf.progress,rfl,rfl,hf.keyC,hf.derivation⟩
      · refine ⟨hb,?_,recv,?_,l,[],hl hr,by simp,rfl,by simp⟩
        · simp only [setInterruptHandler,readVCount,hn]
          omega
        · simp only [setInterruptHandler,readVCount,hn,List.length_nil,Nat.add_zero]

/-- A word arrives: it lands behind those already there, decrypted or not. -/
theorem SessionInv.push {x : Word} (h : SessionInv logo ws t) (hlen : ws.length < 0x8000)
    (hsize : t.imageSize ≠ 0) {u : Machine} (hm : u.mem = Function.update t.mem t.curDestPtr x)
    (hc : u.curDestPtr = t.curDestPtr + 4) (hb : u.baseDestPtr = t.baseDestPtr)
    (hp : u.mbProgress = t.mbProgress) (ha : u.keyA = t.keyA) (hkb : u.keyB = t.keyB)
    (hci : u.cipher = t.cipher) (hk : u.keyC = t.keyC) (hd : u.keyCDerivation = t.keyCDerivation) :
    SessionInv logo (ws++[x]) u := by
  have hcur := h.receiving.cur
  refine ⟨⟨?_,by simpa using hlen,?_⟩,?_⟩
  · rw [hc,hcur,List.length_append]
    exact (slot_add 4 ewramStart ws.length 1).symm
  · obtain ⟨h0,hbase,hholds⟩ | ⟨h0,header,done,rest,hws,hdec⟩ := h.receiving.image
    · refine Or.inl ⟨hp.trans h0,hb.trans hbase,?_⟩
      rw [hm,hcur]
      exact hholds.push (by omega) (by omega) x
    · refine Or.inr ⟨by rwa [hp],header,done,rest++[x],by simp [hws],?_⟩
      have hpush := PartlyDecrypted.push hdec
        (by rw [hws] at hlen; simpa [Nat.add_assoc] using hlen) x
      rw [← hws,← hcur,← hm,← hb,← hci] at hpush
      rw [ha,hkb]
      exact hpush
  · obtain hkeys | ⟨-,-,hz,-⟩ := h.keys
    · exact Or.inl ⟨hk.trans hkeys.1,hd.trans hkeys.2⟩
    · exact absurd hz hsize

theorem Loaded.size_lt {keyA keyB size : Word} (h : Loaded keyA keyB size ws l) :
    size.toNat < 0x4000 := by
  obtain ⟨-,-,⟨-,-,-,-,hs,-⟩,-⟩ := h
  simpa [maximumImageSizeUInt32s,BitVec.lt_def] using hs

theorem Loaded.push {keyA keyB size : Word} (h : Loaded keyA keyB size ws l) {i : Interrupt}
    (hi : Receives recv i) : Loaded keyA keyB size (ws++[recv]) (l++[i]) := by
  obtain ⟨l₀,x,hs,hx,hws,rfl⟩ := h
  refine ⟨l₀,x++[i],hs,?_,by simp [hws,hi.2.2],by simp⟩
  intro j hj
  rw [List.mem_append,List.mem_singleton] at hj
  rcases hj with hj | rfl
  · exact hx j hj
  · exact ⟨hi.1,hi.2.1⟩

theorem Counted.push {keyA keyB size : Word} (h : Counted keyA keyB size ws l) {i : Interrupt}
    (hr : i.reset = false) (hs : i.sent = true) : Counted keyA keyB size ws (l++[i]) := by
  obtain ⟨l₀,x,hl,hlen,hx,rfl⟩ := h
  refine ⟨l₀,x++[i],hl,hlen,?_,by simp⟩
  intro j hj
  rw [List.mem_append,List.mem_singleton] at hj
  rcases hj with hj | rfl
  · exact hx j hj
  · exact ⟨hr,hs⟩

theorem imageResponse_inv (h : SessionInv logo ws t) (hk : NoKeys t)
    (hh : t.serialIntrHandler = .checkImageResponse) {i : Interrupt} (hi : Receives recv i)
    (hseen : t.seen = pre ++ (l ++ [i])) (hb : t.bootKey = 0) (hone : 1 ≤ t.imageSize.toNat)
    {size : Word} (hsize : t.imageSize.toNat + ws.length = 2*(size.toNat+1))
    (hl : Loaded t.keyA t.keyB size ws l) : HandshakeInv logo (imageResponse t recv v) := by
  have hlt := hl.size_lt
  have hne : t.imageSize ≠ 0 := fun h0 => by simp [h0] at hone
  have hsub : (t.imageSize - 1).toNat = t.imageSize.toNat - 1 := by
    rw [BitVec.toNat_sub]
    simp
    omega
  have hl' := hl.push hi
  simp only [imageResponse]
  split
  · rename_i hz
    have hz' : (t.imageSize - 1).toNat ≠ 0 := fun h0 => hz (BitVec.eq_of_toNat_eq h0)
    refine .of_stage (ws++[recv]) (l++[i]) ?_ ?_ hseen ?_ ?_
    · exact hk
    · simp [readVCount,hh]
    · exact h.push (by omega) hne rfl rfl rfl rfl rfl rfl rfl rfl rfl
    · simp only [Transcript,readVCount,hh]
      refine ⟨hb,by omega,size,?_,hl'⟩
      rw [hsub,List.length_append,List.length_singleton]
      omega
  · rename_i hz
    have hz' : (t.imageSize - 1).toNat = 0 := by
      have hz : t.imageSize - 1 = 0 := by simpa using hz
      rw [hz]
      rfl
    refine .of_stage (ws++[recv]) (l++[i]) ?_ ?_ hseen ?_ ?_
    · exact hk
    · simp [sendCounter2,setInterruptHandler,readVCount]
    · exact h.push (by omega) hne rfl rfl rfl rfl rfl rfl rfl rfl rfl
    · refine ⟨hb,size,l++[i],[],hl',?_,by simp,by simp⟩
      rw [List.length_append,List.length_singleton]
      omega

theorem counter2Sent_inv (h : SessionInv logo ws t) (hk : NoKeys t) (hseen : t.seen = pre ++ l)
    (hb : t.bootKey = 0) {size : Word} (hl : Counted t.keyA t.keyB size ws l) :
    HandshakeInv logo (counter2Sent t v) := by
  have hinv : ∀ out k, SessionInv logo ws (setInterruptHandler { t with joyTrans := out } k v) :=
    fun _ _ => ⟨⟨h.receiving.cur,h.receiving.bound,h.receiving.image⟩,h.keys⟩
  unfold counter2Sent sendCounter2
  split
  · refine .of_stage ws _ ?_ ?_ hseen (hinv _ _) ?_
    · exact hk
    · simp [setInterruptHandler,readVCount]
    · exact ⟨hb,size,hl⟩
  · rename_i hd
    have hkeyC : t.keyC ≠ 0 := by
      obtain ⟨-,h0⟩ | ⟨h0,-⟩ := h.keys
      · exact absurd h0 hd
      · exact h0
    refine .of_stage ws _ ?_ ?_ hseen (hinv _ _) ?_
    · exact hk
    · simp [setInterruptHandler,readVCount]
    · exact ⟨hb,hkeyC,rfl,size,hl⟩

theorem bootKeyResponse_inv (h : SessionInv logo ws t) (hk : NoKeys t) (hseen : t.seen = pre ++ l)
    (hkeyC : t.keyC ≠ 0) (size : Word)
    (hl : recv >>> 24 = 0xBB → Booted t.keyA t.keyB size ws t.keyCDerivation recv l) :
    HandshakeInv logo (bootKeyResponse t recv v) := by
  unfold bootKeyResponse
  split
  · exact intrStop_inv hk v
  · rename_i hr
    refine .of_stage ws _ ?_ ?_ hseen ?_ ?_
    · obtain ⟨h0,-⟩ | ⟨-,hp,-⟩ := h.keys
      · exact absurd h0 hkeyC
      · exact fun h0 => absurd h0 hp
    · simp [setInterruptHandler,readVCount]
    · exact ⟨⟨h.receiving.cur,h.receiving.bound,h.receiving.image⟩,h.keys⟩
    · exact ⟨hkeyC,size,recv,rfl,hl (by simpa using hr)⟩

/-- A handler that only waits for its reply. -/
theorem setInterruptHandler_inv (h : SessionInv logo ws t) (hk : NoKeys t) {k : Handler}
    (hne : k ≠ .stop) (hseen : t.seen = pre ++ l)
    (htr : Transcript (setInterruptHandler t k v) ws l) :
    HandshakeInv logo (setInterruptHandler t k v) :=
  .of_stage _ _ hk hne hseen ⟨⟨h.receiving.cur,h.receiving.bound,h.receiving.image⟩,h.keys⟩ htr

theorem Exchange.of_interrupt {out : Word} {i : Interrupt} (hr : i.reset = false)
    (hs : i.sent = true) (hv : i.received = true) (hj : i.joyTrans = out) :
    Exchange out i.joyRecv [i] :=
  .together ⟨hr,hs,hj⟩ ⟨hr,hv,rfl⟩

/-- An interrupt without a reset command extends the transcript of the installed handler. -/
theorem runHandler_inv {i : Interrupt} (hr : i.reset = false) (hj : i.joyTrans = t.joyTrans)
    (hk : NoKeys t) (hseen : t.seen = pre ++ (l ++ [i])) (h : SessionInv logo ws t)
    (htr : Transcript t ws l) : HandshakeInv logo (runHandler t i v) := by
  unfold runHandler
  split <;> rename_i hh <;> simp only [Transcript,hh] at htr
  case h_3 =>
    obtain ⟨rfl,hb,hout,hl⟩ := htr
    split_ifs with hs hv
    · exact intrStop_inv hk v
    · refine handshakeResponse_inv h.fresh hb hk hseen ?_
      rintro hg
      have hx := Exchange.of_interrupt hr (by simpa using hs) hv (hj.trans hout)
      exact ⟨l,[i],hl,hg ▸ hx,rfl⟩
    · refine setInterruptHandler_inv h hk (by simp) hseen ?_
      exact ⟨rfl,hb,l,i,hl,⟨hr,by simpa using hs,hj.trans hout⟩,rfl⟩
  case h_4 =>
    obtain ⟨rfl,hb,l₀,j,hl,hs,rfl⟩ := htr
    split_ifs with hv
    · exact intrStop_inv hk v
    · refine handshakeResponse_inv h.fresh hb hk hseen ?_
      intro hg
      exact ⟨l₀,[j,i],hl,.apart hs ⟨hr,by simpa using hv,hg⟩,by simp⟩
  case h_5 =>
    obtain ⟨rfl,hb,hl⟩ := htr
    split_ifs with hv
    · exact intrStop_inv hk v
    · refine receiveKeyA_inv h.fresh hb hk hseen ?_
      intro hg
      exact ⟨l,i,hl,⟨hr,by simpa using hv,rfl⟩,hg,rfl⟩
  case h_6 =>
    obtain ⟨rfl,hb,hout,hl⟩ := htr
    split_ifs with hs hv
    · exact intrStop_inv hk v
    · refine imageSizeResponse_inv h.fresh hb hk hseen ?_
      intro hg
      exact ⟨l,[i],hl,.of_interrupt hr (by simpa using hs) hv (hj.trans hout),hg,rfl⟩
    · refine setInterruptHandler_inv h hk (by simp) hseen ?_
      exact ⟨rfl,hb,l,i,hl,⟨hr,by simpa using hs,hj.trans hout⟩,rfl⟩
  case h_7 =>
    obtain ⟨rfl,hb,l₀,j,hl,hs,rfl⟩ := htr
    split_ifs with hv
    · exact intrStop_inv hk v
    · refine imageSizeResponse_inv h.fresh hb hk hseen ?_
      intro hg
      exact ⟨l₀,[j,i],hl,.apart hs ⟨hr,by simpa using hv,rfl⟩,hg,by simp⟩
  case h_8 =>
    obtain ⟨hb,hone,size,hsize,hl⟩ := htr
    split_ifs with hv
    · exact intrStop_inv hk v
    · exact imageResponse_inv h hk hh ⟨hr,by simpa using hv,rfl⟩ hseen hb hone hsize hl
  case h_9 =>
    obtain ⟨hb,size,hl⟩ := htr
    split_ifs with hs
    · exact intrStop_inv hk v
    · exact counter2Sent_inv h hk hseen hb (hl.push hr (by simpa using hs))
  case h_10 =>
    obtain ⟨hb,hkeyC,hout,size,hl⟩ := htr
    split_ifs with hs hv
    · exact intrStop_inv hk v
    · refine bootKeyResponse_inv h hk hseen hkeyC size ?_
      intro hg
      exact ⟨l,[i],hl,.of_interrupt hr (by simpa using hs) hv (hj.trans hout),hg,rfl⟩
    · refine setInterruptHandler_inv h hk (by simp) hseen ?_
      exact ⟨hb,hkeyC,size,l,i,hl,⟨hr,by simpa using hs,hj.trans hout⟩,rfl⟩
  case h_11 =>
    obtain ⟨hb,hkeyC,size,l₀,j,hl,hs,rfl⟩ := htr
    split_ifs with hv
    · exact intrStop_inv hk v
    · refine bootKeyResponse_inv h hk hseen hkeyC size ?_
      intro hg
      exact ⟨l₀,[j,i],hl,.apart hs ⟨hr,by simpa using hv,rfl⟩,hg,by simp⟩
  case h_12 => exact intrStop_inv hk v

end Tails

theorem HandshakeInv.serial {logo : ℕ → Word} {s : Machine} (h : HandshakeInv logo s)
    (joyCnt : BitVec 16) (joyRecv : Word) (v : BitVec 16) :
    HandshakeInv logo (handleSerialInterrupt s joyCnt joyRecv v) := by
  simp only [handleSerialInterrupt]
  split_ifs with hn hr
  · exact ⟨h.noKeys,fun hs => h.stopped hs,fun hne => absurd hn hne⟩
  · apply @beginHandshake_inv logo _ s.seen
    · exact h.noKeys
    · rfl
    · exact hr
  · by_cases hst : s.serialIntrHandler = .stop
    · rw [runHandler]
      simp only [hst]
      apply intrStop_inv
      exact h.noKeys
    · obtain ⟨pre,ws,l,hseen,hinv,htr⟩ := h.stage hn hst
      refine @runHandler_inv logo _ pre l ws v _ (by simpa using hr) rfl ?_ ?_ ?_ ?_
      · exact h.noKeys
      · simp [hseen]
      · exact ⟨⟨hinv.receiving.cur,hinv.receiving.bound,hinv.receiving.image⟩,hinv.keys⟩
      · exact htr

theorem HandshakeInv.step {logo : ℕ → Word} {s : Machine} (e : Event) (h : HandshakeInv logo s) :
    HandshakeInv logo (step logo s e) := by
  cases e with
  | init => exact .init logo s
  | main => exact h.main
  | serial joyCnt joyRecv vcount => exact h.serial joyCnt joyRecv vcount

theorem beginHandshake_mbProgress (s : Machine) (v : BitVec 16) :
    (beginHandshake s v).mbProgress = s.mbProgress := by
  simp only [beginHandshake,intrStop,setInterruptHandler,readVCount]
  split <;> rfl

theorem runHandler_mbProgress (s : Machine) (i : Interrupt) (v : BitVec 16) :
    (runHandler s i v).mbProgress = s.mbProgress := by
  unfold runHandler
  split <;> simp only [handshakeResponse,receiveKeyA,imageSizeResponse,imageResponse,sendCounter2,
    counter2Sent,bootKeyResponse,intrStop,setInterruptHandler,readVCount] <;> split_ifs <;> rfl

/-- Only Main moves the progress field, apart from Init. -/
theorem handleSerialInterrupt_mbProgress (s : Machine) (joyCnt : BitVec 16) (joyRecv : Word)
    (v : BitVec 16) : (handleSerialInterrupt s joyCnt joyRecv v).mbProgress = s.mbProgress := by
  simp only [handleSerialInterrupt]
  split_ifs
  · rfl
  · rw [beginHandshake_mbProgress]
  · rw [runHandler_mbProgress]

/-- A boot key was stored by a complete handshake only. -/
theorem HandshakeInv.booted {logo : ℕ → Word} {s : Machine} (h : HandshakeInv logo s)
    (hn : s.serialIntrHandler ≠ .null) (hb : s.bootKey ≠ 0) :
    ∃ pre ws l size w, s.seen = pre ++ l ∧ SessionInv logo ws s ∧ s.keyC ≠ 0 ∧
      s.bootKey = w.setWidth 16 ∧ Booted s.keyA s.keyB size ws s.keyCDerivation w l := by
  obtain ⟨pre,ws,l,hseen,hinv,htr⟩ := h.stage hn fun hst => hb (h.stopped hst)
  unfold Transcript at htr
  split at htr
  case h_12 =>
    obtain ⟨hk,size,w,hw,hl⟩ := htr
    exact ⟨pre,ws,l,size,w,hseen,hinv,hk,hw,hl⟩
  all_goals simp_all

/-- The first interrupt is a device reset and no later one carries a reset command. -/
def ResetOnce (l : List Interrupt) : Prop :=
  ∃ i x, l = i::x ∧ i.reset = true ∧ ∀ j ∈ x, j.reset = false

theorem ResetOnce.append {l x : List Interrupt} (h : ResetOnce l)
    (hx : ∀ j ∈ x, j.reset = false) : ResetOnce (l++x) := by
  obtain ⟨i,y,rfl,hi,hy⟩ := h
  refine ⟨i,y++x,rfl,hi,?_⟩
  intro j hj
  rcases List.mem_append.mp hj with hj | hj
  · exact hy j hj
  · exact hx j hj

theorem Exchange.no_reset {out back : Word} {x : List Interrupt} (h : Exchange out back x) :
    ∀ j ∈ x, j.reset = false := by
  cases h with
  | together hs hr => simpa using hs.1
  | apart hs hr => simpa using ⟨hs.1,hr.1⟩

theorem Booted.resetOnce {keyA keyB size d w : Word} {ws : List Word} {l : List Interrupt}
    (h : Booted keyA keyB size ws d w l) : ResetOnce l := by
  obtain ⟨-,x,⟨-,y,⟨-,z,⟨-,u,⟨-,i,⟨-,a,⟨r,hr,rfl⟩,ha,rfl⟩,hi,-,rfl⟩,hu,-,rfl⟩,hz,-,rfl⟩,-,hy,rfl⟩,
    hx,-,rfl⟩ := h
  have h0 : ResetOnce [r] := ⟨r,[],rfl,hr,by simp⟩
  have h1 := h0.append ha.no_reset
  have h2 := h1.append (x := [i]) (by simpa using hi.1)
  have h3 := h2.append hu.no_reset
  have h4 := h3.append fun j hj => (hz j hj).1
  have h5 := h4.append fun j hj => (hy j hj).1
  exact h5.append hx.no_reset

/-- With equal pointers nothing is left to decrypt. -/
theorem SessionInv.all_decrypted {logo : ℕ → Word} {ws : List Word} {s : Machine}
    (h : SessionInv logo ws s) (hp : s.mbProgress ≠ 0) (he : s.curDestPtr = s.baseDestPtr) :
    ∃ header rest, ws = header ++ rest ∧
      Decrypting logo (startCipher s.keyA s.keyB) header rest [] s := by
  obtain ⟨h0,-⟩ | ⟨-,header,done,rest,hws,hd⟩ := h.receiving.image
  · exact absurd h0 hp
  have hcur := h.receiving.cur
  have hb := h.receiving.bound
  have hl : ws.length = headerWords + done.length + rest.length := by
    rw [hws,← hd.header_length,List.length_append,List.length_append]
  have hnat := congrArg BitVec.toNat he
  rw [hcur,hd.base_eq,imageSlot_toNat hb,imageSlot_toNat (by omega)] at hnat
  have hrest : rest = [] := List.length_eq_zero_iff.mp (by omega)
  subst hrest
  exact ⟨header,done,by simpa using hws,hd⟩

/-- The handshake behind a state that reports the image as ready: its interrupts are the
last ones since Init, its boot key fits KeyC, and every word of its image behind the
header is decrypted. -/
def HandshakeComplete (logo : ℕ → Word) (s : Machine) : Prop :=
  ∃ pre l size header rest bootWord,
    s.seen = pre ++ l ∧ ResetOnce l ∧
    Booted s.keyA s.keyB size (header ++ rest) (derivation s.keyC s.hashVal) bootWord l ∧
    (bootWord.setWidth 16).setWidth 32 = hash 0xBB s.keyC ∧
    Decrypting logo (startCipher s.keyA s.keyB) header rest [] s

theorem main_handler_ne_null {logo : ℕ → Word} {s : Machine}
    (h : (main logo s).mbProgress = 2) : (main logo s).serialIntrHandler ≠ .null := by
  obtain ⟨t,ht⟩ | hs := main_frame logo s
  · rw [ht] at h
    simp [init] at h
  · intro hn
    rw [main,if_pos (hs.handler ▸ hn)] at h
    simp [init] at h

theorem HandshakeInv.complete {logo : ℕ → Word} {s : Machine} (h : HandshakeInv logo s)
    (hn : s.serialIntrHandler ≠ .null) (hp : s.mbProgress = 2) (hm : BootKeyMatches s) :
    HandshakeComplete logo s := by
  obtain ⟨pre,ws,l,size,w,hseen,hinv,hk,hw,hl⟩ := h.booted hn hm.received
  obtain ⟨header,rest,rfl,hd⟩ := hinv.all_decrypted (by simp [hp]) hm.decrypted
  have hder : s.keyCDerivation = derivation s.keyC s.hashVal := by
    obtain ⟨h0,-⟩ | ⟨-,-,-,-,hv⟩ := hinv.keys
    · exact absurd h0 hk
    · exact hv
  refine ⟨pre,l,size,header,rest,w,hseen,hl.resetOnce,hder ▸ hl,?_,hd⟩
  rw [← hw]
  exact hm.key

/-- In every run after the first Init the progress field becomes READY_TO_BOOT only at the
end of a complete handshake. -/
theorem ready_to_boot (logo : ℕ → Word) (s₀ : Machine) (es : List Event) (e : Event)
    (hs : (run (step logo) (boot s₀) es).mbProgress ≠ 2)
    (he : (run (step logo) (boot s₀) (es++[e])).mbProgress = 2) :
    HandshakeComplete logo (run (step logo) (boot s₀) (es++[e])) := by
  have hboot : HandshakeInv logo (boot s₀) := .init logo _
  have h := run_invariant (fun s e hs => HandshakeInv.step e hs) hboot es
  simp only [run_append,run_cons,run_nil] at he ⊢
  generalize run (step logo) (boot s₀) es = s at hs he h
  cases e with
  | init => simp [step,init] at he
  | main => exact (h.main).complete (main_handler_ne_null he) he (main_ready hs he)
  | serial joyCnt joyRecv vcount =>
    rw [step,handleSerialInterrupt_mbProgress] at he
    exact absurd he hs

/-- A handshake with an image that is only a header of zeros. -/
def headerOnlyHandshake : List Event := List.flatten
  [[.serial 1 0 0x21, .serial 6 gameCode 0x35, .serial 2 0xDD000001 0x40, .serial 6 19 0x41],
    List.replicate 40 (.serial 2 0 0x42),
    [.main, .main, .serial 4 0 0x43, .serial 6 (0xBB000000 + hash 0xBB 0x41FFFFFF) 0x44]]

theorem ready_to_boot_headerOnlyHandshake :
    (run (step fun _ => 0) (boot blank) headerOnlyHandshake).mbProgress ≠ 2 ∧
    (run (step fun _ => 0) (boot blank) (headerOnlyHandshake ++ [.main])).mbProgress = 2 ∧
    HandshakeComplete (fun _ => 0)
      (run (step fun _ => 0) (boot blank) (headerOnlyHandshake ++ [.main])) := by
  have h1 : (run (step fun _ => 0) (boot blank) headerOnlyHandshake).mbProgress ≠ 2 := by
    decide +kernel
  have h2 : (run (step fun _ => 0) (boot blank) (headerOnlyHandshake ++ [.main])).mbProgress = 2 := by
    decide +kernel
  exact ⟨h1,h2,ready_to_boot _ blank _ _ h1 h2⟩

end MultiBoot
end AgbTools
