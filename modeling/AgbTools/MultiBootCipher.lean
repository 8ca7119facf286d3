import Mathlib.Data.List.GetD
import Mathlib.Tactic
import AgbTools.Transducer
import AgbTools.WordArray
import AgbTools.MultiBoot

/-! The image cipher as a transducer, and what the logo check and the decrypt loop of
Main do to an image that is held as a list of received words. -/
namespace AgbTools
namespace MultiBoot

open Transducer WordArray

/-- Running checksum and session key. -/
structure Cipher where
  hash : Word
  key : Word
  deriving DecidableEq, Repr

/-- One word: the plain text feeds the checksum, the key advances by itself. -/
def decipher (c : Cipher) (x : Word) : Word × Cipher :=
  let plain := (x ^^^ c.key) + c.hash
  (plain,⟨hashLoop (c.hash ^^^ plain),sessionKeyNext c.key⟩)

/-- The cipher right after the logo check. -/
def startCipher (keyA keyB : Word) : Cipher := ⟨keyA ^^^ keyB,sessionKeyNext (keyA ^^^ keyB)⟩

/-- The cipher stored in the struct. -/
def Machine.cipher (s : Machine) : Cipher := ⟨s.hashVal,s.sessionKey⟩

theorem decipher_bijective (c : Cipher) : Function.Bijective fun x => (decipher c x).1 := by
  constructor
  · intro x y h
    simpa [decipher] using h
  · intro p
    refine ⟨(p - c.hash) ^^^ c.key,?_⟩
    show ((p - c.hash) ^^^ c.key ^^^ c.key) + c.hash = p
    rw [BitVec.xor_assoc,BitVec.xor_self,BitVec.xor_zero,BitVec.sub_add_cancel]

/-- Address of the `i`-th image word. -/
abbrev imageSlot (i : ℕ) : Word := slot 4 ewramStart i
abbrev HoldsImage (mem : Word → Word) (xs : List Word) : Prop := Holds 4 ewramStart mem xs

/-- Words in the image header. -/
def headerWords : ℕ := 40

/-- The header carries the cartridge's logo, up to the byte at 0x9C. -/
def LogoMatches (logo : ℕ → Word) (header : List Word) : Prop :=
  (∀ n < 38, header.getD (n+1) 0 = logo n) ∧ (header.getD 39 0 ^^^ logo 38) >>> 8 = 0

/-- An image that is decrypted up to some word: the header is untouched, the words in
`done` are replaced by their plain text, those in `rest` are still as received. -/
structure PartlyDecrypted (logo : ℕ → Word) (start : Cipher) (header done rest : List Word)
    (mem : Word → Word) (base : Word) (now : Cipher) : Prop where
  header_length : header.length = headerWords
  logo_matches : LogoMatches logo header
  memory : HoldsImage mem (header ++ (outputs decipher start done ++ rest))
  base_eq : base = imageSlot (headerWords + done.length)
  cipher_eq : now = final decipher start done

section Decrypt
variable {logo : ℕ → Word} {start : Cipher} {header done rest : List Word}
  {mem : Word → Word} {base : Word} {now : Cipher}

/-- The next word to decrypt is the first received word that is left. -/
theorem PartlyDecrypted.next_word {x : Word}
    (h : PartlyDecrypted logo start header done (x::rest) mem base now) : mem base = x := by
  have hlen := h.header_length
  have hi : headerWords + done.length <
      (header ++ (outputs decipher start done ++ x::rest)).length := by
    simp [hlen]
  rw [h.base_eq,h.memory _ hi]
  simp [← hlen,List.getElem_append_right]

/-- One turn of the decrypt loop. -/
theorem PartlyDecrypted.step {x : Word}
    (h : PartlyDecrypted logo start header done (x::rest) mem base now)
    (hlen : header.length + done.length + rest.length < 0x8000) :
    PartlyDecrypted logo start header (done++[x]) rest
      (Function.update mem base (decipher now x).1) (base+4) (decipher now x).2 where
  header_length := h.header_length
  logo_matches := h.logo_matches
  memory := by
    have hh := h.header_length
    have hj : headerWords + done.length <
        (header ++ (outputs decipher start done ++ x::rest)).length := by simp [hh]
    have hb : 4*(header ++ (outputs decipher start done ++ x::rest)).length < 2^32 := by
      simp only [List.length_append,List.length_cons,outputs_length]
      omega
    have hset := h.memory.replace (by omega) hb hj (decipher now x).1
    rw [h.base_eq,outputs_concat,← h.cipher_eq]
    simpa [← hh,List.set_append,List.append_assoc] using hset
  base_eq := by
    rw [h.base_eq,List.length_append,List.length_singleton,← Nat.add_assoc]
    exact (slot_add 4 ewramStart (headerWords + done.length) 1).symm
  cipher_eq := by rw [final_concat,← h.cipher_eq]

/-- A further word arrives while the image is being decrypted. -/
theorem PartlyDecrypted.push (h : PartlyDecrypted logo start header done rest mem base now)
    (hlen : header.length + done.length + rest.length < 0x8000) (x : Word) :
    PartlyDecrypted logo start header done (rest++[x])
      (Function.update mem (imageSlot (header ++ done ++ rest).length) x) base now where
  header_length := h.header_length
  logo_matches := h.logo_matches
  memory := by
    have hb : 4*(header ++ (outputs decipher start done ++ rest)).length < 2^32 := by
      simp only [List.length_append,outputs_length]
      omega
    have hpush := h.memory.push (by omega) hb x
    simpa [Nat.add_assoc] using hpush
  base_eq := h.base_eq
  cipher_eq := h.cipher_eq

end Decrypt

/-- The part of the machine that the decrypt loop works on. -/
def Decrypting (logo : ℕ → Word) (start : Cipher) (header done rest : List Word) (s : Machine) :
    Prop :=
  PartlyDecrypted logo start header done rest s.mem s.baseDestPtr s.cipher

theorem Decrypting.decryptStep {logo : ℕ → Word} {start : Cipher} {header done rest : List Word}
    {x : Word} {s : Machine} (h : Decrypting logo start header done (x::rest) s)
    (hlen : header.length + done.length + rest.length < 0x8000) :
    Decrypting logo start header (done++[x]) rest (decryptStep s) := by
  have hx : s.mem s.baseDestPtr = x := PartlyDecrypted.next_word h
  have hs := PartlyDecrypted.step h hlen
  simpa [Decrypting,MultiBoot.decryptStep,decipher,Machine.cipher,hx] using hs

theorem imageSlot_toNat {i : ℕ} (h : i ≤ 0x8000) : (imageSlot i).toNat = 0x2000000 + 4*i := by
  have hb : ewramStart.toNat = 0x2000000 := rfl
  rw [imageSlot,slot_toNat (by rw [hb]; omega),hb]

theorem imageSlot_lt {i j : ℕ} (hi : i ≤ 0x8000) (hj : j ≤ 0x8000) :
    imageSlot i < imageSlot j ↔ i < j := by
  rw [BitVec.lt_def,imageSlot_toNat hi,imageSlot_toNat hj]
  omega

/-- The loop decrypts whatever had arrived when it started, and nothing else. -/
theorem Decrypting.decryptLoop {logo : ℕ → Word} {start : Cipher} {header done rest : List Word}
    {s : Machine} (h : Decrypting logo start header done rest s) {n : ℕ} (hn : rest.length ≤ n)
    (hlen : (header ++ done ++ rest).length ≤ 0x8000) :
    Decrypting logo start header (done++rest) []
      (decryptLoop (imageSlot (header ++ done ++ rest).length) n s) := by
  simp only [List.length_append] at hlen
  have hh := h.header_length
  induction rest generalizing n done s with
  | nil =>
    have hb : s.baseDestPtr = imageSlot (headerWords + done.length) := h.base_eq
    cases n with
    | zero => simpa [MultiBoot.decryptLoop] using h
    | succ n => simpa [MultiBoot.decryptLoop,hb,hh] using h
  | cons x rest ih =>
    cases n with
    | zero => simp at hn
    | succ n =>
      simp only [List.length_cons] at hn hlen
      have hb : s.baseDestPtr = imageSlot (headerWords + done.length) := h.base_eq
      have hlt : s.baseDestPtr < imageSlot (header ++ done ++ x::rest).length := by
        rw [hb,imageSlot_lt (by omega) (by simp; omega)]
        simp [hh]
      have hrec := ih (h.decryptStep (by omega)) (n := n) (by omega)
        (by simp only [List.length_append,List.length_singleton]; omega)
      simp only [MultiBoot.decryptLoop,if_pos hlt]
      simpa using hrec

/-- What the loop leaves alone. -/
theorem decryptLoop_frame (r12 : Word) (n : ℕ) (s : Machine) :
    ∃ mem stores base hash key, decryptLoop r12 n s =
      { s with mem := mem, stores := stores, baseDestPtr := base, hashVal := hash, sessionKey := key } := by
  induction n generalizing s with
  | zero => exact ⟨_,_,_,_,_,rfl⟩
  | succ n ih =>
    simp only [decryptLoop]
    split
    · obtain ⟨mem,stores,base,hash,key,h⟩ := ih (decryptStep s)
      exact ⟨mem,stores,base,hash,key,by rw [h]; simp only [decryptStep]⟩
    · exact ⟨_,_,_,_,_,rfl⟩

theorem logoWordsMatch_iff {logo : ℕ → Word} {mem : Word → Word} {ws : List Word}
    (h : HoldsImage mem ws) (hlen : headerWords ≤ ws.length) :
    logoWordsMatch logo mem ewramStart = true ↔ ∀ n < 38, (ws.take headerWords).getD (n+1) 0 = logo n := by
  have hw : ∀ n < 38, mem (ewramStart + 4 + BitVec.ofNat 32 (4*n)) =
      (ws.take headerWords).getD (n+1) 0 := by
    intro n hn
    have hslot : ewramStart + 4 + BitVec.ofNat 32 (4*n) = imageSlot (n+1) := by
      rw [imageSlot,Nat.add_comm n 1,slot_add]
      rfl
    have hlt : n+1 < ws.length := by simp only [headerWords] at hlen; omega
    have htake : n+1 < (ws.take headerWords).length := by
      simp only [List.length_take,headerWords] at *; omega
    rw [hslot,h _ hlt,List.getD_eq_getElem _ _ htake,List.getElem_take]
  simp only [logoWordsMatch,List.all_eq_true,List.mem_range,beq_iff_eq]
  exact forall₂_congr fun n hn => by rw [hw n hn]

theorem logoLastMatch_iff {logo : ℕ → Word} {mem : Word → Word} {ws : List Word}
    (h : HoldsImage mem ws) (hlen : headerWords ≤ ws.length) :
    logoLastMatch logo mem ewramStart = true ↔
      ((ws.take headerWords).getD 39 0 ^^^ logo 38) >>> 8 = 0 := by
  have hlt : 39 < ws.length := by simp only [headerWords] at hlen; omega
  have htake : 39 < (ws.take headerWords).length := by
    simp only [List.length_take,headerWords] at *; omega
  have hslot : ewramStart + 0x9C = imageSlot 39 := rfl
  rw [logoLastMatch,hslot,h _ hlt,List.getD_eq_getElem _ _ htake,List.getElem_take,beq_iff_eq]

/-- The received words `ws` in memory: all raw before the logo check, later with a header
and a decrypted part. -/
structure Receiving (logo : ℕ → Word) (ws : List Word) (s : Machine) : Prop where
  cur : s.curDestPtr = imageSlot ws.length
  bound : ws.length ≤ 0x8000
  image : (s.mbProgress = 0 ∧ s.baseDestPtr = ewramStart ∧ HoldsImage s.mem ws) ∨
    (s.mbProgress ≠ 0 ∧ ∃ header done rest, ws = header ++ done ++ rest ∧
      Decrypting logo (startCipher s.keyA s.keyB) header done rest s)

end MultiBoot
end AgbTools
