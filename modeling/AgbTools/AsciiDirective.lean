import Mathlib.Data.List.Basic
import Mathlib.Tactic.Common

/-! How the compiler writes a string as `.ascii` directives, and how an assembler reads them back. -/
namespace AgbTools
namespace Ascii

abbrev Byte := BitVec 8

section Output

/-- The octal digits of `%03o`. -/
def octal (c : ℕ) : List Char :=
  [Char.ofNat (48+c/64%8),Char.ofNat (48+c/8%8),Char.ofNat (48+c%8)]

/-- What is written for one character of the string. -/
def escape (c : Byte) : List Char :=
  if c = 0x22#8 ∨ c = 0x5c#8 then ['\\',Char.ofNat c.toNat]
  else if c = 0o12#8 then ['\\','n']
  else if c = 0o11#8 then ['\\','t']
  else if c = 0o14#8 then ['\\','f']
  else if c = 0o10#8 then ['\\','b']
  else if c = 0o15#8 then ['\\','r']
  else if 0x20 ≤ c.toNat ∧ c.toNat < 0o177 then [Char.ofNat c.toNat]
  else '\\'::octal c.toNat

/-- A newline is followed by a break if the next character is printable or a tab. -/
def breaksBefore (next : Byte) : Bool :=
  decide (0o40 ≤ next.toNat ∧ next.toNat ≤ 0x7e) || decide (next = 0o11#8)

/-- The column after a character; `rest` is what follows it in the string. -/
def advance (pos : ℕ) (c : Byte) (rest : List Byte) : ℕ :=
  if c = 0x22#8 ∨ c = 0x5c#8 then pos+2
  else if c = 0o12#8 then
    match rest with
    | next::_ => if breaksBefore next then 32767 else pos+2
    | [] => pos+2
  else if c = 0o11#8 ∨ c = 0o14#8 ∨ c = 0o10#8 ∨ c = 0o15#8 then pos+2
  else if 0x20 ≤ c.toNat ∧ c.toNat < 0o177 then pos+1
  else pos+4

def opening : List Char := ['\t','.','a','s','c','i','i','\t','"']

def closing : List Char := ['"','\n']

/-- The loop over the string; a long line is closed and another directive opened. -/
def outputLoop : ℕ → List Byte → List Char
  | _, [] => []
  | pos, c::rest =>
    if 72 < advance pos c rest ∧ rest ≠ [] then
      escape c++closing++opening++outputLoop 17 rest
    else escape c++outputLoop (advance pos c rest) rest

/-- `ASM_OUTPUT_ASCII`. -/
def asmOutputAscii (string : List Byte) : List Char := opening++outputLoop 17 string++closing

end Output

section Read

def octalDigit (c : Char) : Option ℕ :=
  if 48 ≤ c.toNat ∧ c.toNat < 56 then some (c.toNat-48) else none

/-- What an escape of one character stands for. -/
def simpleEscape (c : Char) : Option Byte :=
  if c = '"' ∨ c = '\\' then some (BitVec.ofNat 8 c.toNat)
  else if c = 'n' then some 0o12#8
  else if c = 't' then some 0o11#8
  else if c = 'f' then some 0o14#8
  else if c = 'b' then some 0o10#8
  else if c = 'r' then some 0o15#8
  else none

/-- The bytes of a quoted string, up to its closing quote, and what follows. -/
def readString : List Char → Option (List Byte × List Char)
  | [] => none
  | '"'::rest => some ([],rest)
  | '\\'::rest =>
    match rest with
    | [] => none
    | c::rest =>
      match simpleEscape c with
      | some b => (readString rest).map fun (bs,text) => (b::bs,text)
      | none =>
        match rest with
        | d::e::rest => do
          let x ← octalDigit c
          let y ← octalDigit d
          let z ← octalDigit e
          let (bs,text) ← readString rest
          return (BitVec.ofNat 8 (x*64+y*8+z)::bs,text)
        | _ => none
  | c::rest => (readString rest).map fun (bs,text) => (BitVec.ofNat 8 c.toNat::bs,text)

/-- A line is one directive: nothing may follow the closing quote. -/
def readLine (line : List Char) : Option (List Byte) :=
  if opening <+: line then
    match readString (line.drop opening.length) with
    | some (bs,[]) => some bs
    | _ => none
  else none

def lines : List Char → List (List Char)
  | [] => []
  | c::text =>
    if c = '\n' then []::lines text
    else
      match lines text with
      | [] => [[c]]
      | line::rest => (c::line)::rest

/-- The strings of consecutive directives are put together. -/
def readAscii (text : List Char) : Option (List Byte) := ((lines text).mapM readLine).map List.flatten

/-- The quotes of a line that no backslash escapes. -/
def bareQuotes : List Char → ℕ
  | [] => 0
  | '\\'::_::rest => bareQuotes rest
  | '"'::rest => bareQuotes rest+1
  | _::rest => bareQuotes rest

end Read

section Escapes

/-- How a byte may stand in a quoted string. -/
inductive Escape : List Char → Byte → Prop
  | plain {ch : Char} : ch ≠ '"' → ch ≠ '\\' → ch ≠ '\n' → Escape [ch] (BitVec.ofNat 8 ch.toNat)
  | simple {ch : Char} {c : Byte} : simpleEscape ch = some c → Escape ['\\',ch] c
  | octal {d e f : Char} {x y z : ℕ} : simpleEscape d = none → octalDigit d = some x →
      octalDigit e = some y → octalDigit f = some z →
      Escape ['\\',d,e,f] (BitVec.ofNat 8 (x*64+y*8+z))

theorem ofNat_printable : ∀ n < 0o177, 0x20 ≤ n ∧ n ≠ 0x22 ∧ n ≠ 0x5c →
    Char.ofNat n ≠ '"' ∧ Char.ofNat n ≠ '\\' ∧ Char.ofNat n ≠ '\n' ∧ (Char.ofNat n).toNat = n := by
  decide

theorem ofNat_digit : ∀ d < 8, simpleEscape (Char.ofNat (48+d)) = none ∧
    octalDigit (Char.ofNat (48+d)) = some d := by
  decide

/-- A printable character. -/
theorem escape_printable {c : Byte} (hlow : 0x20 ≤ c.toNat) (hhigh : c.toNat < 0o177)
    (hquote : ¬(c = 0x22#8 ∨ c = 0x5c#8)) : Escape [Char.ofNat c.toNat] c := by
  have hne : c.toNat ≠ 0x22 ∧ c.toNat ≠ 0x5c := by
    constructor
    · exact fun h => hquote (.inl (BitVec.eq_of_toNat_eq h))
    · exact fun h => hquote (.inr (BitVec.eq_of_toNat_eq h))
  obtain ⟨hquote,hslash,hline,hnat⟩ := ofNat_printable c.toNat hhigh ⟨hlow,hne⟩
  have hplain := Escape.plain hquote hslash hline
  rwa [hnat,BitVec.ofNat_toNat,BitVec.setWidth_eq] at hplain

/-- Any byte in three digits. -/
theorem escape_octal (c : Byte) : Escape ('\\'::octal c.toNat) c := by
  have hlt := c.isLt
  obtain ⟨hsimple,hx⟩ := ofNat_digit (c.toNat/64%8) (Nat.mod_lt _ (by omega))
  obtain ⟨-,hy⟩ := ofNat_digit (c.toNat/8%8) (Nat.mod_lt _ (by omega))
  obtain ⟨-,hz⟩ := ofNat_digit (c.toNat%8) (Nat.mod_lt _ (by omega))
  have hoctal := Escape.octal hsimple hx hy hz
  have hsum : c.toNat/64%8*64+c.toNat/8%8*8+c.toNat%8 = c.toNat := by omega
  rwa [hsum,BitVec.ofNat_toNat,BitVec.setWidth_eq] at hoctal

theorem escape_form (c : Byte) : Escape (escape c) c := by
  unfold escape
  split
  · rename_i h
    rcases h with rfl | rfl
    · exact .simple (by decide)
    · exact .simple (by decide)
  rename_i hquote
  split
  · subst c
    exact .simple (by decide)
  split
  · subst c
    exact .simple (by decide)
  split
  · subst c
    exact .simple (by decide)
  split
  · subst c
    exact .simple (by decide)
  split
  · subst c
    exact .simple (by decide)
  split
  · rename_i h
    exact escape_printable h.1 h.2 hquote
  · exact escape_octal c

variable {text : List Char} {c : Byte}

theorem simpleEscape_newline : simpleEscape '\n' = none := by decide

theorem octalDigit_ne {d : Char} {x : ℕ} (h : octalDigit d = some x) :
    d ≠ '\n' ∧ d ≠ '"' ∧ d ≠ '\\' := by
  unfold octalDigit at h
  split at h
  · rename_i hd
    refine ⟨?_,?_,?_⟩ <;> rintro rfl <;> revert hd <;> decide
  · cases h

theorem Escape.newline_notMem (h : Escape text c) : '\n' ∉ text := by
  cases h with
  | plain _ _ hline =>
    intro hmem
    exact hline (List.mem_singleton.mp hmem).symm
  | simple hsimple =>
    intro hmem
    rcases List.mem_pair.mp hmem with h | rfl
    · exact absurd h (by decide)
    · rw [simpleEscape_newline] at hsimple
      cases hsimple
  | octal _ hx hy hz =>
    have hx' := (octalDigit_ne hx).1
    have hy' := (octalDigit_ne hy).1
    have hz' := (octalDigit_ne hz).1
    simp [hx'.symm,hy'.symm,hz'.symm]

theorem Escape.readString_append (h : Escape text c) (rest : List Char) :
    readString (text++rest) = (readString rest).map fun (bs,text) => (c::bs,text) := by
  cases h with
  | plain hquote hslash _ =>
    rw [List.singleton_append,readString]
    · exact fun h => hquote h
    · exact fun h => hslash h
  | simple hsimple =>
    rw [List.cons_append,List.singleton_append,readString.eq_def]
    simp only [hsimple]
  | octal hsimple hx hy hz =>
    simp only [List.cons_append,List.nil_append,readString,hsimple,hx,hy,hz]
    cases readString rest <;> rfl

theorem bareQuotes_plain {ch : Char} (hquote : ch ≠ '"') (hslash : ch ≠ '\\') (rest : List Char) :
    bareQuotes (ch::rest) = bareQuotes rest := by
  rw [bareQuotes]
  · exact fun _ _ h _ => hslash h
  · exact fun h => hquote h

/-- Only the quote that closes the string is bare. -/
theorem Escape.bareQuotes_append (h : Escape text c) (rest : List Char) :
    bareQuotes (text++rest) = bareQuotes rest := by
  cases h with
  | plain hquote hslash _ => exact bareQuotes_plain hquote hslash rest
  | simple _ => rfl
  | octal _ hx hy hz =>
    obtain ⟨-,hquote,hslash⟩ := octalDigit_ne hy
    obtain ⟨-,hquote',hslash'⟩ := octalDigit_ne hz
    exact (bareQuotes_plain hquote hslash _).trans (bareQuotes_plain hquote' hslash' rest)

end Escapes

section Directives

/-- One directive, without the newline that ends it. -/
def directive (bs : List Byte) : List Char := opening++bs.flatMap escape++['"']

theorem newline_notMem_body (bs : List Byte) : '\n' ∉ bs.flatMap escape := by
  rw [List.mem_flatMap]
  rintro ⟨c,-,hmem⟩
  exact (escape_form c).newline_notMem hmem

theorem newline_notMem_directive (bs : List Byte) : '\n' ∉ directive bs := by
  have hbody := newline_notMem_body bs
  simp [directive,opening,hbody]

theorem readString_body (bs : List Byte) (rest : List Char) :
    readString (bs.flatMap escape ++ '"' :: rest) = some (bs,rest) := by
  induction bs with
  | nil => rfl
  | cons c bs ih =>
    rw [List.flatMap_cons,List.append_assoc,(escape_form c).readString_append,ih]
    rfl

theorem readLine_directive (bs : List Byte) : readLine (directive bs) = some bs := by
  have hdrop : (directive bs).drop opening.length = bs.flatMap escape++['"'] := by
    rw [directive,List.append_assoc,List.drop_left]
  have hprefix : opening <+: directive bs := by
    rw [directive,List.append_assoc]
    exact List.prefix_append ..
  rw [readLine,if_pos hprefix,hdrop,readString_body]

theorem bareQuotes_directive (bs : List Byte) : bareQuotes (directive bs) = 2 := by
  have hbody : bareQuotes (bs.flatMap escape++['"']) = 1 := by
    induction bs with
    | nil => rfl
    | cons c bs ih => rw [List.flatMap_cons,List.append_assoc,(escape_form c).bareQuotes_append,ih]
  rw [directive,List.append_assoc]
  change bareQuotes (bs.flatMap escape++['"'])+1 = 2
  rw [hbody]

theorem lines_append {line : List Char} (h : '\n' ∉ line) (text : List Char) :
    lines (line ++ '\n' :: text) = line::lines text := by
  induction line with
  | nil => rfl
  | cons c line ih =>
    rw [List.mem_cons,not_or] at h
    rw [List.cons_append,lines,if_neg (Ne.symm h.1),ih h.2]

/-- The text of a list of directives. -/
def directives (chunks : List (List Byte)) : List Char := chunks.flatMap fun bs => directive bs++['\n']

theorem lines_directives (chunks : List (List Byte)) :
    lines (directives chunks) = chunks.map directive := by
  induction chunks with
  | nil => rfl
  | cons bs chunks ih =>
    have hcons : directives (bs::chunks) = directive bs ++ '\n' :: directives chunks := by
      simp [directives]
    rw [hcons,lines_append (newline_notMem_directive bs),ih,List.map_cons]

theorem readAscii_directives (chunks : List (List Byte)) :
    readAscii (directives chunks) = some chunks.flatten := by
  have hread : (chunks.map directive).mapM readLine = some chunks := by
    induction chunks with
    | nil => rfl
    | cons bs chunks ih =>
      rw [List.map_cons,List.mapM_cons,readLine_directive,ih]
      rfl
  rw [readAscii,lines_directives,hread]
  rfl

/-- The loop writes the rest of the current directive and then whole ones. -/
theorem outputLoop_spec (string : List Byte) : ∀ pos, ∃ first chunks,
    string = first++chunks.flatten ∧
      outputLoop pos string++closing = first.flatMap escape ++ '"' :: '\n' :: directives chunks := by
  induction string with
  | nil =>
    intro pos
    exact ⟨[],[],rfl,rfl⟩
  | cons c rest ih =>
    intro pos
    rw [outputLoop]
    split
    · obtain ⟨first,chunks,hstring,htext⟩ := ih 17
      refine ⟨[c],first::chunks,?_,?_⟩
      · rw [hstring]
        rfl
      · simp only [List.append_assoc,htext]
        simp [closing,directives,directive]
    · obtain ⟨first,chunks,hstring,htext⟩ := ih (advance pos c rest)
      refine ⟨c::first,chunks,?_,?_⟩
      · rw [hstring]
        rfl
      · rw [List.append_assoc,htext,List.flatMap_cons,List.append_assoc]

theorem asmOutputAscii_spec (string : List Byte) : ∃ chunks : List (List Byte),
    chunks.flatten = string ∧ asmOutputAscii string = directives chunks := by
  obtain ⟨first,chunks,hstring,htext⟩ := outputLoop_spec string 17
  refine ⟨first::chunks,hstring.symm,?_⟩
  rw [asmOutputAscii,List.append_assoc,htext]
  simp [directives,directive]

/-- The directives of any string are read back as the string, and each of them is one line that starts
with the directive's name and whose only bare quotes open and close the string. -/
theorem ascii_directives (string : List Byte) :
    readAscii (asmOutputAscii string) = some string ∧
      asmOutputAscii string = (lines (asmOutputAscii string)).flatMap (·++['\n']) ∧
      ∀ line ∈ lines (asmOutputAscii string),
        opening <+: line ∧ line.getLast? = some '"' ∧ bareQuotes line = 2 := by
  obtain ⟨chunks,hstring,htext⟩ := asmOutputAscii_spec string
  rw [htext,readAscii_directives,hstring,lines_directives]
  refine ⟨rfl,?_,?_⟩
  · rw [directives,List.flatMap_map]
  · intro line hline
    obtain ⟨bs,-,rfl⟩ := List.mem_map.mp hline
    refine ⟨?_,?_,bareQuotes_directive bs⟩
    · rw [directive,List.append_assoc]
      exact List.prefix_append ..
    · rw [directive,List.getLast?_append]
      rfl

end Directives

end Ascii
end AgbTools
