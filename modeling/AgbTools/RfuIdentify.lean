import Mathlib.Data.BitVec
import AgbTools.Runs

/-! The identification of the adapter: both sides send the half-words of a text one after the other,
each with the complement of the half-word received last, and count the half-words that matched. -/
namespace AgbTools
namespace RfuIdentify

open Runs

abbrev Half := BitVec 16
abbrev Word := BitVec 32

/-- Which side clocks the transfers. -/
inductive Clock | slave | master
  deriving DecidableEq, Repr

def Clock.number : Clock → ℕ
  | .slave => 0
  | .master => 1

/-- `gUnknown_030078A0`, with the serial registers and the enabled interrupts. -/
structure State where
  role : Clock
  phase : BitVec 8
  counter : Half
  /-- The half-word sent last. -/
  sent : Half
  /-- The complement of the data half received last. -/
  expected : Half
  identity : Half
  sioCnt : Half
  sioData : Word
  ie : Half
  deriving DecidableEq, Repr

/-- `_Str_Sio32ID`. -/
def strSio32ID : List (BitVec 8) :=
  ['N','I','N','T','E','N','D','O','S','i','o','3','2','I','D','_','0','3','0','8','2','0','\x00'].map
    fun c => BitVec.ofNat 8 c.toNat

/-- The half-word of the text at index `k`, low byte first. -/
def idHalf (k : ℕ) : Half := strSio32ID.getD (2*k+1) 0 ++ strSio32ID.getD (2*k) 0

/-- The half of a received word that answers what was sent. -/
def echoHalf (role : Clock) (w : Word) : Half := ((w <<< (16*role.number)) >>> 16).setWidth 16

/-- The half of a received word that the other side chose. -/
def dataHalf (role : Clock) (w : Word) : Half := ((w <<< (16*(1-role.number))) >>> 16).setWidth 16

/-- `sub_82E6E20`. -/
def initialise (timerSelect : BitVec 8) (s : State) : State where
  role := .slave
  phase := 0
  counter := 0
  sent := 0
  expected := 0
  identity := 0
  sioCnt := 0x1000 ||| 0x4080
  sioData := s.sioData
  ie := s.ie &&& ~~~(((8 : Half) <<< timerSelect.toNat) ||| 0x80)

/-- `sub_82E6E94`, with the value it returns. -/
def poll (s : State) : State × Half :=
  if s.phase = 0 then
    ({ s with role := .master, sioCnt := s.sioCnt ||| 1 ||| 0x80, ie := s.ie ||| 0x80, phase := 1 },0)
  else if s.phase = 1 then
    if s.identity ≠ 0 then ({ s with phase := 2 },s.identity)
    else if s.role = .master then
      if s.counter ≠ 0 then (s,0) else ({ s with sioCnt := s.sioCnt ||| 0x80 },0)
    else if s.sent = 0x8001 ∨ s.counter ≠ 0 then (s,0)
    else ({ s with sioCnt := 0x1000 ||| 0x4080, ie := (s.ie &&& 0xff7f) ||| 0x80 },0)
  else (s,s.identity)

/-- The part of the handler that looks at the two halves of the word. -/
def compare (s : State) (echo data : Half) : State :=
  if s.identity ≠ 0 then s
  else if echo ≠ s.expected then { s with counter := s.identity }
  else if 3 < s.counter then { s with identity := data }
  else if echo = ~~~s.sent ∧ data = ~~~s.expected then { s with counter := s.counter+1 }
  else s

/-- The half-word that goes out next. -/
def nextSent (counter : Half) : Half := if counter ≤ 3 then idHalf counter.toNat else 0x8001

/-- The part of the handler that puts the next word on the port. -/
def reply (s : State) (data : Half) : State :=
  { s with
    sent := nextSent s.counter
    expected := ~~~data
    sioData := ((nextSent s.counter).setWidth 32 <<< (16*(1-s.role.number))) +
      ((~~~data).setWidth 32 <<< (16*s.role.number)) }

/-- The master starts the next transfer itself. -/
def restart (s : State) (data : Half) : State :=
  if s.role = .master ∧ (s.counter ≠ 0 ∨ data = 0x494e) ∧ s.identity = 0 then
    { s with sioCnt := s.sioCnt ||| 0x80 }
  else s

/-- `sub_82E6F88`, called at the end of a transfer that received `w`. -/
def interrupt (s : State) (w : Word) : State :=
  let s := if s.role = .master then s else { s with sioCnt := s.sioCnt ||| 0x80 }
  let echo := echoHalf s.role w
  let data := dataHalf s.role w
  restart (reply (compare s echo data) data) data

inductive Event
  | poll
  | interrupt (w : Word)
  deriving DecidableEq, Repr

def step (s : State) : Event → State
  | .poll => (poll s).1
  | .interrupt w => interrupt s w

/-- The two halves of a received word. -/
structure Exchange where
  echo : Half
  data : Half
  deriving DecidableEq, Repr

def received (s : State) : Event → List Exchange
  | .poll => []
  | .interrupt w => [⟨echoHalf s.role w,dataHalf s.role w⟩]

/-- What the handler received in a run. -/
def exchanges (s : State) (es : List Event) : List Exchange := trace step received s es

/-- The exchange that matches half-word `k` of the text. -/
def mark (k : ℕ) : Exchange := ⟨~~~idHalf k,idHalf k⟩

section Handler
variable {s : State} {w : Word} {echo data : Half}

@[simp] theorem poll_counter (s : State) : (poll s).1.counter = s.counter := by
  unfold poll
  split_ifs <;> rfl

@[simp] theorem poll_sent (s : State) : (poll s).1.sent = s.sent := by
  unfold poll
  split_ifs <;> rfl

@[simp] theorem poll_expected (s : State) : (poll s).1.expected = s.expected := by
  unfold poll
  split_ifs <;> rfl

@[simp] theorem poll_identity (s : State) : (poll s).1.identity = s.identity := by
  unfold poll
  split_ifs <;> rfl

@[simp] theorem restart_counter (s : State) (data : Half) : (restart s data).counter = s.counter := by
  unfold restart
  split_ifs <;> rfl

@[simp] theorem restart_sent (s : State) (data : Half) : (restart s data).sent = s.sent := by
  unfold restart
  split_ifs <;> rfl

@[simp] theorem restart_expected (s : State) (data : Half) : (restart s data).expected = s.expected := by
  unfold restart
  split_ifs <;> rfl

@[simp] theorem restart_identity (s : State) (data : Half) : (restart s data).identity = s.identity := by
  unfold restart
  split_ifs <;> rfl

theorem compare_sioCnt (s : State) (cnt echo data : Half) :
    compare { s with sioCnt := cnt } echo data = { compare s echo data with sioCnt := cnt } := by
  unfold compare
  split_ifs <;> rfl

/-- The counter and the identity do not depend on the serial register. -/
theorem interrupt_compare (s : State) (w : Word) :
    (interrupt s w).counter = (compare s (echoHalf s.role w) (dataHalf s.role w)).counter ∧
      (interrupt s w).identity = (compare s (echoHalf s.role w) (dataHalf s.role w)).identity := by
  by_cases hrole : s.role = .master
  · simp [interrupt,hrole,reply]
  · simp only [interrupt,if_neg hrole,reply,restart_counter,restart_identity,compare_sioCnt,and_self]

theorem interrupt_sent (s : State) (w : Word) :
    (interrupt s w).sent = nextSent (interrupt s w).counter := by
  simp [interrupt,reply]

theorem interrupt_expected (s : State) (w : Word) :
    (interrupt s w).expected = ~~~dataHalf s.role w := by
  by_cases hrole : s.role = .master <;> simp [interrupt,reply,hrole]

/-- What the handler can do to the counter and the identity. -/
theorem interrupt_cases (s : State) (w : Word) :
    (s.identity ≠ 0 ∧ (interrupt s w).counter = s.counter ∧ (interrupt s w).identity = s.identity) ∨
    (s.identity = 0 ∧ echoHalf s.role w ≠ s.expected ∧
      (interrupt s w).counter = 0 ∧ (interrupt s w).identity = 0) ∨
    (s.identity = 0 ∧ echoHalf s.role w = s.expected ∧ 3 < s.counter ∧
      (interrupt s w).counter = s.counter) ∨
    (s.identity = 0 ∧ echoHalf s.role w = s.expected ∧ s.counter ≤ 3 ∧
      echoHalf s.role w = ~~~s.sent ∧ dataHalf s.role w = ~~~s.expected ∧
      (interrupt s w).counter = s.counter+1 ∧ (interrupt s w).identity = 0) ∨
    (s.identity = 0 ∧ echoHalf s.role w = s.expected ∧ s.counter ≤ 3 ∧
      (interrupt s w).counter = s.counter ∧ (interrupt s w).identity = 0) := by
  obtain ⟨hcounter,hidentity⟩ := interrupt_compare s w
  rw [hcounter,hidentity]
  unfold compare
  by_cases hid : s.identity ≠ 0
  · rw [if_pos hid]
    exact .inl ⟨hid,rfl,rfl⟩
  have hzero : s.identity = 0 := not_not.mp hid
  by_cases hecho : echoHalf s.role w ≠ s.expected
  · rw [if_neg hid,if_pos hecho]
    exact .inr (.inl ⟨hzero,hecho,hzero,hzero⟩)
  have heq : echoHalf s.role w = s.expected := not_not.mp hecho
  by_cases hfull : 3 < s.counter
  · rw [if_neg hid,if_neg hecho,if_pos hfull]
    exact .inr (.inr (.inl ⟨hzero,heq,hfull,rfl⟩))
  have hle : s.counter ≤ 3 := BitVec.not_lt.mp hfull
  by_cases hmatch : echoHalf s.role w = ~~~s.sent ∧ dataHalf s.role w = ~~~s.expected
  · refine .inr (.inr (.inr (.inl ⟨hzero,heq,hle,hmatch.1,hmatch.2,?_⟩)))
    rw [if_neg hid,if_neg hecho,if_neg hfull,if_pos hmatch]
    exact ⟨rfl,hzero⟩
  · refine .inr (.inr (.inr (.inr ⟨hzero,heq,hle,?_⟩)))
    rw [if_neg hid,if_neg hecho,if_neg hfull,if_neg hmatch]
    exact ⟨rfl,hzero⟩

end Handler

section History
variable {s₀ : State} {es : List Event}

/-- What a history of exchanges says about the state it leads to. -/
structure Tracked (s₀ : State) (es : List Event) : Prop where
  counter : (run step s₀ es).counter ≤ 4
  /-- Before the first exchange the halves are those of the initialised state. -/
  fresh : exchanges s₀ es = [] → (run step s₀ es).counter = 0 ∧ (run step s₀ es).sent = 0 ∧
    (run step s₀ es).expected = 0
  sent : exchanges s₀ es ≠ [] → (run step s₀ es).sent = nextSent (run step s₀ es).counter
  expected : ∀ last ∈ (exchanges s₀ es).getLast?, (run step s₀ es).expected = ~~~last.data
  /-- Every half-word counted has been matched since the counter was 0. -/
  matched : ∃ before since, SinceLast step (fun s => s.counter = 0) s₀ es before since ∧
    ((List.range (run step s₀ es).counter.toNat).map mark).Sublist
      (exchanges (run step s₀ before) since)

theorem exchanges_snoc (s₀ : State) (es : List Event) (e : Event) :
    exchanges s₀ (es++[e]) = exchanges s₀ es ++ received (run step s₀ es) e := by
  simp [exchanges,trace_append,trace]

/-- The matched half-words stay matched until the counter is reset. -/
theorem Tracked.matched_snoc (h : Tracked s₀ es) (e : Event)
    (hnext : (run step s₀ (es++[e])).counter ≠ 0 →
      ((List.range (run step s₀ (es++[e])).counter.toNat).map mark).Sublist
        ((List.range (run step s₀ es).counter.toNat).map mark ++ received (run step s₀ es) e)) :
    ∃ before since, SinceLast step (fun s => s.counter = 0) s₀ (es++[e]) before since ∧
      ((List.range (run step s₀ (es++[e])).counter.toNat).map mark).Sublist
        (exchanges (run step s₀ before) since) := by
  by_cases hzero : (run step s₀ (es++[e])).counter = 0
  · refine ⟨_,_,.here hzero,?_⟩
    rw [hzero]
    exact List.nil_sublist _
  · obtain ⟨before,since,hsince,hmarks⟩ := h.matched
    refine ⟨before,since++[e],hsince.snoc hzero,(hnext hzero).trans ?_⟩
    have hstate : run step (run step s₀ before) since = run step s₀ es := by
      rw [← run_append,← hsince.split]
    rw [exchanges_snoc,hstate]
    exact hmarks.append_right _

/-- The exchange that moves the counter on is the one that matches its half-word. -/
theorem Tracked.mark_of_match (h : Tracked s₀ es) {echo data : Half}
    (hecho : echo = (run step s₀ es).expected) (hle : (run step s₀ es).counter ≤ 3)
    (hsent : echo = ~~~(run step s₀ es).sent) (hdata : data = ~~~(run step s₀ es).expected) :
    (⟨echo,data⟩ : Exchange) = mark (run step s₀ es).counter.toNat := by
  by_cases hex : exchanges s₀ es = []
  · obtain ⟨-,hzero,hexp⟩ := h.fresh hex
    rw [hecho,hexp,hzero] at hsent
    exact absurd hsent (by decide)
  · have hhalf : (run step s₀ es).sent = idHalf (run step s₀ es).counter.toNat := by
      rw [h.sent hex,nextSent,if_pos hle]
    rw [hdata,← hecho,hsent,BitVec.not_not,hhalf]
    rfl

theorem Tracked.poll (h : Tracked s₀ es) : Tracked s₀ (es++[.poll]) where
  counter := by simpa [step] using h.counter
  fresh hex := by
    rw [exchanges_snoc,received,List.append_nil] at hex
    simpa [step] using h.fresh hex
  sent hex := by
    rw [exchanges_snoc,received,List.append_nil] at hex
    simpa [step] using h.sent hex
  expected := by
    rw [exchanges_snoc,received,List.append_nil]
    simpa [step] using h.expected
  matched := h.matched_snoc .poll fun _ => by simp [step,received]

theorem Tracked.interrupt (h : Tracked s₀ es) (w : Word) : Tracked s₀ (es++[.interrupt w]) := by
  have hrun : run step s₀ (es++[.interrupt w]) = RfuIdentify.interrupt (run step s₀ es) w := by
    simp [step]
  have hne : exchanges s₀ (es++[.interrupt w]) ≠ [] := by simp [exchanges_snoc,received]
  refine ⟨?_,fun hex => absurd hex hne,fun _ => ?_,?_,h.matched_snoc (.interrupt w) ?_⟩
  · rw [hrun]
    have hcounter := h.counter
    obtain ⟨-,heq,-⟩ | ⟨-,-,heq,-⟩ | ⟨-,-,-,heq⟩ | ⟨-,-,hle,-,-,heq,-⟩ | ⟨-,-,-,heq,-⟩ :=
      interrupt_cases (run step s₀ es) w
    all_goals
      rw [heq]
      bv_omega
  · rw [hrun,interrupt_sent]
  · simp [exchanges_snoc,received,hrun,interrupt_expected]
  · rw [hrun]
    obtain ⟨-,heq,-⟩ | ⟨-,-,heq,-⟩ | ⟨-,-,-,heq⟩ | ⟨-,hecho,hle,hsent,hdata,heq,-⟩ | ⟨-,-,-,heq,-⟩ :=
      interrupt_cases (run step s₀ es) w
    · rw [heq]
      exact fun _ => List.sublist_append_left _ _
    · exact fun hzero => absurd heq hzero
    · rw [heq]
      exact fun _ => List.sublist_append_left _ _
    · have hsucc : ((run step s₀ es).counter+1).toNat = (run step s₀ es).counter.toNat+1 := by
        bv_omega
      rw [heq,hsucc,List.range_succ,List.map_append,received,h.mark_of_match hecho hle hsent hdata]
      exact fun _ => List.Sublist.refl _
    · rw [heq]
      exact fun _ => List.sublist_append_left _ _

/-- Every history from the initialised state is tracked, whoever clocks the transfers. -/
theorem tracked_run (timerSelect : BitVec 8) (s : State) (role : Clock) (es : List Event) :
    Tracked { initialise timerSelect s with role := role } es := by
  induction es using List.reverseRecOn with
  | nil =>
    refine ⟨by simp [initialise],fun _ => ⟨rfl,rfl,rfl⟩,fun hex => absurd rfl hex,
      by simp [exchanges,trace],⟨_,_,.here rfl,List.nil_sublist _⟩⟩
  | append_singleton es e ih =>
    cases e with
    | poll => exact ih.poll
    | interrupt w => exact ih.interrupt w

/-- A mismatch resets the counter; before the first exchange it is 0 anyway. -/
theorem Tracked.reset (h : Tracked s₀ es) (hid : (run step s₀ es).identity = 0) {w : Word}
    (hecho : ∀ last ∈ (exchanges s₀ es).getLast?,
      echoHalf (run step s₀ es).role w ≠ ~~~last.data) :
    (RfuIdentify.interrupt (run step s₀ es) w).counter = 0 := by
  obtain hlast | ⟨last,hlast⟩ := Option.eq_none_or_eq_some (exchanges s₀ es).getLast?
  · obtain ⟨hcounter,hsent,hexp⟩ := h.fresh (List.getLast?_eq_none_iff.mp hlast)
    obtain ⟨hne,-⟩ | ⟨-,-,heq,-⟩ | ⟨-,-,hfull,-⟩ | ⟨-,heq,-,hnot,-⟩ | ⟨-,-,-,heq,-⟩ :=
      interrupt_cases (run step s₀ es) w
    · exact absurd hid hne
    · exact heq
    · rw [hcounter] at hfull
      exact absurd hfull (by decide)
    · rw [heq,hexp,hsent] at hnot
      exact absurd hnot (by decide)
    · rw [heq,hcounter]
  · have hne : echoHalf (run step s₀ es).role w ≠ (run step s₀ es).expected := by
      rw [h.expected last hlast]
      exact hecho last hlast
    obtain ⟨hnot,-⟩ | ⟨-,-,heq,-⟩ | ⟨-,heq,-⟩ | ⟨-,heq,-⟩ | ⟨-,heq,-⟩ :=
      interrupt_cases (run step s₀ es) w
    · exact absurd hid hnot
    · exact heq
    · exact absurd heq hne
    · exact absurd heq hne
    · exact absurd heq hne

/-- The identity is set after four matched half-words and one more echo. -/
theorem Tracked.identified (h : Tracked s₀ es) (hid : (run step s₀ es).identity = 0) {e : Event}
    (hnext : (step (run step s₀ es) e).identity ≠ 0) :
    ∃ before since w, SinceLast step (fun s => s.counter = 0) s₀ es before since ∧
      ((List.range 4).map mark).Sublist (exchanges (run step s₀ before) since) ∧
      e = .interrupt w ∧ ∃ last ∈ (exchanges s₀ es).getLast?,
        echoHalf (run step s₀ es).role w = ~~~last.data := by
  cases e with
  | poll => exact absurd (by simpa [step] using hid) hnext
  | interrupt w =>
    obtain ⟨hnot,-⟩ | ⟨-,-,-,hzero⟩ | ⟨-,heq,hfull,-⟩ | ⟨-,-,-,-,-,-,hzero⟩ | ⟨-,-,-,-,hzero⟩ :=
      interrupt_cases (run step s₀ es) w
    · exact absurd hid hnot
    · exact absurd hzero hnext
    · have hfour : (run step s₀ es).counter.toNat = 4 := by
        have hle := h.counter
        bv_omega
      obtain ⟨before,since,hsince,hmarks⟩ := h.matched
      rw [hfour] at hmarks
      refine ⟨before,since,w,hsince,hmarks,rfl,?_⟩
      obtain hlast | ⟨last,hlast⟩ := Option.eq_none_or_eq_some (exchanges s₀ es).getLast?
      · rw [(h.fresh (List.getLast?_eq_none_iff.mp hlast)).1] at hfull
        exact absurd hfull (by decide)
      · exact ⟨last,hlast,heq.trans (h.expected last hlast)⟩
    · exact absurd hzero hnext
    · exact absurd hzero hnext

/-- A non-zero identity ends the handshake. -/
theorem settled_run {s : State} (hid : s.identity ≠ 0) (es : List Event) :
    (run step s es).identity = s.identity ∧ (run step s es).counter = s.counter := by
  refine run_invariant (fun (t : State) e (h : t.identity = s.identity ∧ t.counter = s.counter) => ?_)
    ⟨rfl,rfl⟩ es
  cases e with
  | poll => simpa [step] using h
  | interrupt w =>
    have hne : t.identity ≠ 0 := h.1 ▸ hid
    obtain ⟨-,hcounter,hidentity⟩ | ⟨hzero,-⟩ | ⟨hzero,-⟩ | ⟨hzero,-⟩ | ⟨hzero,-⟩ :=
      interrupt_cases t w
    · exact ⟨hidentity.trans h.1,hcounter.trans h.2⟩
    all_goals exact absurd hzero hne

/-- The identification handshake, for every history of polls and received words and either clock. -/
theorem identify_sound (timerSelect : BitVec 8) (s₀ : State) (role : Clock) (es : List Event) :
    let start := { initialise timerSelect s₀ with role := role }
    let s := run step start es
    s.counter ≤ 4 ∧
      (∀ e, s.identity = 0 → (step s e).identity ≠ 0 →
        ∃ before since w, SinceLast step (fun s => s.counter = 0) start es before since ∧
          ((List.range 4).map mark).Sublist (exchanges (run step start before) since) ∧
          e = .interrupt w ∧
          ∃ last ∈ (exchanges start es).getLast?, echoHalf s.role w = ~~~last.data) ∧
      (∀ w, s.identity = 0 → (∀ last ∈ (exchanges start es).getLast?,
        echoHalf s.role w ≠ ~~~last.data) → (step s (.interrupt w)).counter = 0) ∧
      (s.identity ≠ 0 → ∀ fs, (run step s fs).identity = s.identity ∧
        (run step s fs).counter = s.counter) := by
  have h := tracked_run timerSelect s₀ role es
  exact ⟨h.counter,fun _ hid hnext => h.identified hid hnext,fun _ hid hecho => h.reset hid hecho,
    fun hid fs => settled_run hid fs⟩

/-- What an adapter sends that matches every half-word. -/
def partner : List Event :=
  .poll::[(0x494effff : Word),0x494eb6b1,0x544eb6b1,0x544eabb1,0x4e45abb1,0x4e45b1ba,0x4f44b1ba,
    0x4f44b0bb].map .interrupt

theorem identify_sound_partner :
    let start := initialise 0 ⟨.slave,0,0,0,0,0,0,0,0⟩
    (step (run step start partner) (.interrupt 0x8001b0bb)).identity = 0x8001 ∧
      ∃ before since, SinceLast step (fun s => s.counter = 0) start partner before since ∧
        ((List.range 4).map mark).Sublist (exchanges (run step start before) since) := by
  refine ⟨by decide,?_⟩
  obtain ⟨-,hset,-⟩ := identify_sound 0 ⟨.slave,0,0,0,0,0,0,0,0⟩ .slave partner
  obtain ⟨before,since,-,hsince,hmarks,-⟩ :=
    hset (.interrupt 0x8001b0bb) (by decide) (by decide)
  exact ⟨before,since,hsince,hmarks⟩

end History

end RfuIdentify
end AgbTools
