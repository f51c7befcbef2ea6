import LanguageHost.Proofs.Registry.Lives

/-! The counter that a key is for its callers, and that its slot counts like it, turn by turn. -/
namespace LanguageHost

/-- A sequential counter: the references to a key, its entry, and the launches and shutdowns made. -/
structure Tally where
  count : Nat
  entry : Option (ConnectionId × Status)
  launches : Nat
  stops : Nat
deriving DecidableEq

namespace Tally

def zero : Tally := ⟨0, none, 0, 0⟩

def next (t : Tally) (number : Nat) : ConnectionId := ⟨number, t.launches + 1⟩

def launch (t : Tally) (number count : Nat) (status : Status) : Tally :=
  ⟨count, some (t.next number, status), t.launches + 1, t.stops⟩

def stop (t : Tally) : Tally := ⟨0, none, t.launches, t.stops + 1⟩

/-- A release means the entry unless it expects another connection. -/
def Means (t : Tally) (expected : Option ConnectionId) : Prop :=
  ∀ id, expected = some id → t.entry.map Prod.fst = some id

instance (t : Tally) (expected : Option ConnectionId) : Decidable (t.Means expected) :=
  match expected with
  | none => .isTrue fun _ h => nomatch h
  | some id => decidable_of_iff (t.entry.map Prod.fst = some id) ⟨fun h _ e => Option.some.inj e ▸ h,
      fun h => h id rfl⟩

/-- The counter after one more turn. An acquire at zero that is not turned away has made a launch. -/
def after (number : Nat) (t : Tally) (turn : Turn) : Tally :=
  match turn.request with
  | .acquire _ _ _ =>
    if 0 < t.count then { t with count := t.count + 1 }
    else match turn.ending with
      | .launched (.ok _) => t.launch number 1 .ready
      | .launched (.error _) | .givenUp => t.launch number 0 .failed
      | .atOnce | .stopped => t
  | .release expected =>
    if t.Means expected then
      match t.count with
      | 0 => t
      | 1 => t.stop
      | n + 2 => { t with count := n + 1 }
    else t
  | .clear => if 0 < t.count then t.stop else { t with entry := none }

/-- How a turn may end, and with which answer. Whoever waits inside may be given up. -/
inductive Allows (number : Nat) (t : Tally) : Turn → Prop
  | share {v key document seen id} (hr : v.request = .acquire key document seen) (hn : 0 < t.count)
      (he : t.entry = some (id, .ready)) : Allows number t ⟨v, .atOnce, some (.acquired id)⟩
  | launched {v key document seen} (hr : v.request = .acquire key document seen) (hn : t.count = 0) (p : Process) :
    Allows number t ⟨v, .launched (.ok p), some (.acquired (t.next number))⟩
  | failed {v key document seen} (hr : v.request = .acquire key document seen) (hn : t.count = 0) (e : Error) :
    Allows number t ⟨v, .launched (.error e), some (.refused e)⟩
  | launchGivenUp {v key document seen} (hr : v.request = .acquire key document seen) (hn : t.count = 0) :
    Allows number t ⟨v, .givenUp, none⟩
  | turnedAway {v key document seen} (hr : v.request = .acquire key document seen) (hn : t.count = 0)
      (reason : String) : Allows number t ⟨v, .atOnce, some (.refused (.launchFailed key.text reason))⟩
  | kept {v expected} (hr : v.request = .release expected) (hn : t.count = 1 → ¬t.Means expected) :
    Allows number t ⟨v, .atOnce, some .released⟩
  | stopped {v expected} (hr : v.request = .release expected) (hn : t.count = 1) (hm : t.Means expected) :
    Allows number t ⟨v, .stopped, some .released⟩
  | stopGivenUp {v expected} (hr : v.request = .release expected) (hn : t.count = 1) (hm : t.Means expected) :
    Allows number t ⟨v, .givenUp, none⟩
  | nothing {v} (hr : v.request = .clear) (hn : t.count = 0) : Allows number t ⟨v, .atOnce, some (.cleared none)⟩
  | cleared {v id} (hr : v.request = .clear) (hn : 0 < t.count) (he : t.entry = some (id, .ready)) :
    Allows number t ⟨v, .stopped, some (.cleared (some id))⟩
  | clearGivenUp {v} (hr : v.request = .clear) (hn : 0 < t.count) : Allows number t ⟨v, .givenUp, none⟩

/-- The counter after some turns, the latest first. -/
def of (number : Nat) : List Turn → Tally
  | [] => zero
  | turn :: older => (of number older).after number turn

/-- Every turn is one that the counter allows after the turns before it. -/
def Runs (number : Nat) : List Turn → Prop
  | [] => True
  | turn :: older => (of number older).Allows number turn ∧ Runs number older

theorem Runs.allows {number : Nat} {newer older : List Turn} {t : Turn} (h : Runs number (newer ++ t :: older)) :
    (of number older).Allows number t := by
  induction newer with
  | nil => exact h.1
  | cons _ newer ih => exact ih h.2

end Tally

theorem Connection.stops_modify {cs : List Connection} {i : Nat} {c : Connection} (hc : cs[i]? = some c)
    (f : Connection → Connection) :
    ((cs.modify i f).map stops).sum + c.stops = (cs.map stops).sum + (f c).stops := by
  induction cs generalizing i with
  | nil => simp at hc
  | cons d cs ih =>
    cases i with
    | zero =>
      obtain rfl : d = c := by simpa using hc
      simp
      omega
    | succ i =>
      have := ih (by simpa using hc)
      simp only [List.modify_succ_cons, List.map_cons, List.sum_cons]
      omega

namespace Slot

def shown (s : Slot) : Tally where
  count := (s.current?.map Connection.refs).getD 0
  entry := s.current?.map fun c => (c.id, c.status)
  launches := s.generation
  stops := (s.connections.map Connection.stops).sum

/-- The counter after all turns that are over. -/
def tally (s : Slot) : Tally := .of s.number s.turns

/-- The turns are those of the counter. With nobody inside the slot shows the counter; else it is
ahead by what the call inside has begun. -/
structure Counts (s : Slot) : Prop where
  runs : Tally.Runs s.number s.turns
  outside : s.work? = none → s.shown = s.tally
  launching : ∀ v, s.work? = some (v, .launch) → (∃ key document seen, v.request = .acquire key document seen) ∧
    s.tally.count = 0 ∧ s.generation = s.tally.launches + 1 ∧ s.shown.stops = s.tally.stops
  stopping : ∀ v g answer, s.work? = some (v, .stop g answer) →
    0 < s.tally.count ∧ s.tally.entry = some (⟨s.number, g⟩, .ready) ∧ s.generation = s.tally.launches ∧
    s.shown.stops = s.tally.stops + 1 ∧
    ((∃ expected, v.request = .release expected ∧ s.tally.count = 1 ∧ s.tally.Means expected ∧ answer = .released) ∨
      (v.request = .clear ∧ answer = .cleared (some ⟨s.number, g⟩)))

variable {s : Slot} {i : Nat} {c : Connection}

@[simp] theorem leave_turns (s : Slot) (t : Turn) : (s.leave t).turns = t :: s.turns := by
  simp [turns, Record.turn?]

theorem leave_current? (s : Slot) (t : Turn) : (s.leave t).current? = s.current? := by
  unfold leave handOver
  split <;> rfl

@[simp] theorem leave_shown (s : Slot) (t : Turn) : (s.leave t).shown = s.shown := by
  simp [shown, leave_current?, generation]

theorem shown_current (hg : s.current = some (i + 1)) (hc : s.connections[i]? = some c) :
    s.shown = ⟨c.refs, some (c.id, c.status), s.generation, (s.connections.map Connection.stops).sum⟩ := by
  simp [shown, current?_eq hg, hc]

theorem Valid.shown_ready (h : s.Valid) (hc : s.Ready i c) :
    s.shown.count = c.refs ∧ s.shown.entry = some (⟨s.number, i + 1⟩, .ready) ∧ 0 < c.refs := by
  rw [shown_current hc.1 hc.2.1, h.id_eq hc.2.1, hc.2.2]
  exact ⟨rfl, rfl, (h.ready_process hc).1⟩

theorem Valid.shown_vacant (h : s.Valid) (hw : s.work? = none) (hv : s.Vacant) : s.shown.count = 0 := by
  cases hg : s.current with
  | none => simp [shown, current?, hg]
  | some g =>
    obtain ⟨hpos, c, hc, _⟩ := (hg ▸ h.table_outside hw).current_status
    obtain ⟨g, rfl⟩ : ∃ g', g = g' + 1 := ⟨g - 1, by omega⟩
    rw [shown_current hg hc]
    exact (h.lawful hc).refs_eq_zero (by simp [Connection.isLive, hv _ c hg hc, Status.isLive])

theorem shown_setRefs (hg : s.current = some (i + 1)) (hc : s.connections[i]? = some c) (n : Nat)
    {f : Connection → Connection} (hf : f c = { c with refs := n }) :
    ({ s with connections := s.connections.modify i f } : Slot).shown = { s.shown with count := n } := by
  have hc' : (s.connections.modify i f)[i]? = some { c with refs := n } := by simp [hc, hf]
  have hstops := Connection.stops_modify hc f
  rw [shown_current hg hc, shown_current (s := { s with connections := s.connections.modify i f }) hg hc']
  simp only [hf, generation, List.length_modify] at hstops ⊢
  congr 1
  omega

theorem shown_close (hc : s.connections[i]? = some c) {p : Process} (hp : c.process = some p)
    (holder : Option Holder) (failure : Option LaunchFailure) :
    ({ s with
      connections := s.connections.modify i Connection.beginClose
      current := none
      failure := failure
      holder := holder } : Slot).shown =
        { s.shown with count := 0, entry := none, stops := s.shown.stops + 1 } := by
  have hstops := Connection.stops_modify hc Connection.beginClose
  have hbegin : c.beginClose.stops = c.stops + 1 := by
    simp [Connection.beginClose, Connection.beginStop, Connection.setStatus, hp]
  rw [hbegin] at hstops
  simp only [shown, current?, generation, List.length_modify, Option.bind_none, Option.map_none, Option.getD_none]
  congr 1
  omega

namespace Counts

theorem leave (h : s.Counts) {x : Slot} {t : Turn} (hnumber : x.number = s.number) (hlog : x.log = s.log)
    (ha : s.tally.Allows s.number t) (hs : x.shown = s.tally.after s.number t) : (x.leave t).Counts := by
  have hturns : x.turns = s.turns := by simp [turns, hlog]
  refine ⟨?_, ?_, by simp, by simp⟩
  · rw [leave_turns, leave_number, hturns, hnumber]
    exact ⟨ha, h.runs⟩
  · intro _
    simp only [tally, leave_shown, leave_turns, leave_number, hturns, hnumber, hs]
    rfl

theorem closes (h : s.Counts) (hw : s.work? = none) (hs : s.Valid) (hc : s.Ready i c) {v : Visit} {answer : Answer}
    {now : Nat} {failure : Option LaunchFailure}
    (hv : (∃ expected, v.request = .release expected ∧ s.tally.count = 1 ∧ s.tally.Means expected ∧
      answer = .released) ∨ (v.request = .clear ∧ answer = .cleared (some ⟨s.number, i + 1⟩))) :
    ({ s with
      connections := s.connections.modify i Connection.beginClose
      current := none
      failure := failure
      holder := some ⟨v, .stopping (i + 1) answer now⟩ } : Slot).Counts := by
  obtain ⟨_, p, hp⟩ := hs.ready_process hc
  obtain ⟨hn, he, hpos⟩ := hs.shown_ready hc
  have hshown := h.outside hw
  have hgen : s.generation = s.tally.launches := by rw [← hshown]; rfl
  have hclose := shown_close hc.2.1 hp (some ⟨v, .stopping (i + 1) answer now⟩) failure
  refine ⟨h.runs, by simp [work?], by simp [work?], ?_⟩
  intro w g a hw'
  obtain ⟨rfl, rfl, rfl⟩ : v = w ∧ i + 1 = g ∧ answer = a := by simpa [work?] using hw'
  rw [hclose]
  rw [hshown] at hn he ⊢
  refine ⟨?_, he, (List.length_modify ..).trans hgen, rfl, hv⟩
  show 0 < s.tally.count
  omega

theorem serve (h : s.Counts) (hs : s.Valid) {v : Visit} (hh : s.holder = some ⟨v, .granted⟩) {now : Nat}
    {r : Slot × Option Answer} (hr : s.Serves now v r) : r.1.Counts := by
  have hw := Valid.work?_granted hh
  have hshown := h.outside hw
  have hzero (hv : s.Vacant) : s.tally.count = 0 := hshown ▸ hs.shown_vacant hw hv
  have hready {i c} (hc : s.Ready i c) : s.tally.count = c.refs ∧
      s.tally.entry = some (⟨s.number, i + 1⟩, .ready) ∧ 0 < c.refs := hshown ▸ hs.shown_ready hc
  have hmeans {i c expected} (hc : s.Ready i c) (he : ∀ x, expected = some x → x = ⟨s.number, i + 1⟩) :
      s.tally.Means expected := fun x hx => by simp [(hready hc).2.1, he x hx]
  cases hr with
  | @share _ _ _ i c hr hc =>
    obtain ⟨hn, he, hpos⟩ := hready hc
    refine h.leave rfl rfl (.share hr (by omega) he) ?_
    rw [shown_setRefs hc.1 hc.2.1 (c.refs + 1) rfl, hshown]
    simp [Tally.after, hr, hn, hpos]
  | refuse hr hv hf hlt =>
    refine h.leave rfl rfl (.turnedAway hr (hzero hv) _) ?_
    rw [hshown]
    simp [Tally.after, hr, hzero hv]
  | @launch key document _ hr hv hf =>
    have hstops : (s.launch now v key document).shown.stops = s.shown.stops := by
      simp [shown, Slot.launch, Connection.launching]
    have hgen : s.generation = s.tally.launches := by rw [← hshown]; rfl
    refine ⟨h.runs, by simp [work?, Slot.launch], ?_, by simp [work?, Slot.launch]⟩
    intro w hw
    obtain rfl : v = w := by simpa [work?, Slot.launch] using hw
    refine ⟨⟨_, _, _, hr⟩, hzero hv, ?_, ?_⟩
    · exact List.length_append.trans (congrArg (· + 1) hgen)
    · rw [hstops, hshown]
      rfl
  | @ignore expected hr hno =>
    -- The connection that counts is ready, and it is not the one that the release expects.
    have hkept : s.tally.count ≠ 0 → ¬s.tally.Means expected := by
      intro hn hm
      rcases hs.ready_or_vacant hw with ⟨i, c, hc⟩ | ⟨hv, _⟩
      · obtain ⟨x, hx, hne⟩ := hno i c hc
        have := hm x hx
        rw [(hready hc).2.1] at this
        exact hne (Option.some.inj this).symm
      · exact hn (hzero hv)
    refine h.leave rfl rfl (.kept hr fun hn => hkept (by omega)) ?_
    rw [hshown]
    by_cases hn : s.tally.count = 0
    · simp [Tally.after, hr, hn]
    · simp [Tally.after, hr, hkept hn]
  | @drop expected i c n hr hc he hn =>
    have hcount : s.tally.count = n + 2 := (hready hc).1.trans hn
    refine h.leave rfl rfl (.kept hr (by omega)) ?_
    rw [shown_setRefs hc.1 hc.2.1 (n + 1) rfl, hshown]
    simp [Tally.after, hr, hmeans hc he, hcount]
  | @last expected i c hr hc he hn =>
    have hcount : s.tally.count = 1 := (hready hc).1.trans hn
    exact h.closes hw hs hc (.inl ⟨expected, hr, hcount, hmeans hc he, rfl⟩)
  | forget hr hv =>
    refine h.leave rfl rfl (.nothing hr (hzero hv)) ?_
    have : ({ s with failure := none, current := none } : Slot).shown =
      { s.shown with count := 0, entry := none } :=
      rfl
    rw [this, hshown]
    simp [Tally.after, hr, hzero hv]
  | close hr hc => exact h.closes hw hs hc (.inr ⟨hr, rfl⟩)

theorem congr (h : s.Counts) {x : Slot} (hnumber : x.number = s.number) (hturns : x.turns = s.turns)
    (hshown : x.shown = s.shown) (hw : x.work? = s.work?) : x.Counts := by
  have htally : x.tally = s.tally := by rw [tally, tally, hnumber, hturns]
  have hgen : x.generation = s.generation := congrArg Tally.launches hshown
  refine ⟨by rw [hnumber, hturns]; exact h.runs, ?_, ?_, ?_⟩
  · rw [hw, htally, hshown]
    exact h.outside
  · rw [hw, htally, hshown, hgen]
    exact h.launching
  · rw [hw, htally, hshown, hgen, hnumber]
    exact h.stopping

theorem launchOver (h : s.Counts) (hs : s.Valid) {v : Visit} {since : Nat}
    (hh : s.holder = some ⟨v, .launching since⟩) {f : Connection → Connection} {n : Nat} {x : Status}
    (hf : ∀ c : Connection, c.refs = 1 → (f c).refs = n ∧ (f c).id = c.id ∧ (f c).status = x ∧
      (f c).stops = c.stops)
    {finished : Nat} {failure : Option LaunchFailure} {e : Ending} {a : Option Answer}
    (ha : ∀ key document seen, v.request = .acquire key document seen → s.tally.count = 0 →
      s.tally.Allows s.number ⟨v, e, a⟩ ∧ s.tally.after s.number ⟨v, e, a⟩ = s.tally.launch s.number n x) :
    ({ s with
      connections := s.connections.modify (s.generation - 1) f
      finished := finished
      failure := failure }.leave ⟨v, e, a⟩).Counts := by
  obtain ⟨⟨key, document, seen, hr⟩, hzero, hgen, hstops⟩ := h.launching v (by simp [work?, hh])
  obtain ⟨hallows, hafter⟩ := ha key document seen hr hzero
  obtain ⟨hpos, c, hc, hstarting, hcur⟩ := (hs.table_launching hh).launching_last
  have hlaw := hs.lawful hc
  simp only [Connection.Lawful, hstarting] at hlaw
  obtain ⟨hrefs, hid, hstatus, hkept⟩ := hf c hlaw.1
  have hc' : (s.connections.modify (s.generation - 1) f)[s.generation - 1]? = some (f c) := by
    simp [generation, hc]
  have hg : s.current = some (s.generation - 1 + 1) := by
    rw [hcur, generation, Nat.sub_add_cancel hpos]
  refine h.leave rfl rfl hallows ?_
  rw [hafter, shown_current (s := { s with
    connections := s.connections.modify (s.generation - 1) f
    finished := finished
    failure := failure }) hg hc', hrefs, hid, hstatus, hs.id_eq hc]
  have hsum := Connection.stops_modify hc f
  have hsum' : ((s.connections.modify (s.generation - 1) f).map Connection.stops).sum = s.tally.stops := by
    rw [← hstops]
    simp only [hkept, shown, generation] at hsum ⊢
    omega
  have hlen : s.connections.length = s.tally.launches + 1 := hgen
  simp [Tally.launch, Tally.next, generation, hlen, ← hsum']

theorem stopOver (h : s.Counts) (hs : s.Valid) {v : Visit} {g since : Nat} {answer : Answer}
    (hh : s.holder = some ⟨v, .stopping g answer since⟩) {e : Ending} {a : Option Answer}
    (ha : (e = .stopped ∧ a = some answer) ∨ (e = .givenUp ∧ a = none)) :
    ((s.modify g Connection.endStop).leave ⟨v, e, a⟩).Counts := by
  obtain ⟨hpos, hentry, hgen, hstops, hv⟩ := h.stopping v g answer (by simp [work?, hh])
  obtain ⟨hcur, _, c, hc, _⟩ := (hs.table_stopping hh).stopping g answer rfl
  have hsum := Connection.stops_modify hc Connection.endStop
  have hshown : (s.modify g Connection.endStop).shown = s.tally.stop := by
    simp only [shown, current?, Slot.modify, hcur, generation, List.length_modify] at hstops hgen ⊢
    simp only [Tally.stop, hgen, Option.bind_none, Option.map_none, Option.getD_none]
    congr 1
    simp only [Connection.endStop, Connection.setStatus] at hsum
    exact (Nat.add_right_cancel hsum).trans hstops
  refine h.leave rfl rfl ?_ (hshown.trans ?_)
  · rcases hv with ⟨expected, hr, hn, hm, rfl⟩ | ⟨hr, rfl⟩ <;> rcases ha with ⟨rfl, rfl⟩ | ⟨rfl, rfl⟩
    · exact .stopped hr hn hm
    · exact .stopGivenUp hr hn hm
    · exact .cleared hr hpos hentry
    · exact .clearGivenUp hr hpos
  · rcases hv with ⟨expected, hr, hn, hm, rfl⟩ | ⟨hr, rfl⟩
    · simp [Tally.after, hr, hn, hm]
    · simp [Tally.after, hr, hpos]

theorem step (h : s.Counts) (hs : s.Valid) {s' : Slot} {c : CallId} (hstep : s.Step c s') : s'.Counts := by
  cases hstep with
  | @come v ha =>
    unfold Slot.come
    split
    · rename_i hh
      exact h.congr rfl (List.filterMap_cons_none rfl) rfl (by simp [work?, hh])
    · exact h.congr rfl (List.filterMap_cons_none rfl) rfl (by simp [work?, note])
  | serve hh hr => exact h.serve hs hh hr
  | @launched v since hh p =>
    refine h.launchOver hs hh (f := (Connection.attach · p)) (x := .ready) (fun c hc => ⟨hc, rfl, rfl, rfl⟩) ?_
    intro key document seen hr hzero
    have hgen : s.generation = s.tally.launches + 1 := (h.launching v (by simp [work?, hh])).2.2.1
    rw [hgen]
    exact ⟨.launched hr hzero p, by simp [Tally.after, hr, hzero]⟩
  | failed hh e =>
    refine h.launchOver hs hh (f := Connection.fail) (fun c _ => ⟨rfl, rfl, rfl, rfl⟩) ?_
    exact fun key document seen hr hzero => ⟨.failed hr hzero e, by simp [Tally.after, hr, hzero]⟩
  | dropLaunch hh =>
    refine h.launchOver hs hh (f := Connection.fail) (fun c _ => ⟨rfl, rfl, rfl, rfl⟩) ?_
    exact fun key document seen hr hzero => ⟨.launchGivenUp hr hzero, by simp [Tally.after, hr, hzero]⟩
  | stopped hh => exact h.stopOver hs hh (.inl ⟨rfl, rfl⟩)
  | dropStop hh => exact h.stopOver hs hh (.inr ⟨rfl, rfl⟩)
  | dropGranted hh =>
    refine h.congr (handOver_number _) ?_ ?_ ((handOver_work? _).trans (Valid.work?_granted hh).symm)
    · rw [turns, handOver_log]
      exact List.filterMap_cons_none rfl
    · unfold handOver
      split <;> rfl
  | dropQueued hv => exact h.congr rfl (List.filterMap_cons_none rfl) rfl rfl

theorem new (key : ServerKey) (number : Nat) : (Slot.new key number).Counts :=
  ⟨trivial, fun _ => rfl, by simp [work?, Slot.new], by simp [work?, Slot.new]⟩

end Counts

theorem Lives.counts (h : s.Lives) : s.Counts := by
  induction h with
  | new key number => exact .new key number
  | step h hs ih => exact ih.step h.valid hs

theorem Lives.acquire_answer (h : s.Lives) {t : Turn} (ht : t ∈ s.turns) {key : ServerKey} {document : Option Path}
    {seen : Nat} (hr : t.request = .acquire key document seen) {a : Answer} (ha : t.answer = some a) :
    (∃ id, a = .acquired id) ∨ ∃ e, a = .refused e := by
  obtain ⟨newer, older, hturns⟩ := List.append_of_mem ht
  have hruns := h.counts.runs
  rw [hturns] at hruns
  cases hruns.allows with
  | share | launched => exact .inl ⟨_, (Option.some.inj ha).symm⟩
  | failed | turnedAway => exact .inr ⟨_, (Option.some.inj ha).symm⟩
  | launchGivenUp | stopGivenUp | clearGivenUp => cases ha
  | kept hr' | stopped hr' | nothing hr' | cleared hr' => cases hr'.symm.trans hr

end Slot

end LanguageHost
