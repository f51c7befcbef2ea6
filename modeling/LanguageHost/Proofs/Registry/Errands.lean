import LanguageHost.Proofs.Registry.Closing

/-! Errands: calls that come to a gate to give one reference back. Each errand is over with the first
thing that is noted of it, and what its turn does to the counter depends on whether the connection is
still the entry. -/
namespace LanguageHost

/-- The record says that a call has come, and not that it is gone. -/
def Record.isComing : Record → Bool
  | .came _ => true
  | .left _ | .turn _ => false

/-- A call on its way to give a reference back, and what had been noted at the gate when it set out. -/
structure Errand where
  call : CallId
  before : List Record

namespace Errand
variable {e : Errand} {log newer older older' : List Record} {r r' : Record}

/-- Nothing has been noted of the call since, but that it has come. -/
def Open (e : Errand) (log : List Record) : Prop :=
  ∃ newer, log = newer ++ e.before ∧ ∀ r ∈ newer, r.call = e.call → r.isComing = true

structure Ends (e : Errand) (log : List Record) (r : Record) (older : List Record) : Prop where
  noted : ∃ newer, log = newer ++ r :: older
  before : e.Open older
  mine : r.call = e.call
  final : r.isComing = false

theorem open_before (e : Errand) : e.Open e.before := ⟨[], rfl, by simp⟩

theorem Open.later (h : e.Open log) (hn : ∀ r ∈ newer, r.call = e.call → r.isComing = true) :
    e.Open (newer ++ log) := by
  obtain ⟨between, rfl, hb⟩ := h
  refine ⟨newer ++ between, (List.append_assoc ..).symm, fun r hr => ?_⟩
  exact (List.mem_append.1 hr).elim (hn r) (hb r)

theorem Open.ends (h : e.Open log) (hr : r.call = e.call) (ho : r.isComing = false) : e.Ends (r :: log) r log :=
  ⟨⟨[], rfl⟩, h, hr, ho⟩

theorem Ends.later (h : e.Ends log r older) (newer : List Record) : e.Ends (newer ++ log) r older := by
  obtain ⟨between, rfl⟩ := h.noted
  exact ⟨⟨newer ++ between, (List.append_assoc ..).symm⟩, h.before, h.mine, h.final⟩

theorem Ends.not_open (h : e.Ends log r older) : ¬e.Open log := by
  rintro ⟨newer, hlog, hn⟩
  obtain ⟨newer', rfl⟩ := h.noted
  obtain ⟨between, rfl, _⟩ := h.before
  rw [← List.cons_append, ← List.append_assoc] at hlog
  have hmem : r ∈ newer := by
    rw [← List.append_cancel_right hlog]
    simp
  have hcoming := hn r hmem h.mine
  rw [h.final] at hcoming
  cases hcoming

theorem Ends.new (h : e.Ends (newer ++ log) r older) (hopen : e.Open log) : r ∈ newer := by
  obtain ⟨newer', hlog⟩ := h.noted
  rcases List.append_eq_append_iff.1 hlog with ⟨between, _, he⟩ | ⟨between, rfl, he⟩
  · exact absurd hopen (Ends.not_open ⟨⟨between, he⟩, h.before, h.mine, h.final⟩)
  · cases between with
    | nil => exact absurd hopen (Ends.not_open ⟨⟨[], he.symm⟩, h.before, h.mine, h.final⟩)
    | cons r' between =>
      obtain ⟨rfl, _⟩ := List.cons.inj he
      simp

theorem Ends.earlier (h : e.Ends (newer ++ log) r older) (hn : ∀ r ∈ newer, r.call ≠ e.call) : e.Ends log r older := by
  obtain ⟨newer', hlog⟩ := h.noted
  rcases List.append_eq_append_iff.1 hlog with ⟨between, _, he⟩ | ⟨between, rfl, he⟩
  · exact ⟨⟨between, he⟩, h.before, h.mine, h.final⟩
  · cases between with
    | nil => exact ⟨⟨[], he.symm⟩, h.before, h.mine, h.final⟩
    | cons r' between =>
      obtain ⟨rfl, _⟩ := List.cons.inj he
      exact absurd h.mine (hn r (by simp))

theorem Ends.unique (h : e.Ends log r older) (h' : e.Ends log r' older') : r = r' ∧ older = older' := by
  obtain ⟨newer, rfl⟩ := h.noted
  obtain ⟨newer', hlog⟩ := h'.noted
  rcases List.append_eq_append_iff.1 hlog with ⟨between, _, he⟩ | ⟨between, _, he⟩
  · cases between with
    | nil => exact List.cons.inj he
    | cons r'' between =>
      obtain ⟨_, rfl⟩ := List.cons.inj he
      exact absurd h.before (Ends.not_open ⟨⟨between, rfl⟩, h'.before, h'.mine, h'.final⟩)
  · cases between with
    | nil =>
      obtain ⟨rfl, rfl⟩ := List.cons.inj he
      exact ⟨rfl, rfl⟩
    | cons r'' between =>
      obtain ⟨_, rfl⟩ := List.cons.inj he
      exact absurd h'.before (Ends.not_open ⟨⟨between, rfl⟩, h.before, h.mine, h.final⟩)

/-- Every turn that the call has had is the end of the errand. -/
def Sole (e : Errand) (log : List Record) : Prop :=
  ∀ t, .turn t ∈ log → t.call = e.call → ∃ older, e.Ends log (.turn t) older

theorem Sole.later (h : e.Sole log) (hn : ∀ t, .turn t ∈ newer → t.call ≠ e.call) : e.Sole (newer ++ log) := by
  intro t ht hc
  rcases List.mem_append.1 ht with ht | ht
  · exact absurd hc (hn t ht)
  · obtain ⟨older, hends⟩ := h t ht hc
    exact ⟨older, hends.later newer⟩

theorem Sole.turn {t : Turn} (h : e.Sole log) (hopen : e.Open log) : e.Sole (.turn t :: log) := by
  intro t' ht hc
  rcases List.mem_cons.1 ht with he | ht
  · obtain rfl := Record.turn.inj he
    exact ⟨log, hopen.ends hc rfl⟩
  · obtain ⟨older, hends⟩ := h t' ht hc
    exact absurd hopen hends.not_open

end Errand

namespace Tally
variable {t : Tally} {number : Nat} {turn : Turn} {id : ConnectionId} {st : Status} {turns : List Turn}

theorem Runs.older {newer older : List Turn} (h : Runs number (newer ++ older)) : Runs number older := by
  induction newer with
  | nil => exact h
  | cons _ newer ih => exact ih h.2

theorem after_ready (hpos : ∀ id, t.entry = some (id, .ready) → 0 < t.count)
    (h : (t.after number turn).entry = some (id, .ready)) : 0 < (t.after number turn).count := by
  unfold after at h ⊢
  split at h
  · split at h
    · rw [if_pos (by assumption)]
      exact Nat.succ_pos _
    · rename_i hz
      rw [if_neg hz]
      split at h
      · exact Nat.one_pos
      · simp [launch] at h
      · simp [launch] at h
      · exact absurd (hpos id h) hz
      · exact absurd (hpos id h) hz
  · split at h
    · rw [if_pos (by assumption)]
      split at h
      · exact hpos id h
      · simp [stop] at h
      · exact Nat.succ_pos _
    · rw [if_neg (by assumption)]
      exact hpos id h
  · split at h <;> simp [stop] at h

theorem ready_pos (h : (of number turns).entry = some (id, .ready)) : 0 < (of number turns).count := by
  induction turns generalizing id with
  | nil => cases h
  | cons turn turns ih => exact after_ready (fun _ => ih) h

theorem acquired_launched (hr : Runs number turns) {turn : Turn} (hm : turn ∈ turns)
    (ha : turn.answer = some (.acquired id)) : id.generation ≤ (of number turns).launches := by
  induction turns with
  | nil => cases hm
  | cons first turns ih =>
    have hle := launches_le_after number (of number turns) first
    rcases List.mem_cons.1 hm with rfl | hm
    · obtain ⟨hallows, _⟩ := hr
      cases hallows with
      | share _ _ he =>
        obtain rfl := (Answer.acquired.inj (Option.some.inj ha))
        rw [(entry_latest he).1]
        exact hle
      | @launched v key document seen hreq hn p =>
        obtain rfl := (Answer.acquired.inj (Option.some.inj ha))
        simp [of, after, hreq, hn, launch, next]
      | failed | launchGivenUp | turnedAway | kept | stopped | stopGivenUp | nothing | cleared | clearGivenUp =>
        simp at ha
    · exact Nat.le_trans (ih hr.2 hm) hle

/-- A connection that has been handed out is ready for as long as it is the entry. -/
theorem acquired_ready (hr : Runs number turns) {turn : Turn} (hm : turn ∈ turns)
    (ha : turn.answer = some (.acquired id)) (he : (of number turns).entry = some (id, st)) : st = .ready := by
  induction turns generalizing st with
  | nil => cases hm
  | cons first turns ih =>
    rcases List.mem_cons.1 hm with rfl | hm
    · obtain ⟨hallows, _⟩ := hr
      cases hallows with
      | share hreq hn he' =>
        obtain rfl := (Answer.acquired.inj (Option.some.inj ha))
        simp only [of, after, hreq, hn, if_true] at he
        simpa [eq_comm] using he'.symm.trans he
      | launched hreq hn p =>
        obtain rfl := (Answer.acquired.inj (Option.some.inj ha))
        simpa [of, after, hreq, hn, launch, eq_comm] using he
      | failed | launchGivenUp | turnedAway | kept | stopped | stopGivenUp | nothing | cleared | clearGivenUp =>
        simp at ha
    · rcases entry_after he with ⟨he, _⟩ | ⟨rfl, _⟩
      · exact ih hr.2 hm he
      · exact absurd (acquired_launched hr.2 hm ha) (Nat.not_succ_le_self _)

end Tally

namespace Slot

namespace Log
variable {number : Nat} {id : ConnectionId} {log older newer : List Record} {t t' : Turn}

def Acquired (id : ConnectionId) (log : List Record) : Prop := ∃ t, .turn t ∈ log ∧ t.answer = some (.acquired id)

theorem Acquired.later (h : Acquired id log) (newer : List Record) : Acquired id (newer ++ log) := by
  obtain ⟨t, ht, ha⟩ := h
  exact ⟨t, List.mem_append_right _ ht, ha⟩

def Entered (number : Nat) (id : ConnectionId) (log : List Record) : Prop :=
  (tally number log).entry.map Prod.fst = some id

/-- What a turn does that gives a reference to one connection back. -/
structure Returns (number : Nat) (id : ConnectionId) (older : List Record) (t : Turn) : Prop where
  /-- The connection is the entry: there is exactly one reference less, and without any it is closed. -/
  counts : Entered number id older → 0 < (tally number older).count ∧
    if (tally number older).count = 1 then Closes number id older t
    else tally number (.turn t :: older) =
      { tally number older with count := (tally number older).count - 1 }
  /-- Another connection is the entry, or none: nothing happens. -/
  spares : ¬Entered number id older → tally number (.turn t :: older) = tally number older

end Log

variable {s : Slot} {id : ConnectionId} {older newer : List Record} {t t' : Turn}

/-- A connection that has been handed out and is the entry is ready, and referred to. -/
theorem Lives.entered_ready (h : s.Lives) (hlog : s.log = newer ++ older) (ha : Log.Acquired id older)
    (he : Log.Entered s.number id older) :
    (Log.tally s.number older).entry = some (id, .ready) ∧ 0 < (Log.tally s.number older).count := by
  have hruns := h.counts.runs
  rw [turns, hlog, List.filterMap_append] at hruns
  obtain ⟨⟨_, st⟩, hentry, rfl⟩ := Option.map_eq_some_iff.1 he
  obtain ⟨t, ht, ha⟩ := ha
  obtain rfl : st = .ready := Tally.acquired_ready hruns.older (List.mem_filterMap.2 ⟨_, ht, rfl⟩) ha hentry
  exact ⟨hentry, Tally.ready_pos hentry⟩

theorem Lives.last_closes (h : s.Lives) (hlog : s.log = newer ++ older) (ha : Log.Acquired id older)
    (he : Log.Entered s.number id older) (hr : t.request = .release (some id))
    (hn : (Log.tally s.number older).count = 1) : Log.Closes s.number id older t := by
  have hmeans : (Log.tally s.number older).Means (some id) := fun x hx => Option.some.inj hx ▸ he
  refine ⟨(h.entered_ready hlog ha he).1, ?_⟩
  show ((Log.tally s.number older).after s.number t).stops = _
  simp [Tally.after, hr, hmeans, hn, Tally.stop]

theorem Lives.returns (h : s.Lives) (hlog : s.log = newer ++ older) (ha : Log.Acquired id older)
    (hr : t.request = .release (some id)) : Log.Returns s.number id older t := by
  have hafter : Log.tally s.number (.turn t :: older) = (Log.tally s.number older).after s.number t := rfl
  refine ⟨fun he => ?_, fun hno => ?_⟩
  · have hpos := (h.entered_ready hlog ha he).2
    have hmeans : (Log.tally s.number older).Means (some id) := fun x hx => Option.some.inj hx ▸ he
    refine ⟨hpos, ?_⟩
    split
    · rename_i hn
      exact h.last_closes hlog ha he hr hn
    · rename_i hn
      obtain ⟨n, hn⟩ : ∃ n, (Log.tally s.number older).count = n + 2 :=
        ⟨(Log.tally s.number older).count - 2, by omega⟩
      rw [hafter, Tally.after, hr]
      simp [hmeans, hn]
  · have hmeans : ¬(Log.tally s.number older).Means (some id) := fun hm => hno (hm id rfl)
    rw [hafter, Tally.after, hr]
    simp [hmeans]

/-- A call that was given up in the middle of its turn had been closing the connection. -/
theorem Lives.given_up_closes (h : s.Lives) (hlog : s.log = newer ++ .turn t :: older) (ha : Log.Acquired id older)
    (hr : t.request = .release (some id)) (hnone : t.answer = none) : Log.Closes s.number id older t := by
  have hallows := h.allows hlog
  have hsplit : s.log = (newer ++ [.turn t]) ++ older := by simp [hlog]
  cases hallows with
  | @stopGivenUp v expected hreq hn hm =>
    obtain rfl : expected = some id := Request.release.inj (hreq.symm.trans hr)
    exact h.last_closes hsplit ha (hm id rfl) hr hn
  | launchGivenUp hreq | clearGivenUp hreq => cases hreq.symm.trans hr
  | share | launched | failed | turnedAway | kept | stopped | nothing | cleared => cases hnone

theorem abandon_inside {v : Visit} {w : Work} (hw : s.work? = some (v, w)) :
    (s.abandon v.call).log = .turn ⟨v, .givenUp, none⟩ :: s.log := by
  unfold work? at hw
  unfold Slot.abandon
  split at hw
  · rename_i hh
    obtain rfl := (Prod.mk.inj (Option.some.inj hw)).1
    rw [hh]
    simp [modify]
  · rename_i hh
    obtain rfl := (Prod.mk.inj (Option.some.inj hw)).1
    rw [hh]
    simp [modify]
  · cases hw

/-- All that has changed is a connection of one generation. -/
def Confines (s : Slot) (generation : Nat) (s' : Slot) : Prop :=
  ∀ (j : Nat) (d : Connection), j + 1 ≠ generation → s.connections[j]? = some d →
    s'.connections[j]? = some d ∧ (s'.current = some (j + 1) ↔ s.current = some (j + 1))

variable {s' : Slot} {c : CallId} {g : Nat}

theorem confines_same (hcs : s'.connections = s.connections) (hcurrent : s'.current = s.current) :
    s.Confines g s' := fun _ _ _ hd => ⟨hcs ▸ hd, by rw [hcurrent]⟩

section Return
variable {v : Visit} (h : s.Lives) (hv : v.request = .release (some ⟨s.number, g⟩))
include h hv

theorem Lives.not_launching {since : Nat} : s.holder ≠ some ⟨v, .launching since⟩ := by
  intro hh
  obtain ⟨⟨_, _, _, hr⟩, _⟩ := h.counts.launching v (by simp [work?, hh])
  cases hv.symm.trans hr

theorem Lives.stopping_expected {g' since : Nat} {answer : Answer}
    (hh : s.holder = some ⟨v, .stopping g' answer since⟩) : g' = g ∧ 0 < g := by
  obtain ⟨_, hpos, _⟩ := (h.valid.table_stopping hh).stopping g' answer rfl
  obtain ⟨_, hentry, _, _, ⟨expected, hr, _, hmeans, _⟩ | ⟨hr, _⟩⟩ :=
    h.counts.stopping v g' answer (by simp [work?, hh])
  · obtain rfl := Request.release.inj (hr.symm.trans hv)
    have hg := hmeans _ rfl
    rw [hentry] at hg
    obtain rfl : g' = g := congrArg ConnectionId.generation (Option.some.inj hg)
    exact ⟨rfl, hpos⟩
  · cases hr.symm.trans hv

end Return

/-- A step of a call that is there to give one connection back is about no other. -/
theorem Step.confines (h : s.Lives) (hs : s.Step c s')
    (hreturn : ∀ v ∈ s.visits, v.call = c → v.request = .release (some ⟨s.number, g⟩)) : s.Confines g s' := by
  have hholder {v : Visit} {stage : Stage} (hh : s.holder = some ⟨v, stage⟩) (hv : v.call = c) :
      v.request = .release (some ⟨s.number, g⟩) := hreturn v (by simp [visits, hh]) hv
  have hmodify {k : Nat} {f : Connection → Connection} {j : Nat} {d : Connection} (hk : k + 1 = g) (hj : j + 1 ≠ g)
      (hd : s.connections[j]? = some d) : (s.connections.modify k f)[j]? = some d := by
    have hne : k ≠ j := by omega
    simp [hne, hd]
  have hstopping {v : Visit} {g' since : Nat} {answer : Answer} (hh : s.holder = some ⟨v, .stopping g' answer since⟩)
      (hv : v.call = c) {e : Ending} {a : Option Answer} :
      s.Confines g ((s.modify g' Connection.endStop).leave ⟨v, e, a⟩) := by
    obtain ⟨rfl, hpos⟩ := h.stopping_expected (hholder hh hv) hh
    intro j d hj hd
    rw [leave_connections, leave_current]
    exact ⟨hmodify (Nat.sub_add_cancel hpos) hj hd, .rfl⟩
  cases hs with
  | @come v ha =>
    obtain ⟨_, _, _, _, _, hcs, hcurrent, _⟩ := h.valid.come_eq v
    exact confines_same hcs hcurrent
  | serve hh hr =>
    have hv := hholder hh rfl
    cases hr with
    | ignore => exact confines_same (leave_connections _ _) (leave_current _ _)
    | @drop expected i e n hr hready he =>
      obtain rfl := Request.release.inj (hr.symm.trans hv)
      have hi : i + 1 = g := (congrArg ConnectionId.generation (he _ rfl)).symm
      intro j d hj hd
      rw [reply_fst, leave_connections, leave_current]
      exact ⟨hmodify hi hj hd, .rfl⟩
    | @last expected i e hr hready he =>
      obtain rfl := Request.release.inj (hr.symm.trans hv)
      have hi : i + 1 = g := (congrArg ConnectionId.generation (he _ rfl)).symm
      intro j d hj hd
      refine ⟨hmodify hi hj hd, iff_of_false (by simp) fun hcurrent => ?_⟩
      have := hready.1.symm.trans hcurrent
      simp at this
      omega
    | share hr | refuse hr | launch hr | forget hr | close hr => cases hr.symm.trans hv
  | launched hh | failed hh | dropLaunch hh => exact absurd hh (h.not_launching (hholder hh rfl))
  | stopped hh | dropStop hh => exact hstopping hh rfl
  | dropGranted hh => exact confines_same (handOver_connections _) (handOver_current _)
  | dropQueued => exact confines_same rfl rfl

theorem Lives.confines (h : s.Lives) (hs : s' = s ∨ s.Step c s')
    (hreturn : ∀ v ∈ s.visits, v.call = c → v.request = .release (some ⟨s.number, g⟩)) : s.Confines g s' := by
  rcases hs with rfl | hs
  · exact confines_same rfl rfl
  · exact hs.confines h hreturn

theorem Confines.trans {s'' : Slot} (h : s.Confines g s') (h' : s'.Confines g s'') : s.Confines g s'' := by
  intro j d hj hd
  obtain ⟨hd', hc⟩ := h j d hj hd
  obtain ⟨hd'', hc'⟩ := h' j d hj hd'
  exact ⟨hd'', hc'.trans hc⟩

theorem Lives.arrive_steps (h : s.Lives) {v : Visit} (ha : s.Admits v) (now : Nat) :
    (s.arrive now v).1 = s.come v ∨ (s.come v).Step v.call (s.arrive now v).1 := by
  cases hh : s.holder with
  | none => exact .inr (.serve (by simp [Slot.come, hh]) (h.valid.arrive_serves hh ha now))
  | some x => exact .inl (by simp [Slot.arrive, Slot.come, hh])

theorem Lives.arrive_confines (h : s.Lives) (ha : s.Admits ⟨c, .release (some ⟨s.number, g⟩)⟩) (now : Nat) :
    s.Confines g (s.arrive now ⟨c, .release (some ⟨s.number, g⟩)⟩).1 := by
  obtain ⟨hvisits, _, _, _, hnumber, hcs, hcurrent, _⟩ := h.valid.come_eq ⟨c, .release (some ⟨s.number, g⟩)⟩
  have hcome : s.Confines g (s.come ⟨c, .release (some ⟨s.number, g⟩)⟩) := confines_same hcs hcurrent
  rcases h.arrive_steps ha now with he | hstep
  · rwa [he]
  · refine hcome.trans (hstep.confines (h.step (.come ha)) fun v hv hc => ?_)
    rw [hvisits, List.mem_append, List.mem_singleton] at hv
    rw [hnumber]
    exact hv.elim (fun hv => absurd hc (ha.absent v hv)) fun hv => hv ▸ rfl

end Slot
end LanguageHost
