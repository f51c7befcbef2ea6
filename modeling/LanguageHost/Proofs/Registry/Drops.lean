import LanguageHost.Proofs.Registry.Owners
import LanguageHost.Proofs.Registry.SingleFlight

/-! What a call that is given up leaves behind in a slot, and that a launch given up is made anew by
whoever comes next. -/
namespace LanguageHost

namespace Tally
variable {t : Tally} {turn : Turn}

theorem after_idle (number : Nat) (hz : t.count = 0) (hr : ¬turn.request.Acquires) :
    (t.after number turn).count = 0 ∧ (t.after number turn).launches = t.launches := by
  unfold after
  split
  · rename_i he
    exact absurd ⟨_, _, _, he⟩ hr
  · split
    · rw [hz]
      exact ⟨hz, rfl⟩
    · exact ⟨hz, rfl⟩
  · rw [if_neg (by omega)]
    exact ⟨hz, rfl⟩

end Tally

namespace Slot

namespace Log
variable {log newer : List Record} {r : Record} {number : Nat}

/-- Nobody at the gate came before the latest launch to finish, if that failed. -/
def Unshared (log : List Record) : Prop :=
  ∀ n e, failure? log = some (n, e) → ∀ v ∈ gate log, n ≤ seen v.call log

theorem Unshared.not_failedSince (h : Unshared log) {v : Visit} (hv : v ∈ gate log) (e : Error) :
    ¬FailedSince v.call log e := by
  intro hf
  obtain ⟨n, hn, hlt⟩ := failedSince_iff.1 hf
  exact absurd hlt (Nat.not_lt.2 (h n e hn v hv))

theorem Unshared.cons (h : Unshared log) (hr : ∀ t, r = .turn t → ∀ outcome, t.ending ≠ .launched outcome) :
    Unshared (r :: log) := by
  intro n e hn v hv
  cases r with
  | came w =>
    rw [seen]
    split
    · have hfailure : failure? log = some (n, e) := hn
      exact failure?_le hfailure
    · rename_i hne
      rw [gate, List.mem_append, List.mem_singleton] at hv
      refine h n e hn v (hv.resolve_right ?_)
      rintro rfl
      exact hne rfl
  | left call => exact h n e hn v (List.mem_filter.1 hv).1
  | turn t =>
    have hending := hr t rfl
    have hmem : v ∈ gate log := List.mem_of_mem_tail hv
    obtain ⟨w, ending, a⟩ := t
    by_cases hclear : w.request = .clear
    · rw [failure?_clear hending hclear] at hn
      cases hn
    · rw [failure?_turn hending hclear] at hn
      exact h n e hn v hmem

theorem Unshared.append (h : Unshared log)
    (hnewer : ∀ t, .turn t ∈ newer → ∀ outcome, t.ending ≠ .launched outcome) : Unshared (newer ++ log) := by
  induction newer with
  | nil => exact h
  | cons r newer ih =>
    refine (ih fun t ht => hnewer t (List.mem_cons_of_mem _ ht)).cons fun t ht => hnewer t ?_
    rw [ht]
    exact List.mem_cons_self

theorem tally_idle (hz : (tally number log).count = 0) (hnewer : ∀ t, .turn t ∈ newer → ¬t.request.Acquires) :
    (tally number (newer ++ log)).count = 0 ∧
      (tally number (newer ++ log)).launches = (tally number log).launches := by
  induction newer with
  | nil => exact ⟨hz, rfl⟩
  | cons r newer ih =>
    obtain ⟨hcount, hlaunches⟩ := ih fun t ht => hnewer t (List.mem_cons_of_mem _ ht)
    cases r with
    | came | left => exact ⟨hcount, hlaunches⟩
    | turn t =>
      obtain ⟨hcount', hlaunches'⟩ := Tally.after_idle number hcount (hnewer t List.mem_cons_self)
      exact ⟨hcount', hlaunches'.trans hlaunches⟩

end Log

variable {s s' : Slot} {c : CallId} {v : Visit}

/-- One step notes one thing at most, and that somebody came only of a call that may come. -/
theorem Step.noted (h : s.Lives) (hs : s.Step c s') :
    s'.log = s.log ∨ (∃ v, s.Admits v ∧ s'.log = .came v :: s.log) ∨
      ∃ r, (∀ v, r ≠ .came v) ∧ s'.log = r :: s.log := by
  cases hs with
  | @come v ha => exact .inr (.inl ⟨v, ha, (h.valid.come_eq v).2.2.1⟩)
  | serve hh hr =>
    cases hr.leaves with
    | waits _ hl => exact .inl hl
    | answered _ hl => exact .inr (.inr ⟨_, by simp, hl⟩)
  | launched | failed | stopped | dropLaunch | dropStop =>
    refine .inr (.inr ⟨_, ?_, leave_log _ _⟩)
    simp
  | dropGranted => exact .inr (.inr ⟨_, by simp, handOver_log _⟩)
  | dropQueued => exact .inr (.inr ⟨.left _, by simp, rfl⟩)

/-- Whoever is ahead at the gate has not come after more launches than those behind. -/
theorem Lives.first_come (h : s.Lives) :
    (Log.gate s.log).Pairwise fun v w => Log.seen v.call s.log ≤ Log.seen w.call s.log := by
  induction h with
  | new => exact .nil
  | @step s s' c h hs ih =>
    rcases hs.noted h with hlog | ⟨v, ha, hlog⟩ | ⟨r, hr, hlog⟩
    · rwa [hlog]
    · have hold {w : Visit} (hw : w ∈ Log.gate s.log) : Log.seen w.call (.came v :: s.log) = Log.seen w.call s.log := by
        rw [← h.recalls.gate] at hw
        exact if_neg fun he => ha.absent w hw he.symm
      rw [hlog, Log.gate, List.pairwise_append]
      refine ⟨ih.imp_of_mem fun hv hw hle => ?_, List.pairwise_singleton _ _, fun w hw u hu => ?_⟩
      · rwa [hold hv, hold hw]
      · obtain rfl := List.mem_singleton.1 hu
        rw [hold hw, Log.seen, if_pos rfl]
        exact Log.seen_le _ _
    · rw [hlog]
      cases r with
      | came v => exact absurd rfl (hr v)
      | left => exact ih.sublist List.filter_sublist
      | turn => exact ih.sublist (List.tail_sublist _)

/-- While a launch is in flight, nobody at the gate is to share an earlier failure. -/
theorem Lives.launching_unshared (h : s.Lives) (hw : s.work? = some (v, .launch)) : Log.Unshared s.log := by
  intro n e hn u hu
  have hfirst := h.first_come
  have hv : s.visits = v :: s.queue := by
    unfold work? at hw
    split at hw <;> simp_all [visits]
  have hle : n ≤ Log.seen v.call s.log :=
    Nat.not_lt.1 fun hlt => h.recalls.launching v hw e (Log.failedSince_iff.2 ⟨n, hn, hlt⟩)
  rw [← h.recalls.gate, hv] at hu hfirst
  rcases List.mem_cons.1 hu with rfl | hu
  · exact hle
  · exact Nat.le_trans hle ((List.pairwise_cons.1 hfirst).1 u hu)

theorem Lives.enter_launches (h : s.Lives) (hh : s.holder = some ⟨v, .granted⟩) {key : ServerKey}
    {document : Option Path} {n : Nat} (hr : v.request = .acquire key document n) (hz : s.tally.count = 0)
    (hun : Log.Unshared s.log) (now : Nat) :
    s.enter now = (s.launch now v key document, none) ∧ s.generation = s.tally.launches := by
  have hw := Valid.work?_granted hh
  have hv : v ∈ s.visits := by simp [visits, hh]
  have hshown := h.counts.outside hw
  refine ⟨?_, congrArg Tally.launches hshown⟩
  have hserves := h.valid.enter_serves hh now
  generalize s.enter now = r at hserves
  cases hserves with
  | share _ hc =>
    obtain ⟨hcount, _, hpos⟩ := h.valid.shown_ready hc
    rw [hshown, hz] at hcount
    omega
  | refuse hr' _ hf hlt =>
    obtain ⟨e, he⟩ := h.recalls.failure_failedSince hw hv hr' hf hlt
    exact absurd he (hun.not_failedSince (h.recalls.gate ▸ hv) e)
  | launch hr' =>
    obtain ⟨rfl, rfl, rfl⟩ := Request.acquire.inj (hr.symm.trans hr')
    rfl
  | ignore hr' | drop hr' | last hr' | forget hr' | close hr' => simp [hr] at hr'

/-- The next acquire to have the gate makes a launch: whoever has been handed it, or comes to it when it is
free. -/
structure Afresh (s : Slot) (generation : Nat) : Prop where
  granted : ∀ v key document n now, s.holder = some ⟨v, .granted⟩ → v.request = .acquire key document n →
    s.enter now = (s.launch now v key document, none) ∧ s.generation = generation
  free : ∀ v key document n now, s.holder = none → s.Admits v → v.request = .acquire key document n →
    s.arrive now v = ((s.come v).launch now v key document, none) ∧ s.generation = generation

theorem Lives.afresh (h : s.Lives) (hz : s.tally.count = 0) (hun : Log.Unshared s.log) :
    s.Afresh s.tally.launches := by
  refine ⟨fun v key document n now hh hr => h.enter_launches hh hr hz hun now,
    fun v key document n now hh ha hr => ?_⟩
  obtain ⟨_, _, hlog, _, hnumber, hcs, _⟩ := h.valid.come_eq v
  have hcome : s.come v = { s.note (.came v) with holder := some ⟨v, .granted⟩ } := by simp [Slot.come, hh]
  have htally : (s.come v).tally = s.tally := by
    rw [tally, turns, hlog, hnumber]
    rfl
  have henter : s.arrive now v = (s.come v).enter now := by
    have hserve : s.arrive now v = (s.note (.came v)).serve now v := by simp [Slot.arrive, hh]
    rw [hserve, hcome, ← serve_setHolder _ (some ⟨v, .granted⟩)]
    rfl
  obtain ⟨hlaunch, hgen⟩ := (h.step (.come ha)).enter_launches (v := v) (by rw [hcome]) hr (htally ▸ hz)
    (by rw [hlog]; exact hun.cons (by simp)) now
  refine ⟨henter.trans hlaunch, ?_⟩
  rw [← htally, ← hgen, generation, generation, hcs]

/-- Nobody but others works inside: the call waits for the gate, or is about to go on, or is not there. -/
def Outside (s : Slot) (c : CallId) : Prop := ∀ v w, s.work? = some (v, w) → v.call ≠ c

/-- What a call that is given up leaves behind in a slot. -/
structure Drops (s : Slot) (c : CallId) (s' : Slot) : Prop where
  visits : s'.visits = s.visits.filter fun v => v.call ≠ c
  counters : s'.finished = s.finished ∧ s'.failure = s.failure ∧ s'.generation = s.generation
  outside : s.Outside c → s'.connections = s.connections ∧ s'.current = s.current ∧ s'.work? = s.work?
  /-- Its launch has failed, and its connection is not to be used again. -/
  launching : ∀ v, s.work? = some (v, .launch) → v.call = c → s'.current = s.current ∧
    (∃ d, s'.current? = some d ∧ d.id = ⟨s.number, s.generation⟩ ∧ d.status = .failed ∧ d.refs = 0) ∧
    ∀ j, j + 1 ≠ s.generation → s'.connections[j]? = s.connections[j]?
  /-- The connection that it was stopping is closed. -/
  stopping : ∀ v g answer, s.work? = some (v, .stop g answer) → v.call = c → s'.current = none ∧
    (∃ d, s'.connection? g = some d ∧ d.id = ⟨s.number, g⟩ ∧ d.status = .closed ∧ d.refs = 0) ∧
    ∀ j, j + 1 ≠ g → s'.connections[j]? = s.connections[j]?

theorem abandon_counters (s : Slot) (c : CallId) :
    (s.abandon c).finished = s.finished ∧ (s.abandon c).failure = s.failure := by
  unfold Slot.abandon
  split
  · split
    · split <;> simp [note, modify]
    · split <;> exact ⟨rfl, rfl⟩
  · exact ⟨rfl, rfl⟩

theorem abandon_launching {since : Nat} (hh : s.holder = some ⟨v, .launching since⟩) :
    s.abandon v.call = (s.modify s.generation Connection.fail).leave ⟨v, .givenUp, none⟩ := by
  simp [Slot.abandon, hh]

theorem abandon_stopping {g since : Nat} {answer : Answer} (hh : s.holder = some ⟨v, .stopping g answer since⟩) :
    s.abandon v.call = (s.modify g Connection.endStop).leave ⟨v, .givenUp, none⟩ := by
  simp [Slot.abandon, hh]

theorem holder_of_launch (hw : s.work? = some (v, .launch)) : ∃ since, s.holder = some ⟨v, .launching since⟩ := by
  unfold work? at hw
  split at hw <;> simp_all

theorem holder_of_stop {g : Nat} {answer : Answer} (hw : s.work? = some (v, .stop g answer)) :
    ∃ since, s.holder = some ⟨v, .stopping g answer since⟩ := by
  unfold work? at hw
  split at hw <;> simp_all

theorem Lives.drops (h : s.Lives) (c : CallId) : s.Drops c (s.abandon c) := by
  obtain ⟨hfinished, hfailure⟩ := abandon_counters s c
  have hother {g j : Nat} {f : Connection → Connection} (hg : 0 < g) (hj : j + 1 ≠ g) :
      (s.connections.modify (g - 1) f)[j]? = s.connections[j]? := by
    have hne : g - 1 ≠ j := by omega
    simp [hne]
  refine ⟨abandon_visits h.valid c, ⟨hfinished, hfailure, abandon_generation s c⟩, fun hout => abandon_outside hout,
    ?_, ?_⟩
  · rintro v hw rfl
    obtain ⟨since, hh⟩ := holder_of_launch hw
    obtain ⟨hpos, d, hd, _, hcur⟩ := (h.valid.table_launching hh).launching_last
    rw [abandon_launching hh]
    refine ⟨leave_current _ _, ⟨d.fail, ?_, ?_, rfl, rfl⟩, fun j hj => ?_⟩
    · have hlen : s.connections.length - 1 + 1 = s.connections.length := Nat.sub_add_cancel hpos
      rw [leave_current?, current?_eq (g := s.connections.length - 1) (by rw [hlen]; exact hcur)]
      simp [modify, generation, hd]
    · show d.id = _
      rw [h.valid.id_eq hd, Nat.sub_add_cancel hpos]
      rfl
    · rw [leave_connections]
      exact hother hpos hj
  · rintro v g answer hw rfl
    obtain ⟨since, hh⟩ := holder_of_stop hw
    obtain ⟨hnone, hpos, d, hd, hstatus⟩ := (h.valid.table_stopping hh).stopping g answer rfl
    have hlaw := h.valid.lawful hd
    rw [abandon_stopping hh]
    refine ⟨(leave_current _ _).trans hnone, ⟨d.endStop, ?_, ?_, rfl, ?_⟩, fun j hj => ?_⟩
    · simp [connection?, Nat.ne_of_gt hpos, modify, hd]
    · show d.id = _
      rw [h.valid.id_eq hd, Nat.sub_add_cancel hpos]
    · exact hlaw.refs_eq_zero (by simp [Connection.isLive, hstatus, Status.isLive])
    · rw [leave_connections]
      exact hother hpos hj

/-- After a launch that was given up the next acquire launches, whatever else may come in between. -/
theorem Lives.abandon_afresh (h : s.Lives) (hw : s.work? = some (v, .launch)) {later : Slot} (hl : later.Lives)
    (hnumber : later.number = s.number) {newer : List Record} (hlog : later.log = newer ++ (s.abandon v.call).log)
    (hnewer : ∀ t, .turn t ∈ newer → ¬t.request.Acquires) : later.Afresh s.generation := by
  obtain ⟨since, hh⟩ := holder_of_launch hw
  obtain ⟨⟨key, document, n, hr⟩, hzero, hgen, _⟩ := h.counts.launching v hw
  have habandon : (s.abandon v.call).log = .turn ⟨v, .givenUp, none⟩ :: s.log := by
    rw [abandon_launching hh, leave_log]
    rfl
  rw [habandon] at hlog
  have hgiven : Log.tally s.number (.turn ⟨v, .givenUp, none⟩ :: s.log) = s.tally.launch s.number 0 .failed := by
    show s.tally.after s.number _ = _
    simp [Tally.after, hr, hzero]
  have hidle : (Log.tally s.number (.turn ⟨v, .givenUp, none⟩ :: s.log)).count = 0 := by
    rw [hgiven]
    rfl
  obtain ⟨hcount, hlaunches⟩ := Log.tally_idle hidle hnewer
  have htally : later.tally = Log.tally s.number (newer ++ .turn ⟨v, .givenUp, none⟩ :: s.log) := by
    rw [tally, hnumber, turns, hlog]
    rfl
  have hun : Log.Unshared later.log := by
    rw [hlog]
    refine ((h.launching_unshared hw).cons (by simp)).append fun t ht outcome he => hnewer t ht ?_
    -- Only an acquire can have launched.
    obtain ⟨l₁, l₂, hsplit⟩ := List.append_of_mem ht
    have hallows := hl.counts.runs
    rw [turns, hlog, hsplit, List.append_assoc, List.filterMap_append] at hallows
    have hallowed := Tally.Runs.allows (t := t) hallows
    cases hallowed <;> simp_all [Request.Acquires]
  have hgeneration : later.tally.launches = s.generation := by
    rw [htally, hlaunches, hgiven, hgen]
    rfl
  exact hgeneration ▸ hl.afresh (htally ▸ hcount) hun

/-- A live connection is left as it was, or the call is now stopping it. -/
def Shuts (s : Slot) (c : CallId) (s' : Slot) : Prop :=
  ∀ (j : Nat) (d : Connection), s.connections[j]? = some d → d.isLive = true →
    (s'.connections[j]? = some d ∧ (s'.current = some (j + 1) ↔ s.current = some (j + 1))) ∨
    ∃ v answer, s'.work? = some (v, .stop (j + 1) answer) ∧ v.call = c

theorem shuts_of_same (hcs : s'.connections = s.connections) (hcurrent : s'.current = s.current) :
    s.Shuts c s' := fun _ _ hd _ => .inl ⟨hcs ▸ hd, by rw [hcurrent]⟩

theorem Step.shuts (h : s.Lives) (hs : s.Step c s') (hclear : ∀ v ∈ s.visits, v.call = c → v.request = .clear) :
    s.Shuts c s' := by
  have hrunning {d : Connection} (hl : d.isLive = true) : d.Running := by
    cases hd : d.status <;> simp_all [Connection.isLive, Status.isLive, Connection.Running]
  have hholder {v : Visit} {stage : Stage} (hh : s.holder = some ⟨v, stage⟩) (hv : v.call = c) : v.request = .clear :=
    hclear v (by simp [visits, hh]) hv
  have hlaunching {v : Visit} {since : Nat} (hh : s.holder = some ⟨v, .launching since⟩) (hv : v.call = c) : False := by
    obtain ⟨⟨_, _, _, hr⟩, _⟩ := h.counts.launching v (by simp [work?, hh])
    simp [hholder hh hv] at hr
  -- While one connection is being stopped, none is live.
  have hstopping {v : Visit} {g since : Nat} {answer : Answer} (hh : s.holder = some ⟨v, .stopping g answer since⟩) :
      s.Shuts c s' := by
    intro j d hd hl
    obtain ⟨_, _, e, he, hstatus⟩ := (h.valid.table_stopping hh).stopping g answer rfl
    obtain rfl := h.valid.table.running_unique hd he (hrunning hl) (.inr (.inr hstatus))
    obtain rfl := Option.some.inj (hd.symm.trans he)
    simp [Connection.isLive, hstatus, Status.isLive] at hl
  cases hs with
  | @come v ha =>
    obtain ⟨_, _, _, _, _, hcs, hcurrent, _⟩ := h.valid.come_eq v
    exact shuts_of_same hcs hcurrent
  | serve hh hr =>
    have hv := hholder hh rfl
    cases hr with
    | forget _ hvacant =>
      intro j d hd hl
      have hover := (h.valid.table_outside (Valid.work?_granted hh)).all_over (i := j) (c := d)
        (fun g e hg he => by simp [Connection.isLive, hvacant g e hg he, Status.isLive]) hd
      exact absurd (hrunning hl) hover
    | @close i e _ hready =>
      intro j d hd hl
      obtain rfl := h.valid.table.running_unique hd hready.2.1 (hrunning hl) (.inr (.inl hready.2.2))
      exact .inr ⟨_, _, rfl, rfl⟩
    | share hr | refuse hr | launch hr | ignore hr | drop hr | last hr => simp [hv] at hr
  | launched hh | failed hh | dropLaunch hh => exact (hlaunching hh rfl).elim
  | stopped hh | dropStop hh => exact hstopping hh
  | dropGranted hh => exact shuts_of_same (handOver_connections _) (handOver_current _)
  | dropQueued => exact shuts_of_same rfl rfl

theorem Lives.shuts (h : s.Lives) (hs : s' = s ∨ s.Step c s')
    (hclear : ∀ v ∈ s.visits, v.call = c → v.request = .clear) : s.Shuts c s' := by
  rcases hs with rfl | hs
  · exact shuts_of_same rfl rfl
  · exact hs.shuts h hclear

theorem Lives.arrive_shuts (h : s.Lives) (ha : s.Admits ⟨c, .clear⟩) (now : Nat) :
    s.Shuts c (s.arrive now ⟨c, .clear⟩).1 := by
  obtain ⟨hvisits, _, _, _, _, hcs, hcurrent, _⟩ := h.valid.come_eq ⟨c, .clear⟩
  cases hh : s.holder with
  | none =>
    have hcome : (s.come ⟨c, .clear⟩).holder = some ⟨⟨c, .clear⟩, .granted⟩ := by simp [Slot.come, hh]
    have hshuts := (Step.serve hcome (h.valid.arrive_serves hh ha now)).shuts (h.step (.come ha)) fun v hv hc => by
      rw [hvisits, List.mem_append, List.mem_singleton] at hv
      exact hv.elim (fun hv => absurd hc (ha.absent v hv)) fun hv => hv ▸ rfl
    intro j d hd hl
    have := hshuts j d (hcs ▸ hd) hl
    rwa [hcurrent] at this
  | some x =>
    have hs : s.arrive now ⟨c, .clear⟩ = (s.come ⟨c, .clear⟩, none) := by simp [Slot.arrive, Slot.come, hh]
    rw [hs]
    exact shuts_of_same hcs hcurrent

/-- The call that is stopping a connection does one step more, by which the connection is closed. -/
theorem Step.closes (h : s.Lives) (hs : s.Step c s') {g : Nat} {answer : Answer}
    (hw : s.work? = some (v, .stop g answer)) (hv : v.call = c) :
    0 < g ∧ ∃ d, s'.connections[g - 1]? = some d ∧ d.status = .closed := by
  obtain ⟨since, hh⟩ := holder_of_stop hw
  obtain ⟨_, hpos, d, hd, _⟩ := (h.valid.table_stopping hh).stopping g answer rfl
  have hclosed {ending : Ending} {a : Option Answer} :
      0 < g ∧ ∃ d, ((s.modify g Connection.endStop).leave ⟨v, ending, a⟩).connections[g - 1]? = some d ∧
        d.status = .closed :=
    ⟨hpos, d.endStop, by simp [modify, hd], rfl⟩
  have hmem : v ∈ s.visits := by simp [visits, hh]
  cases hs with
  | come ha => exact absurd hv (ha.absent v hmem)
  | stopped hh' | dropStop hh' =>
    obtain ⟨rfl, rfl, rfl, rfl⟩ : _ ∧ _ ∧ _ ∧ _ := by simpa using hh'.symm.trans hh
    exact hclosed
  | serve hh' | launched hh' | failed hh' | dropLaunch hh' | dropGranted hh' => simp [hh] at hh'
  | @dropQueued w hq =>
    have hdistinct := h.valid.distinct
    simp only [visits, hh, Option.map_some, Option.toList_some, List.singleton_append, List.map_cons,
      List.nodup_cons] at hdistinct
    exact absurd (List.mem_map.2 ⟨w, hq, hv.symm⟩) hdistinct.1

end Slot
end LanguageHost
