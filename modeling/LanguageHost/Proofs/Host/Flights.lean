import LanguageHost.Proofs.Host.Runs
import LanguageHost.Proofs.Registry.SingleFlight

/-! In every run concurrent acquires of a key make one launch, and share what comes of it. -/
namespace LanguageHost

namespace Slot
variable {s : Slot}

/-- How an acquire goes that obtains the gate when the log is `older`: it shares the live connection; or
it is refused, without a launch, because the latest launch to finish failed since the call came; or it
makes one launch. -/
structure Log.Decides (number : Nat) (older : List Record) (t : Turn) (key : ServerKey) : Prop where
  shares : 0 < (tally number older).count → ∃ id, (tally number older).entry = some (id, .ready) ∧
    t.answer = some (.acquired id) ∧
    tally number (.turn t :: older) = { tally number older with count := (tally number older).count + 1 }
  refused : (tally number older).count = 0 → ∀ e, FailedSince t.call older e →
    t.answer = some (.refused (.launchFailed key.text e.message)) ∧
    tally number (.turn t :: older) = tally number older
  launches : (tally number older).count = 0 → (∀ e, ¬FailedSince t.call older e) →
    (tally number (.turn t :: older)).launches = (tally number older).launches + 1

theorem Log.Judges.decides {number : Nat} {older : List Record} {t : Turn} (hj : Judges number older t)
    {key : ServerKey} {document : Option Path} {n : Nat}
    (hr : t.request = .acquire key document n) : Decides number older t key := by
  obtain ⟨hshare, hrefuse, hlaunch⟩ := hj key document n hr
  refine ⟨fun hpos => ?_, fun hzero e he => ?_, fun hzero hno => ?_⟩
  · obtain ⟨id, hentry, _, hanswer⟩ := hshare hpos
    refine ⟨id, hentry, hanswer, ?_⟩
    rw [tally_turn]
    simp [Tally.after, hr, hpos]
  · obtain ⟨hending, hanswer⟩ := hrefuse hzero e he
    refine ⟨hanswer, ?_⟩
    rw [tally_turn]
    simp [Tally.after, hr, hzero, hending]
  · rw [tally_turn]
    rcases hlaunch hzero hno with ⟨outcome, hending⟩ | hending
    · cases outcome <;> simp [Tally.after, hr, hzero, hending, Tally.launch]
    · simp [Tally.after, hr, hzero, hending, Tally.launch]

/-- A call that came when a launch had failed already does not share that failure. -/
theorem Log.FailedSince.launched {v : Visit} {e : Error} {later earlier : List Record}
    (he : FailedSince v.call (later ++ .came v :: earlier) e) :
    ∃ t outcome, .turn t ∈ later ∧ t.ending = .launched outcome := by
  induction later with
  | nil =>
    rcases failedSince_cons.1 he with ⟨t, ht, _⟩ | ⟨hno, _⟩
    · cases ht
    · exact absurd rfl hno
  | cons r later ih =>
    rcases failedSince_cons.1 he with ⟨t, rfl, hending⟩ | ⟨_, he⟩
    · exact ⟨t, _, List.mem_cons_self, hending⟩
    · obtain ⟨t, outcome, ht, hending⟩ := ih he
      exact ⟨t, outcome, List.mem_cons_of_mem _ ht, hending⟩

/-- How a call to acquire goes on at the moment it has the gate. -/
structure Chooses (s : Slot) (v : Visit) (key : ServerKey) (r : Slot × Option Answer) : Prop where
  shares : ∀ c, s.current? = some c → c.isLive = true → r.2 = some (.acquired c.id) ∧
    r.1.current? = some { c with refs := c.refs + 1 } ∧ r.1.generation = s.generation
  refused : s.current?.filter Connection.isLive = none → ∀ e, Log.FailedSince v.call s.log e →
    r.2 = some (.refused (.launchFailed key.text e.message)) ∧ r.1.current? = s.current? ∧
    r.1.generation = s.generation
  launches : s.current?.filter Connection.isLive = none → (∀ e, ¬Log.FailedSince v.call s.log e) →
    r.2 = none ∧ r.1.generation = s.generation + 1

theorem Valid.dead (h : s.Valid) (hw : s.work? = none) (hv : s.Vacant) (c : Connection) (hc : s.current? = some c) :
    ¬c.isLive = true := by
  rcases h.ready_or_vacant hw with ⟨i, d, hd⟩ | ⟨_, hnone⟩
  · have hfailed := hv _ d hd.1 hd.2.1
    rw [hd.2.2] at hfailed
    cases hfailed
  · rw [Option.filter_eq_none_iff] at hnone
    exact hnone c hc

theorem Lives.enter_chooses (h : s.Lives) {v : Visit} (hh : s.holder = some ⟨v, .granted⟩) {key : ServerKey}
    {document : Option Path} {n : Nat} (hr : v.request = .acquire key document n) (now : Nat) :
    s.Chooses v key (s.enter now) := by
  have hw := Valid.work?_granted hh
  have hv : v ∈ s.visits := by simp [visits, hh]
  have hserves := h.valid.enter_serves hh now
  generalize s.enter now = r at hserves
  cases hserves with
  | @share _ _ _ i c _ hc =>
    refine ⟨fun d hd _ => ?_, fun hnone => ?_, fun hnone => ?_⟩
    · obtain rfl := Option.some.inj (hd.symm.trans hc.current?)
      refine ⟨by rw [h.valid.id_eq hc.2.1]; rfl, ?_, by simp [generation]⟩
      rw [current?_eq (by simpa using hc.1)]
      simp [hc.2.1]
    · simp [hc.current?, hc.isLive] at hnone
    · simp [hc.current?, hc.isLive] at hnone
  | @refuse key' _ _ f hr' hvacant hf hlt =>
    obtain ⟨rfl, _, rfl⟩ := Request.acquire.inj (hr.symm.trans hr')
    refine ⟨fun c hc hlive => ?_, fun _ e he => ?_, fun _ hno => ?_⟩
    · exact absurd hlive (h.valid.dead hw hvacant c hc)
    · obtain ⟨f', hf', _, hreason⟩ := h.recalls.failedSince_failure hw hv hr he
      obtain rfl := Option.some.inj (hf.symm.trans hf')
      refine ⟨by rw [← hreason]; rfl, ?_, by simp [generation]⟩
      rw [reply_fst, leave_current?]
    · obtain ⟨e, he⟩ := h.recalls.failure_failedSince hw hv hr hf hlt
      exact absurd he (hno e)
  | launch hr' hvacant hf =>
    obtain ⟨rfl, rfl, rfl⟩ := Request.acquire.inj (hr.symm.trans hr')
    refine ⟨fun c hc hlive => ?_, fun _ e he => ?_, fun _ _ => ⟨rfl, by simp [generation, Slot.launch]⟩⟩
    · exact absurd hlive (h.valid.dead hw hvacant c hc)
    · obtain ⟨f, hf', hlt, _⟩ := h.recalls.failedSince_failure hw hv hr he
      exact absurd hlt (Nat.not_lt.2 (hf f hf'))
  | ignore hr' | drop hr' | last hr' | forget hr' | close hr' => simp [hr] at hr'

/-- Every acquire of the key has gone as it had to; so does one that is about to go on, and so has one
whose launch is in flight. -/
structure Decides (s : Slot) : Prop where
  turns : Log.EachTurn (fun older t => ∀ key document n, t.request = .acquire key document n →
    Log.Decides s.number older t key) s.log
  afresh : Log.EachTurn (fun older t => ∀ key document n later earlier, t.request = .acquire key document n →
    older = later ++ .came t.toVisit :: earlier → (∀ u outcome, .turn u ∈ later → u.ending ≠ .launched outcome) →
    (Log.tally s.number older).count = 0 →
    (Log.tally s.number (.turn t :: older)).launches = (Log.tally s.number older).launches + 1) s.log
  enters : ∀ v key document n now, s.holder = some ⟨v, .granted⟩ → v.request = .acquire key document n →
    s.Chooses v key (s.enter now)
  flying : ∀ v since, s.holder = some ⟨v, .launching since⟩ →
    s.tally.count = 0 ∧ (∀ e, ¬Log.FailedSince v.call s.log e) ∧ s.generation = s.tally.launches + 1
  live : s.work? = none → (0 < s.tally.count ↔ ∃ c, s.current? = some c ∧ c.isLive = true)

theorem Lives.decides (h : s.Lives) : s.Decides := by
  have hturns {newer t older} (he : s.log = newer ++ .turn t :: older) {key document n}
      (hr : t.request = .acquire key document n) :
      Log.Decides s.number older t key := (h.recalls.turns newer t older he).2.decides hr
  refine ⟨fun newer t older he key document n hr => hturns he hr,
    fun newer t older he key document n later earlier hr ho hno hzero => ?_,
    fun v key document n now hh hr => h.enter_chooses hh hr now, fun v since hh => ?_, fun hw => ?_⟩
  · refine (hturns he hr).launches hzero fun e hf => ?_
    obtain ⟨u, outcome, hu, hending⟩ := (ho ▸ hf).launched
    exact hno u outcome hu hending
  · have hw : s.work? = some (v, .launch) := by simp [work?, hh]
    obtain ⟨_, hzero, hgen, _⟩ := h.counts.launching v hw
    exact ⟨hzero, h.recalls.launching v hw, hgen⟩
  · rw [← h.counts.outside hw]
    rcases h.valid.ready_or_vacant hw with ⟨i, c, hc⟩ | ⟨hv, _⟩
    · obtain ⟨hcount, _, hpos⟩ := h.valid.shown_ready hc
      exact ⟨fun _ => ⟨c, hc.current?, hc.isLive⟩, fun _ => by omega⟩
    · rw [h.valid.shown_vacant hw hv]
      refine ⟨fun hlt => absurd hlt (Nat.lt_irrefl 0), ?_⟩
      rintro ⟨c, hc, hl⟩
      exact absurd hl (h.valid.dead hw hv c hc)

end Slot

namespace Host
variable {h h' : Host} {K : EditorId → Option ServerKey} {Q : Nat → Request → Prop} {i : Nat} {s s' : Slot}

/-- A launch was in flight with `waiting` callers behind it, all of them acquires, and the last of them
has been served. -/
structure Flight (s s' : Slot) (t₀ : Turn) (turns : List Turn) (waiting : List Visit) : Prop where
  begun : ∃ v₀ since, s.holder = some ⟨v₀, .launching since⟩
  free : s'.holder = none
  log : ∃ came : List Visit, waiting = s.queue ++ came.reverse ∧
    s'.log = turns.map Record.turn ++ .turn t₀ :: (came.map Record.came ++ s.log)
  acquires : ∀ v ∈ waiting, ∃ key document n, v.request = .acquire key document n

theorem Flight.callers {t₀ : Turn} {turns : List Turn} {waiting : List Visit} (hf : Flight s s' t₀ turns waiting)
    (hl : s.Lives) (hl' : s'.Lives) : (turns.map Turn.toVisit).reverse = waiting := by
  obtain ⟨v₀, since, hh⟩ := hf.begun
  obtain ⟨came, rfl, hlog⟩ := hf.log
  exact (hl.flight_callers hl' hh hlog hf.free).2

/-- A flight that arrives: one connection, with a reference for each of the callers. -/
theorem Flight.arrived {t₀ : Turn} {turns : List Turn} {waiting : List Visit} (hf : Flight s s' t₀ turns waiting)
    (hl : s.Lives) (hl' : s'.Lives) (hnumber : s'.number = s.number) {p : Process}
    (hp : t₀.ending = .launched (.ok p)) :
    s'.generation = s.generation ∧
    (∃ c, s'.current? = some c ∧ c.id = ⟨s.number, s.generation⟩ ∧ c.status = .ready ∧
      c.refs = waiting.length + 1) ∧ ∀ t ∈ t₀ :: turns, t.answer = some (.acquired ⟨s.number, s.generation⟩) := by
  have hcallers := hf.callers hl hl'
  obtain ⟨v₀, since, hh⟩ := hf.begun
  obtain ⟨came, hwaiting, hlog⟩ := hf.log
  obtain ⟨hshown, hgen, hfirst, hrest⟩ := hl.flight_ok hl' hh hnumber hlog hf.free hp (hwaiting ▸ hf.acquires)
  have hlength : turns.length = waiting.length := by
    rw [← hcallers]
    simp
  obtain ⟨_, hlaunches, _⟩ := hl.flight_allows hl' hh hnumber hlog
  refine ⟨hgen, ?_, fun t ht => ?_⟩
  · have hentry := congrArg Tally.entry hshown
    have hcount := congrArg Tally.count hshown
    simp only [Slot.shown, Tally.launch, Tally.next, ← hlaunches, Option.map_eq_some_iff,
      Prod.mk.injEq] at hentry hcount
    obtain ⟨c, hc, hid, hstatus⟩ := hentry
    rw [hc] at hcount
    exact ⟨c, hc, hid, hstatus, by rw [← hlength]; exact hcount⟩
  · rcases List.mem_cons.1 ht with rfl | ht
    · exact hfirst
    · exact hrest t ht

/-- A flight that fails: its caller has the error, and the others are told of it. -/
theorem Flight.failed {t₀ : Turn} {turns : List Turn} {waiting : List Visit} (hf : Flight s s' t₀ turns waiting)
    (hl : s.Lives) (hl' : s'.Lives) (hnumber : s'.number = s.number) {e : Error}
    (hp : t₀.ending = .launched (.error e)) :
    s'.generation = s.generation ∧ s'.shown.count = 0 ∧ t₀.answer = some (.refused e) ∧
      ∀ t ∈ turns, ∀ key document n, t.request = .acquire key document n →
        t.answer = some (.refused (.launchFailed key.text e.message)) := by
  obtain ⟨v₀, since, hh⟩ := hf.begun
  obtain ⟨came, hwaiting, hlog⟩ := hf.log
  obtain ⟨hshown, hgen, hfirst, hrest⟩ := hl.flight_failed hl' hh hnumber hlog hf.free hp (hwaiting ▸ hf.acquires)
  exact ⟨hgen, by rw [hshown]; rfl, hfirst, hrest⟩

/-- An acquire that comes to a free gate without a live connection launches, whatever failed before. -/
theorem Settled.begin_launches (hs : h.Settled False K) {c : CallId} {key : ServerKey} {document : Option Path}
    (hx : h.call? c = some ⟨.acquire key document, .fresh⟩) (hvalid : key.isValid = true)
    (hslot : h.registry.slot? key = some s) (hfree : s.holder = none) (hzero : h.registry.refCount key = 0) :
    ∃ s', (h.apply (.begin c)).registry.slot? key = some s' ∧ s'.generation = s.generation + 1 := by
  have hsound := hs.ordered.sound
  obtain ⟨hget, hkey⟩ := Registry.Sound.slot?_slot hsound hslot
  have hl := hsound.lives _ s hget
  obtain ⟨hsound₁, hold, _⟩ := hsound.openSlot key
  obtain ⟨i, s₁, hs₁, hk, he⟩ := visitToAcquire_eq hsound c key document
  obtain rfl := hsound₁.keys i _ s₁ s hs₁ (hold _ s hget) (BEq.trans hk (BEq.symm hkey))
  obtain rfl : s₁ = s := Option.some.inj (hs₁.symm.trans (hold _ s hget))
  have hshown : s₁.shown.count = 0 := by
    rw [Registry.refCount, Registry.connection?, hslot] at hzero
    exact hzero
  have hadmits : s₁.Admits ⟨c, .acquire key document s₁.finished⟩ := by
    refine ⟨fun w hw => ?_, fun key' document' seen hr => ?_⟩
    · simp [Slot.visits, hfree, hl.valid.idle hfree] at hw
    · obtain ⟨rfl, rfl, rfl⟩ := Request.acquire.inj hr
      exact ⟨hkey, rfl⟩
  obtain ⟨hnone, hgen⟩ := hl.arrive_launches hfree hshown hadmits rfl h.now
  have happly : (h.apply (.begin c)).registry =
      (h.registry.openSlot key).1.setSlot s₁.number (s₁.arrive h.now ⟨c, .acquire key document s₁.finished⟩).1 := by
    have hbegin : h.apply (.begin c) = h.acquire c key document := by
      simp only [Host.apply, hx]
      rfl
    rw [hbegin, Host.acquire, hvalid, he, visit_eq { h with registry := (h.registry.openSlot key).1 } hs₁, hnone]
    exact setSlot_registry ..
  have hsound' := (hs.apply (.begin c) False.elim).ordered.sound
  refine ⟨_, hsound'.slot?_eq_some (i := s₁.number) ?_ ?_, hgen⟩
  · rw [happly, Registry.setSlot_get hs₁, if_pos rfl]
  · rw [(hl.arrive hadmits h.now).key]
    exact hkey

/-- What comes of a flight: its callers have their turns in order, and whether the launch succeeds or
fails it is the only one; on success there is one connection with a reference for each of them, on failure
the first has the error and the others are told of it; and each returns what it was answered. -/
structure Flight.Shared (h' : Host) (s s' : Slot) (t₀ : Turn) (turns : List Turn)
    (waiting : List Visit) : Prop where
  callers : (turns.map Turn.toVisit).reverse = waiting
  arrived : ∀ p, t₀.ending = .launched (.ok p) → s'.generation = s.generation ∧ ∃ c, s'.current? = some c ∧
    c.status = .ready ∧ c.refs = waiting.length + 1 ∧ ∀ t ∈ t₀ :: turns, t.answer = some (.acquired c.id)
  failed : ∀ e, t₀.ending = .launched (.error e) → s'.generation = s.generation ∧ s'.shown.count = 0 ∧
    t₀.answer = some (.refused e) ∧ ∀ t ∈ turns, ∀ key document n, t.request = .acquire key document n →
      t.answer = some (.refused (.launchFailed key.text e.message))
  returned : ∀ t ∈ t₀ :: turns, ∀ a, t.answer = some a → ∀ x, h'.call? t.call = some x → x.task.Acquires →
    x.progress = .ended a.result

theorem Flight.shared {t₀ : Turn} {turns : List Turn} {waiting : List Visit} (hf : Flight s s' t₀ turns waiting)
    (ho : h.Ordered none Q) (ho' : h'.Ordered none Q) (hs : h.registry.slots[i]? = some s)
    (hs' : h'.registry.slots[i]? = some s') : Shared h' s s' t₀ turns waiting := by
  have hl := ho.sound.lives i s hs
  have hl' := ho'.sound.lives i s' hs'
  have hnumber : s'.number = s.number := (ho'.sound.numbers i s' hs').trans (ho.sound.numbers i s hs).symm
  refine ⟨hf.callers hl hl', fun p hp => ?_, fun e he => hf.failed hl hl' hnumber he,
    fun t ht a ha x hx htask => ?_⟩
  · obtain ⟨hgen, ⟨c, hc, hid, hready, hrefs⟩, hanswers⟩ := hf.arrived hl hl' hnumber hp
    exact ⟨hgen, c, hc, hready, hrefs, fun t ht => hid ▸ hanswers t ht⟩
  · obtain ⟨key, document, htask⟩ := htask
    obtain ⟨came, _, hlog⟩ := hf.log
    have hmem : t ∈ s'.turns := by
      rw [Slot.turns, hlog, List.mem_filterMap]
      exact ⟨.turn t, by simpa using List.mem_cons.1 ht |>.symm.imp_right .inl, rfl⟩
    exact (ho'.reports t.call x (by simp) hx).answered key document htask t.request a
      ⟨i, s', t, hs', hmem, rfl, rfl, ha⟩

/-- In every run an acquire that has the gate shares the live connection; or it is refused without a
launch, when the latest launch to finish failed since it was called and the key was not cleared since; or
it makes one launch. Calls that come while a launch is in flight share what comes of it, with all that
is left of the run for it to come to its end. A call that was made after a failure launches afresh. -/
theorem single_flight (bounds : Bounds) (events : List Event) :
    let h := (Host.new bounds).run events
    (∀ s ∈ h.registry.slots, s.Decides) ∧
    (∀ events' (i : Nat) (s s' : Slot) t₀ turns waiting, h.registry.slots[i]? = some s →
      (h.run events').registry.slots[i]? = some s' → Flight s s' t₀ turns waiting →
      Flight.Shared (h.run events') s s' t₀ turns waiting) ∧
    ∀ c key document (s : Slot), h.call? c = some ⟨.acquire key document, .fresh⟩ → key.isValid = true →
      h.registry.slot? key = some s → s.holder = none → h.registry.refCount key = 0 →
      ∃ s', (h.apply (.begin c)).registry.slot? key = some s' ∧ s'.generation = s.generation + 1 := by
  intro h
  have hs : h.Settled False _ := (settled_new bounds).run events False.elim
  refine ⟨fun s hmem => ?_, fun events' i s s' t₀ turns waiting hi hi' hf => ?_,
    fun c key document s hx hvalid hslot hfree hzero => ?_⟩
  · obtain ⟨i, hi⟩ := List.mem_iff_getElem?.1 hmem
    exact (hs.ordered.sound.lives i s hi).decides
  · exact hf.shared hs.ordered (hs.run events' False.elim).ordered hi hi'
  · exact hs.begin_launches hx hvalid hslot hfree hzero

/-- Two calls for one key, the second of which comes while the launch for the first is in flight. -/
def twoCalls : List Event :=
  let key : ServerKey := ⟨⟨"rust", ["rs"], .new "ra", List.nodup_singleton _⟩, ⟨⟨"/p"⟩⟩⟩
  [.call (.acquire key none), .call (.acquire key none), .begin ⟨0⟩, .begin ⟨1⟩]

theorem two_calls_share :
    let h := (Host.new default).run twoCalls
    let h' := h.run [.launched 0 (.ok ⟨none, none⟩), .enter 0]
    ∃ s s' t₀ t₁, h.registry.slots = [s] ∧ h'.registry.slots = [s'] ∧ s.queue.length = 1 ∧
      Flight s s' t₀ [t₁] s.queue ∧ Flight.Shared h' s s' t₀ [t₁] s.queue := by
  intro h h'
  obtain ⟨s, hs⟩ : ∃ s, h.registry.slots = [s] := ⟨_, rfl⟩
  obtain ⟨s', hs'⟩ : ∃ s', h'.registry.slots = [s'] := ⟨_, rfl⟩
  obtain ⟨t₀, t₁, hf, hlength⟩ : ∃ t₀ t₁, Flight s s' t₀ [t₁] s.queue ∧ s.queue.length = 1 := by
    obtain rfl := List.singleton_inj.1 hs
    obtain rfl := List.singleton_inj.1 hs'
    refine ⟨_, _, ⟨⟨_, _, rfl⟩, rfl, ⟨[], rfl, rfl⟩, fun v hv => ?_⟩, rfl⟩
    obtain rfl := List.mem_singleton.1 hv
    exact ⟨_, _, _, rfl⟩
  have hslot : h.registry.slots[0]? = some s := by rw [hs]; rfl
  have hslot' : h'.registry.slots[0]? = some s' := by rw [hs']; rfl
  exact ⟨s, s', t₀, t₁, hs, hs', hlength, hf,
    (single_flight default twoCalls).2.1 _ 0 s s' t₀ [t₁] s.queue hslot hslot' hf⟩
end Host

end LanguageHost
