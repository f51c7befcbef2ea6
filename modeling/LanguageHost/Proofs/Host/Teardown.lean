import LanguageHost.Proofs.Host.Careers
import LanguageHost.Proofs.Host.Converges
import LanguageHost.Proofs.Host.Servers
import LanguageHost.Proofs.Host.Unwinding

/-! The shutdown of the lifecycle leaves nothing running, wherever the opens and closes are that are under way
when it begins. -/
namespace LanguageHost.Host
variable {h h' : Host} {g : Doings} {c d : CallId} {x : Call} {id : ConnectionId} {i : Nat} {s : Slot}
  {Q : Nat → Request → Prop} {K : EditorId → Option ServerKey} {actor : Option CallId} {task : Option Task}

def Begins (P : Task → Prop) (h : Host) : List Event → Prop
  | [] => True
  | e :: events => (∀ t, h.begins? e = some t → P t) ∧ (h.apply e).Begins P events

theorem begins_nothing {P : Task → Prop} {events : List Event} (hno : ∀ c, .begin c ∉ events) (h : Host) :
    h.Begins P events := by
  induction events generalizing h with
  | nil => trivial
  | cons e events ih =>
    refine ⟨fun t ht => ?_, ih (fun c hc => hno c (List.mem_cons_of_mem _ hc)) _⟩
    cases e with
    | begin c => exact absurd List.mem_cons_self (hno c)
    | call | session | enter | launched | stopped | expire | crash | drop | tick => cases ht

/-- Nobody but the lifecycle uses the registry. Calls are not forgotten, so this is about the whole run: every call is
the lifecycle's, or gives back what the lifecycle has left to it, and nobody has given up a call of the latter kind. -/
def Exclusive (h : Host) : Prop :=
  ∀ c x, h.call? c = some x →
    x.task.OfLifecycle ∧ ∀ id, x.task = .releaseConnection id → x.progress ≠ .ended .dropped

/-- Every call has ended, but for those that never began; none of these has a reference to give back. -/
def Over (h : Host) : Prop :=
  ∀ c x, h.call? c = some x →
    (∃ r, x.progress = .ended r) ∨ (x.progress = .fresh ∧ ∀ id, x.task ≠ .releaseConnection id)

section Clears

theorem goes_left {s' : Slot} {v : Visit} {ans : Option Answer} (hg : s.Goes v (s', ans)) (hleft : .left c ∈ s'.log) :
    .left c ∈ s.log := by
  obtain ⟨e, hlog⟩ := hg.log
  rw [hlog] at hleft
  exact (List.mem_append.1 hleft).resolve_left (by simp)

/-- The call is there, and was given up if its task is to clear all slots. -/
def Quit (h : Host) (c : CallId) : Prop :=
  ∃ x, h.call? c = some x ∧
    ∀ report, x.task.Clears report → x.progress = .ended .dropped ∨ x.progress = .ended .crashed

/-- Nobody leaves a gate before its turn without being given up. -/
def Quits (h : Host) : Prop :=
  ∀ (i : Nat) (s : Slot) c, h.registry.slots[i]? = some s → .left c ∈ s.log → h.Quit c

theorem Staged.crash_clears (hs : h.Staged) (hx : h.call? c = some x) (hp : ∀ r, x.progress ≠ .ended r)
    {report : Bool} (hclears : x.task.Clears report) : (h.crash c).progress? c = some (.ended .crashed) := by
  have hstage := hs c x hx
  rw [Ordered.crash_eq hx hp]
  have hkeep : ((h.interrupt c x.progress).finish c .crashed).progress? c = some (.ended .crashed) :=
    progress?_setProgress (interrupt_call? hx c x.progress) _
  rcases hclears.eq with ⟨ht, _⟩ | ⟨ht, _⟩ <;> rw [ht] at hstage <;> revert hstage hkeep <;>
    cases x.progress <;> simp +contextual [Task.Reaches, Task.Opens]

theorem Happens.quit (hh : h.Happens actor task h') (hs : h.Staged) (hq : h.Quit c) : h'.Quit c := by
  obtain ⟨x, hx, hgiven⟩ := hq
  obtain ⟨_, _, _, _, hw⟩ := hh.works hs
  obtain ⟨x', hx', htask, _⟩ := hw.call hx
  refine ⟨x', hx', fun report hc => ?_⟩
  rw [htask] at hc
  have hp := hgiven report hc
  have hended : ∃ r, x.progress = .ended r := hp.elim (fun hp => ⟨_, hp⟩) fun hp => ⟨_, hp⟩
  obtain rfl := Option.some.inj (hx'.symm.trans (hh.leaves_be hs hx (.inr hended)).1)
  exact hp

/-- Of the actor it is noted that it has left when it is given up, or has another task. -/
theorem Happens.quit_now (hh : h.Happens actor task h') (hs : h.Staged) (hq : h.Quits) (hx : h.call? d = some x)
    (ha : actor = some d) {s' : Slot} (hs' : h'.registry.slots[i]? = some s') (hleft : .left c ∈ s'.log)
    (hclears : ∀ report, x.task.Clears report → (∃ s, h.registry.slots[i]? = some s ∧ .left c ∈ s.log) ∨
      h'.progress? d = some (.ended .dropped) ∨ h'.progress? d = some (.ended .crashed)) : h'.Quit c := by
  have hold {s : Slot} (hs₀ : h.registry.slots[i]? = some s) (hl : .left c ∈ s.log) := hh.quit hs (hq i s c hs₀ hl)
  obtain ⟨_, d', hd', _, hw⟩ := hh.works hs
  obtain rfl : d = d' := by simpa [ha] using hd'
  have hmine (hc : c = d) : h'.Quit c := by
    subst hc
    obtain ⟨x', hx', htask, _⟩ := hw.call hx
    refine ⟨x', hx', fun report hc => ?_⟩
    rw [progress?, hx', Option.map_some, Option.some.injEq, Option.some.injEq] at hclears
    rcases hclears report (by rwa [← htask]) with ⟨s, hs₀, hl⟩ | hp
    · obtain ⟨x'', hx'', hgiven⟩ := hold hs₀ hl
      obtain rfl := Option.some.inj (hx'.symm.trans hx'')
      exact hgiven report hc
    · exact hp
  rcases hw.slot_back hs' with ⟨s, hs₀, hg⟩ | ⟨_, hlog⟩
  · obtain ⟨newer, hlog, hnewer⟩ := hg.log
    rw [hlog] at hleft
    exact (List.mem_append.1 hleft).elim (fun hl => hmine (hnewer _ hl)) (hold hs₀)
  · exact hmine (hlog _ hleft)

theorem setSlot_left {k : Nat} {t t' s' : Slot} {v : Visit} {ans : Option Answer} (ht : h.registry.slots[k]? = some t)
    (hg : t.Goes v (t', ans)) (hs' : (h.setSlot k t').registry.slots[i]? = some s') (hleft : .left c ∈ s'.log) :
    ∃ s, h.registry.slots[i]? = some s ∧ .left c ∈ s.log := by
  rcases setSlot_slots ht hs' with ⟨rfl, rfl⟩ | ⟨_, hs'⟩
  · exact ⟨t, ht, goes_left hg hleft⟩
  · exact ⟨s', hs', hleft⟩

theorem shutdownAll_left {s' : Slot} {report : Bool}
    (hs' : (h.shutdownAll d report).registry.slots[i]? = some s') (hleft : .left c ∈ s'.log) :
    ∃ s, h.registry.slots[i]? = some s ∧ .left c ∈ s.log := by
  rw [shutdownAll_slots] at hs'
  obtain ⟨s, hs₀, rfl⟩ := Option.map_eq_some_iff.1 hs'
  exact ⟨s, hs₀, by simpa [Slot.note] using goes_left (s.arrive_goes _ _) hleft⟩

theorem Happens.quits (hh : h.Happens actor task h') (hs : h.Staged) (hq : h.Quits) : h'.Quits := by
  intro i s' c hs' hleft
  have hold {s : Slot} (hs₀ : h.registry.slots[i]? = some s) (hl : .left c ∈ s.log) := hh.quit hs (hq i s c hs₀ hl)
  have hnew {d : CallId} {y : Call} (hy : h.call? d = some y) (ha : actor = some d) :=
    hh.quit_now hs hq hy ha hs' hleft
  cases hh with
  | calm | wrapped => exact hold hs' hleft
  | made => exact hold (by rwa [spawn_registry] at hs') hleft
  | waits ht _ _ hg =>
    obtain ⟨s, hs₀, hl⟩ := setSlot_left ht hg hs' hleft
    exact hold hs₀ hl
  | @answered k t v stage t' a x ht _ _ hg _ hx hw =>
    refine hnew hx rfl fun report hc => .inl (setSlot_left ht hg ?_ hleft)
    obtain ⟨waiting, closed, report', hp⟩ := hw.clears.resolve_right fun hno => hno report hc
    have hprogress : (h.setSlot k t').progress? v.call = some (.clearing waiting closed report') := by
      rw [progress?, call?, setSlot_calls, ← hp]
      exact congrArg (Option.map Call.progress) hx
    rwa [answered_registry _ _ hprogress] at hs'
  | begins hx =>
    refine hnew hx rfl fun report hc => .inl ?_
    rcases hc.eq with ⟨rfl, _⟩ | ⟨rfl, _⟩
    · exact shutdownAll_left hs' hleft
    · obtain ⟨s, hs₀, hl⟩ := shutdownAll_left (h := h.drained) hs' hleft
      exact ⟨s, by rwa [← drained_registry], hl⟩
  | dropped hx hp => exact hnew hx rfl fun _ _ => .inr (.inl (progress?_setProgress (interrupt_call? hx _ _) _))
  | crashed hx hp => exact hnew hx rfl fun _ hc => .inr (.inr (hs.crash_clears hx hp hc))

theorem run_quits (bounds : Bounds) (events : List Event) : ((Host.new bounds).run events).Quits :=
  run_chronicle bounds events (γ := Unit) (f := fun _ _ g => g) (P := fun h _ => h.Quits) (g := ())
    (fun i s c hs => by simp [Host.new, Registry.empty] at hs) fun _ _ _ _ hs hh hq => hh.quits hs hq

end Clears

section Run
variable {events : List Event}

/-- What a task is does not change, so that a run whose calls are all the lifecycle's has been so from its start. -/
theorem Exclusive.earlier (he : (h.run events).Exclusive) (hs : h.Settled False K) (hstaged : h.Staged) (c : CallId)
    (x : Call) (hx : h.call? c = some x) : x.task.OfLifecycle := by
  obtain ⟨x', hx', htask⟩ := (hs.since hstaged events).calls c x hx
  exact htask ▸ (he c x' hx').1

/-- As long as no editor is opened, nobody comes to be attached, and references come back as they did. -/
theorem Recedes.apply (hr : h.Recedes id) (hs : h.Settled False K) (hstaged : h.Staged)
    (htasks : ∀ c x, h.call? c = some x → x.task.OfLifecycle) {e : Event}
    (hopen : ∀ editor, h.begins? e ≠ some (.openEditor editor)) : (h.apply e).Recedes id := by
  have hh := hs.ordered.happens e
  have hdrained : (h.apply e).attachments = [] := hh.drained hr.drained htasks hopen
  rcases hr.course with hgone | ⟨c, x, hx, ht, hp⟩ | hu
  · obtain ⟨_, _, _, _, hw⟩ := hh.works hstaged
    exact ⟨hdrained, .inl (hgone.since (.of_works hw))⟩
  · exact ⟨hdrained, .inr (.inl ⟨c, x, (hh.leaves_be hstaged hx (.inr ⟨_, hp⟩)).1, ht, hp⟩)⟩
  · exact hu.apply hs.ordered htasks e hopen

theorem Recedes.run (hr : h.Recedes id) (hs : h.Settled False K) (hstaged : h.Staged)
    (hopen : h.Begins (fun t => ∀ editor, t ≠ .openEditor editor) events) (he : (h.run events).Exclusive) :
    (h.run events).Recedes id := by
  induction events generalizing h K with
  | nil => exact hr
  | cons e events ih =>
    have hno (editor : Editor) : h.begins? e ≠ some (.openEditor editor) := fun hb => hopen.1 _ hb editor rfl
    exact ih (hr.apply hs hstaged (he.earlier hs hstaged) hno) (hs.apply e False.elim)
      ((hs.ordered.happens e).staged hstaged) hopen.2 he

end Run

section Shutdown
variable {S : CallId} {after : List Event} (hs : h.Settled False K) (hstaged : h.Staged)
  (hx : h.call? S = some ⟨.shutdownLifecycle, .fresh⟩)
include hs hx

/-- A shutdown of the lifecycle begins. What is launched from now on comes back. -/
theorem Settled.shutdown_unwinds
    (hnew : ∀ s : Slot, h.registry.slots[id.slot]? = some s → s.tally.launches < id.generation) :
    (h.apply (.begin S)).Unwinds id := by
  rw [apply_begin hx]
  refine ⟨shutdownLifecycle_attachments h S, Repaid.shutdownLifecycle fun s hslot => ?_⟩
  have hnone : Tally.granted id s.turns = 0 := by
    by_contra hsome
    have hlaunched := (hs.ordered.sound.lives id.slot s hslot).counts.runs.granted_launched (Nat.pos_of_ne_zero hsome)
    exact absurd hlaunched.2 (Nat.not_le.2 (hnew s hslot))
  rw [Slot.Repays, hnone]
  exact Nat.zero_le _

include hstaged

/-- What had been launched when the lifecycle began to shut down is out of all hands when that is done. -/
theorem Settled.swept (hquits : (h.run (.begin S :: after)).Quits)
    (hdone : (h.run (.begin S :: after)).progress? S = some (.ended .done)) (hslot : h.registry.slots[id.slot]? = some s)
    (hid : id.generation ≤ s.tally.launches) : (h.run (.begin S :: after)).Gone id := by
  have hs₁ := hs.apply (.begin S) False.elim
  have hstaged₁ := (hs.ordered.happens (.begin S)).staged hstaged
  have ho := (hs₁.run after False.elim).ordered
  obtain ⟨y, hy, hp⟩ := Option.map_eq_some_iff.1 hdone
  -- The call has come to the gate.
  have hcome : (h.apply (.begin S)).registry.slots[id.slot]? = some (s.arrive h.drained.now ⟨S, .clear⟩).1 := by
    rw [apply_begin hx, Host.begin, shutdownLifecycle_eq, shutdownAll_slots, drained_registry, hslot]
    rfl
  obtain ⟨s', hslot', hgrows⟩ := (hs₁.since hstaged₁ after).slots _ _ hcome
  obtain ⟨newer, hlog⟩ : ∃ newer, s'.log = newer ++ .came ⟨S, .clear⟩ :: s.log := by
    obtain ⟨e, hlog⟩ := (s.arrive_goes h.drained.now ⟨S, .clear⟩).log
    obtain ⟨newer, hlog', _⟩ := hgrows.log
    exact ⟨_, (hlog'.trans (congrArg (newer ++ ·) hlog)).trans (List.append_assoc ..).symm⟩
  have hnumber : s'.number = s.number := hgrows.number.trans (s.arrive_goes _ _).number
  refine ⟨s', hslot', (ho.sound.lives _ s' hslot').cleared_gone hnumber hlog rfl (fun hv => ?_) (fun hleft => ?_) hid⟩
  · exact (ho.waits S y (by simp) hy _ s' hslot' _ hv rfl).under_way.2 _ hp
  · obtain ⟨z, hz, hgiven⟩ := hquits _ s' S hslot' hleft
    obtain rfl := Option.some.inj (hy.symm.trans hz)
    have htask : y.task = .shutdownLifecycle := by
      obtain ⟨y', hy', ht⟩ := ((hs.since hstaged (.begin S :: after)).calls S _ hx)
      obtain rfl := Option.some.inj (hy.symm.trans hy')
      exact ht
    rcases hgiven false (by rw [htask]; trivial) with he | he <;> cases hp.symm.trans he

end Shutdown

section Rest

theorem Over.nobody (hover : h.Over) (ho : h.Ordered none Q) (hs : h.registry.slots[i]? = some s) : s.visits = [] := by
  refine List.eq_nil_iff_forall_not_mem.2 fun v hv => ?_
  obtain ⟨x, hx⟩ := Option.isSome_iff_exists.1 (ho.known i s hs v hv)
  obtain ⟨hfresh, hended⟩ := (ho.waits v.call x (by simp) hx i s hs v hv rfl).under_way
  rcases hover v.call x hx with ⟨r, hp⟩ | ⟨hp, _⟩
  · exact hended r hp
  · exact hfresh hp

theorem Over.freshReleases_eq (hover : h.Over) (id : ConnectionId) : h.freshReleases none id = 0 := by
  refine List.countP_eq_zero.2 fun n _ => ?_
  rw [decide_eq_true_eq]
  rintro ⟨-, howed⟩
  obtain ⟨x, hx, howed⟩ := Option.bind_eq_some_iff.1 howed
  unfold Call.owed? at howed
  split at howed
  · rcases hover _ _ hx with ⟨_, hp⟩ | ⟨_, hno⟩
    · cases hp
    · exact hno _ rfl
  · cases howed

theorem Over.vacant (hover : h.Over) (ho : h.Ordered none Q) (hs : h.registry.slots[i]? = some s)
    (hids : ∀ id, h.Gone id ∨ h.Unwinds id) :
    s.work? = none ∧ s.Vacant ∧ s.current?.filter Connection.isLive = none := by
  have hl := ho.sound.lives i s hs
  have hidle := hover.nobody ho hs
  have hw : s.work? = none := by
    cases hh : s.holder with
    | none => simp [Slot.work?, hh]
    | some holder => simp [Slot.visits, hh] at hidle
  refine ⟨hw, (hl.valid.ready_or_vacant hw).resolve_left ?_⟩
  rintro ⟨j, d, hd⟩
  have hslot : h.registry.slots[s.number]? = some s := by rwa [ho.sound.numbers i s hs]
  refine hl.not_ready hidle ((hids ⟨s.number, j + 1⟩).imp ?_ fun hu => ?_) hd
  · rintro ⟨s', hs', hgone⟩
    obtain rfl := Option.some.inj (hslot.symm.trans hs')
    exact hgone
  · have hrepaid := hu.repaid s hslot
    rwa [hover.freshReleases_eq] at hrepaid

/-- A host at which nobody is attached, waits or holds an open session. -/
structure Rests (h : Host) : Prop where
  drained : h.attachments = []
  closed : ∀ σ y, h.session? σ = some y → y.closed = true
  idle : ∀ (i : Nat) (s : Slot), h.registry.slots[i]? = some s → s.visits = []
  calls : ∀ c x, h.call? c = some x → x.progress = .fresh ∨ ∃ r, x.progress = .ended r

/-- An event without an actor makes a call or a session, or changes nothing but the time and who is awake. -/
theorem apply_idle {e : Event} (ha : h.actor e = none) : (∃ t, e = .call t) ∨ (∃ id uri, e = .session id uri) ∨
    ∃ now woken, h.apply e = { h with now := now, woken := woken } := by
  have hstep (i : Nat) {step : Slot → Slot × Option Answer} (hfree : h.registry.slots[i]?.bind Slot.holder = none)
      (hidle : ∀ s : Slot, s.holder = none → step s = (s, none)) :
      ∃ now woken, h.stepSlot i step = { h with now := now, woken := woken } := by
    unfold stepSlot
    split
    · exact ⟨_, _, rfl⟩
    · rename_i s hs
      rw [hs, Option.bind_some] at hfree
      rw [hidle s hfree, hfree]
      obtain ⟨woken, he⟩ := setSlot_eq h i s
      rw [Registry.setSlot_self hs] at he
      exact ⟨_, woken, he⟩
  cases e with
  | call t => exact .inl ⟨t, rfl⟩
  | session id uri => exact .inr (.inl ⟨id, uri, rfl⟩)
  | begin | drop => cases ha
  | tick n => exact .inr (.inr ⟨_, _, rfl⟩)
  | enter i => exact .inr (.inr (hstep i (Option.map_eq_none_iff.1 ha) fun s hh => by simp [Slot.enter, hh]))
  | launched i outcome =>
    exact .inr (.inr (hstep i (Option.map_eq_none_iff.1 ha) fun s hh => by simp [Slot.launched, hh]))
  | stopped i => exact .inr (.inr (hstep i (Option.map_eq_none_iff.1 ha) fun s hh => by simp [Slot.stopped, hh]))
  | expire i =>
    refine .inr (.inr ?_)
    show ∃ now woken, h.expire i = _
    rcases h.expire_cases i with hsame | hlaunched | hstopped
    · exact ⟨_, _, hsame⟩
    · rw [hlaunched]
      exact hstep i (Option.map_eq_none_iff.1 ha) fun s hh => by simp [Slot.launched, hh]
    · rw [hstopped]
      exact hstep i (Option.map_eq_none_iff.1 ha) fun s hh => by simp [Slot.stopped, hh]
  | crash i =>
    refine .inr (.inr ⟨h.now, h.woken, ?_⟩)
    show h.crashIn i = h
    rw [crashIn, Option.map_eq_none_iff.1 ha]

/-- Nothing has changed but the time, the calls and who is awake, and no call is under way. -/
def Stays (h h' : Host) : Prop :=
  (∃ now calls woken, h' = { h with now := now, calls := calls, woken := woken }) ∧
    ∀ c x, h'.call? c = some x → x.progress = .fresh ∨ ∃ r, x.progress = .ended r

namespace Rests

theorem stays (hr : h.Rests) (hs : h.Stays h') : h'.Rests := by
  obtain ⟨⟨now, calls, woken, rfl⟩, hcalls⟩ := hs
  exact ⟨hr.drained, hr.closed, hr.idle, hcalls⟩

theorem no_holder (hr : h.Rests) (hs : h.registry.slots[i]? = some s) : s.holder = none := by
  have hidle := hr.idle i s hs
  cases hh : s.holder with
  | none => rfl
  | some holder => simp [Slot.visits, hh] at hidle

theorem finish (hr : h.Rests) (c : CallId) (r : Result) : h.Stays (h.finish c r) := by
  refine ⟨⟨_, _, _, rfl⟩, fun d y hy => ?_⟩
  rw [Host.finish, call?_setProgress] at hy
  split at hy
  · obtain ⟨_, _, rfl⟩ := Option.map_eq_some_iff.1 hy
    exact .inr ⟨r, rfl⟩
  · exact hr.calls d y hy

theorem drop (hr : h.Rests) (c : CallId) : h.Stays (h.drop c) := by
  have hsame : h.Stays h := ⟨⟨_, _, _, rfl⟩, hr.calls⟩
  cases hx : h.call? c with
  | none =>
    rw [Host.drop, progress?, hx]
    exact hsame
  | some x =>
    rcases hr.calls c x hx with hp | ⟨r, hp⟩
    · obtain ⟨slots, woken, he, hslots⟩ := abandonSlots_eq h c
      obtain rfl : slots = h.registry.slots := by
        refine List.ext_getElem? fun j => ?_
        rw [hslots]
        cases hs : h.registry.slots[j]? with
        | none => rfl
        | some s => rw [Option.map_some, Slot.abandon, hr.no_holder hs]
      have hinterrupt : h.interrupt c x.progress = { h with woken := woken } := by
        rw [Host.interrupt, he, hp]
        rfl
      rw [drop_eq hx (by simp [hp]), hinterrupt]
      have hawake : ({ h with woken := woken } : Host).Rests := ⟨hr.drained, hr.closed, hr.idle, hr.calls⟩
      obtain ⟨⟨now, calls, woken', hfinish⟩, hcalls⟩ := hawake.finish c .dropped
      exact ⟨⟨now, calls, woken', hfinish⟩, hcalls⟩
    · have hprogress : h.progress? c = some (.ended r) := by rw [progress?, hx, Option.map_some, hp]
      rw [Host.drop, hprogress]
      exact hsame

/-- Where everything rests, a close or the release of a session finds nothing to do. -/
theorem apply (hr : h.Rests) {e : Event} (hwraps : ∀ id uri, e ≠ .session id uri)
    (hbegins : ∀ t, h.begins? e = some t → (∃ e, t = .closeEditor e) ∨ ∃ σ, t = .releaseSession σ) :
    h.Stays (h.apply e) := by
  have hsame : h.Stays h := ⟨⟨_, _, _, rfl⟩, hr.calls⟩
  cases ha : h.actor e with
  | none =>
    rcases apply_idle ha with ⟨t, rfl⟩ | ⟨id, uri, rfl⟩ | ⟨now, woken, he⟩
    · obtain ⟨woken, he⟩ := spawn_eq h t
      refine ⟨⟨_, _, woken, he⟩, fun c x hx => ?_⟩
      change (h.spawn t).call? c = some x at hx
      rw [call?_spawn] at hx
      split at hx
      · obtain rfl := Option.some.inj hx
        exact .inl rfl
      · exact hr.calls c x hx
    · exact absurd rfl (hwraps id uri)
    · rw [he]
      exact ⟨⟨_, _, _, rfl⟩, hr.calls⟩
  | some c =>
    have hfree (i : Nat) : (h.registry.slots[i]?.bind Slot.holder).map (·.call) ≠ some c := by
      cases hs : h.registry.slots[i]? with
      | none => simp
      | some s =>
        simp [hr.no_holder hs]
    cases e with
    | call | session | tick => cases ha
    | enter i | launched i | stopped i | expire i | crash i => exact absurd ha (hfree i)
    | drop d => exact hr.drop d
    | begin d =>
      by_cases hfresh : ∃ t, h.call? d = some ⟨t, .fresh⟩
      · obtain ⟨t, hx⟩ := hfresh
        rw [apply_begin hx]
        rcases hbegins t (by rw [begins?, hx]) with ⟨e, rfl⟩ | ⟨σ, rfl⟩
        · have hnone : h.attachment? e = none := by rw [attachment?, hr.drained]; rfl
          rw [Host.begin, closeEditor, hnone]
          exact hr.finish d .done
        · have hrelease : h.beginRelease d σ = (h, none) := by
            unfold beginRelease
            split
            · rfl
            · rename_i y hy
              rw [if_pos (hr.closed σ y hy)]
          rw [Host.begin, releaseSession, hrelease]
          exact hr.finish d (.released false)
      · rw [apply_begun fun t hx => hfresh ⟨t, hx⟩]
        exact hsame

/-- However many closes and releases of sessions come, they change nothing. -/
theorem run (hr : h.Rests) {events : List Event} (hwraps : ∀ id uri, .session id uri ∉ events)
    (hbegins : h.Begins (fun t => (∃ e, t = .closeEditor e) ∨ ∃ σ, t = .releaseSession σ) events) :
    ∃ now calls woken, h.run events = { h with now := now, calls := calls, woken := woken } := by
  induction events generalizing h with
  | nil => exact ⟨_, _, _, rfl⟩
  | cons e events ih =>
    have hstays := hr.apply (fun id uri he => hwraps id uri (by simp [he])) hbegins.1
    obtain ⟨now, calls, woken, he⟩ := ih (hr.stays hstays) (fun id uri hm => hwraps id uri (by simp [hm])) hbegins.2
    obtain ⟨⟨_, _, _, hsame⟩, _⟩ := hstays
    refine ⟨now, calls, woken, ?_⟩
    show (h.apply e).run events = _
    rw [he, hsame]

end Rests

end Rest

section Main

theorem made_by_opens (h : Host) (g : Doings) (events : List Event) (hwraps : ∀ id uri, .session id uri ∉ events)
    (hmade : ∀ σ, (h.session? σ).isSome → (g.maker σ).isSome) (σ : SessionId)
    (hσ : ((h.run events).session? σ).isSome) : ((h.doingsOf g events).maker σ).isSome := by
  induction events generalizing h g with
  | nil => exact hmade σ hσ
  | cons e events ih =>
    refine ih _ _ (fun id uri hm => hwraps id uri (by simp [hm])) (fun τ hτ => ?_) hσ
    have hlt : τ.number < (h.apply e).sessions.length := (List.getElem?_eq_some_iff.1 (Option.eq_some_of_isSome hτ)).1
    show (madeBy h.sessions.length (h.apply e).sessions.length (h.actor e) g.maker τ).isSome
    unfold madeBy
    split
    · rename_i hnew
      cases ha : h.actor e with
      | some c => rfl
      | none =>
        have hsame : (h.apply e).sessions = h.sessions := by
          rcases apply_idle ha with ⟨t, rfl⟩ | ⟨id, uri, rfl⟩ | ⟨now, woken, he⟩
          · exact spawn_sessions ..
          · exact absurd List.mem_cons_self (hwraps id uri)
          · rw [he]
        rw [hsame] at hnew
        omega
    · rename_i hold
      have hlt' : τ.number < h.sessions.length := by omega
      exact hmade τ (by rw [session?, List.getElem?_eq_getElem hlt']; rfl)

/-- Nothing is left running, and nothing to be done. -/
structure TornDown (h : Host) : Prop where
  drained : h.attachments = []
  dead : h.registry.live = []
  /-- Every connection ever made is over, and nobody refers to it. -/
  ended : ∀ s ∈ h.registry.slots, ∀ d ∈ s.connections, (d.status = .failed ∨ d.status = .closed) ∧ d.refs = 0
  /-- Every server that was ever up has been told to stop, once. -/
  stopped : ∀ s ∈ h.registry.slots, ∀ d ∈ s.connections, d.stops = if .ready ∈ d.past then 1 else 0
  /-- Later closes and releases of sessions change nothing but the list of calls. -/
  still : ∀ events, (∀ id uri, .session id uri ∉ events) →
    h.Begins (fun t => (∃ e, t = .closeEditor e) ∨ ∃ σ, t = .releaseSession σ) events →
    ∃ now calls woken, h.run events = { h with now := now, calls := calls, woken := woken }

theorem Over.tornDown (hover : h.Over) (ho : h.Ordered none Q) (hdrained : h.attachments = [])
    (hclosed : ∀ σ y, h.session? σ = some y → y.closed = true) (hids : ∀ id, h.Gone id ∨ h.Unwinds id) :
    h.TornDown := by
  have hslot {s : Slot} (hs : s ∈ h.registry.slots) : s.Lives ∧ s.work? = none ∧ s.Vacant ∧
      s.current?.filter Connection.isLive = none := by
    obtain ⟨i, hi⟩ := List.mem_iff_getElem?.1 hs
    exact ⟨ho.sound.lives i s hi, hover.vacant ho hi hids⟩
  refine ⟨hdrained, List.filterMap_eq_nil_iff.2 fun s hs => (hslot hs).2.2.2, fun s hs d hd => ?_,
    fun s hs d hd => ?_, ?_⟩
  · obtain ⟨hl, hw, hvacant, _⟩ := hslot hs
    obtain ⟨j, hj⟩ := List.mem_iff_getElem?.1 hd
    have hstatus := Connection.failed_or_closed <| (hl.valid.table_outside hw).all_over
      (fun g c hcur hc => by simp [Connection.isLive, hvacant g c hcur hc, Status.isLive]) hj
    refine ⟨hstatus, (hl.valid.lawful hj).refs_eq_zero ?_⟩
    rcases hstatus with hp | hp <;> simp [Connection.isLive, hp, Status.isLive]
  · obtain ⟨j, hj⟩ := List.mem_iff_getElem?.1 hd
    exact ((hslot hs).1.valid.lawful hj).lived.stops
  · have hrests : h.Rests :=
      ⟨hdrained, hclosed, fun i s hi => hover.nobody ho hi, fun c x hx => (hover c x hx).symm.imp_left And.left⟩
    exact fun events hwraps hbegins => hrests.run hwraps hbegins

/-- The lifecycle is shut down at any moment of a run in which nobody else uses the registry, whatever opens, closes
and shutdowns are under way. When the shutdown has come to its end, no editor has been opened since it began, and
everything that was under way is over, then nothing is left running. -/
theorem teardown (bounds : Bounds) (before after : List Event) (S : CallId) :
    let h₀ := (Host.new bounds).run before
    let h := h₀.run (.begin S :: after)
    h.Exclusive → (∀ id uri, .session id uri ∉ before ++ after) →
    h₀.call? S = some ⟨.shutdownLifecycle, .fresh⟩ → h.progress? S = some (.ended .done) →
    (h₀.apply (.begin S)).Begins (fun t => ∀ editor, t ≠ .openEditor editor) after → h.Over → h.TornDown := by
  intro h₀ h hexclusive hwraps hx hdone hopen hover
  have hs : h₀.Settled False _ := (settled_new bounds).run before False.elim
  have hstaged : h₀.Staged := run_staged bounds before
  have hs₁ := hs.apply (.begin S) False.elim
  have hstaged₁ := (hs.ordered.happens (.begin S)).staged hstaged
  have hrun : h = (Host.new bounds).run (before ++ Event.begin S :: after) := (run_append (.new bounds) before _).symm
  have hrecedes (id : ConnectionId)
      (hnew : ∀ s : Slot, h₀.registry.slots[id.slot]? = some s → s.tally.launches < id.generation) : h.Recedes id :=
    (hs.shutdown_unwinds hx hnew).recedes.run hs₁ hstaged₁ hopen hexclusive
  have hdrained : h.attachments = [] := (hrecedes ⟨h₀.registry.slots.length, 0⟩ (by simp)).drained
  refine hover.tornDown (hs₁.run after False.elim).ordered hdrained (fun σ y hy => ?_) fun id => ?_
  · -- Every session was made by an open, and is closed as no editor is attached by it.
    have hf : h.Follows none none _ := hrun ▸ run_follows bounds (before ++ Event.begin S :: after)
    have hmade := made_by_opens (.new bounds) ⟨fun _ => none, fun _ => none⟩ (before ++ Event.begin S :: after)
      (fun id uri hm => hwraps id uri (by simpa using hm)) (fun σ hσ => by simp [Host.new, session?] at hσ) σ
      (by rw [← hrun, hy]; rfl)
    obtain ⟨c, hc⟩ := Option.isSome_iff_exists.1 hmade
    obtain ⟨⟨e, _, hplace⟩, _⟩ := hf.made σ c hc
    obtain ⟨y', hy', hclosed⟩ := (hplace (by simp)).resolve_left (by simp [attachment?, hdrained])
    obtain rfl := Option.some.inj (hy.symm.trans hy')
    exact hclosed
  · by_cases hold : ∃ s : Slot, h₀.registry.slots[id.slot]? = some s ∧ id.generation ≤ s.tally.launches
    · obtain ⟨s, hslot, hid⟩ := hold
      refine .inl (hs.swept hstaged hx ?_ hdone hslot hid)
      rw [← run_append]
      exact run_quits bounds _
    · refine (hrecedes id fun s hslot => ?_).course.imp_right fun hcourse => hcourse.resolve_left ?_
      · exact Nat.lt_of_not_le fun hle => hold ⟨s, hslot, hle⟩
      · rintro ⟨c, x, hx, ht, hp⟩
        exact (hexclusive c x hx).2 id ht hp

def editorIn (n : Nat) (p : String) : Editor :=
  ⟨⟨n⟩, .value "file:///a.rs", .value ⟨p⟩, .value ⟨⟨p⟩⟩, .value ⟨"rust", ["rs"], .new "ra", List.nodup_singleton _⟩,
    .missing⟩

/-- An editor is attached, and opened again in a project for which a server is being launched for another editor. It
gives its first server back, and waits for that, when the lifecycle is to shut down. -/
def openedAgain : List Event :=
  [.call (.openEditor (editorIn 0 "/p")), .begin ⟨0⟩, .launched 0 (.ok ⟨none, none⟩),
    .call (.openEditor (editorIn 1 "/q")), .begin ⟨1⟩, .call (.openEditor (editorIn 0 "/q")), .begin ⟨2⟩,
    .call .shutdownLifecycle]

/-- The first editor comes to the gate of its new server behind the shutdown, and has another one launched. -/
def launchedBehind : List Event :=
  [.stopped 0, .launched 1 (.ok ⟨none, none⟩), .enter 1, .stopped 1, .enter 0, .enter 1,
    .launched 1 (.ok ⟨none, none⟩), .enter 1, .enter 1, .stopped 1]

def isDone : Call → Bool
  | ⟨.openEditor _, .ended .done⟩ | ⟨.shutdownLifecycle, .ended .done⟩ => true
  | _ => false

theorem isDone_iff (x : Call) : isDone x = true ↔
    ((∃ editor, x.task = .openEditor editor) ∨ x.task = .shutdownLifecycle) ∧ x.progress = .ended .done := by
  obtain ⟨task, progress⟩ := x
  unfold isDone
  split <;> simp_all
  rintro (⟨_, ht⟩ | ht) <;> simp_all

theorem torn_down_behind :
    let h := ((Host.new default).run openedAgain).run (.begin ⟨3⟩ :: launchedBehind)
    h.TornDown ∧ h.registry.launches = [⟨0, 1⟩, ⟨1, 1⟩, ⟨1, 2⟩] := by
  intro h
  have hdone : h.calls.all isDone = true := by decide
  have hcall (c : CallId) (x : Call) (hx : h.call? c = some x) :=
    (isDone_iff x).1 (List.all_eq_true.1 hdone x (List.mem_of_getElem? hx))
  refine ⟨teardown default openedAgain launchedBehind ⟨3⟩ (fun c x hx => ?_) ?_ rfl ?_ ?_ fun c x hx => ?_, by decide⟩
  · obtain ⟨⟨editor, ht⟩ | ht, _⟩ := hcall c x hx <;> rw [ht] <;> exact ⟨trivial, by simp⟩
  · simp [openedAgain, launchedBehind]
  · have hthere : (h.call? ⟨3⟩).isSome = true := by decide
    obtain ⟨x, hx⟩ := Option.isSome_iff_exists.1 hthere
    rw [progress?, hx, Option.map_some, (hcall _ x hx).2]
  · exact begins_nothing (by simp [launchedBehind]) _
  · exact .inl ⟨_, (hcall c x hx).2⟩

end Main

end LanguageHost.Host
