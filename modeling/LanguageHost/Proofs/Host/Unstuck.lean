import LanguageHost.Proofs.Host.Standing
import LanguageHost.Proofs.Host.Teardown

/-! A call that has not ended can go on, or waits for a clock that is running: no calls wait for each other. -/
namespace LanguageHost

/-- What goes on without anything from outside: a call that was made begins, the call that a gate was handed to goes on,
and work whose bound has run out is over. -/
def Event.IsStep : Event → Prop
  | .begin _ | .enter _ | .expire _ => True
  | _ => False

namespace Slot
variable {s : Slot} {v : Visit} {now : Nat}

theorem Serves.works {r : Slot × Option Answer} (hr : s.Serves now v r) (hnone : r.2 = none) :
    ∃ w, r.1.work? = some (v, w) := by
  cases hr with
  | launch | last | close => exact ⟨_, rfl⟩
  | share | refuse | ignore | drop | forget => cases hnone

theorem deadline?_of_work {w : Work} (hw : s.work? = some (v, w)) (launchBound stopBound : Nat) :
    ∃ d, s.deadline? launchBound stopBound = some d := by
  cases w with
  | launch =>
    obtain ⟨since, hh⟩ := holder_of_launch hw
    exact ⟨_, by rw [deadline?, hh]⟩
  | stop g answer =>
    obtain ⟨since, hh⟩ := holder_of_stop hw
    exact ⟨_, by rw [deadline?, hh]⟩

/-- A gate is held by a call that it was handed to, or for a launch or a shutdown. -/
theorem granted_or_work {x : Holder} (hh : s.holder = some x) :
    (∃ v, s.holder = some ⟨v, .granted⟩) ∨ ∃ v w, s.work? = some (v, w) := by
  obtain ⟨v, stage⟩ := x
  cases stage with
  | granted => exact .inl ⟨v, hh⟩
  | launching => exact .inr ⟨v, .launch, by rw [work?, hh]⟩
  | stopping g answer => exact .inr ⟨v, .stop g answer, by rw [work?, hh]⟩

theorem work_of_deadline {launchBound stopBound d : Nat} (hd : s.deadline? launchBound stopBound = some d) :
    ∃ v w, s.work? = some (v, w) := by
  unfold deadline? at hd
  split at hd
  · rename_i hh
    exact ⟨_, .launch, by rw [work?, hh]⟩
  · rename_i hh
    exact ⟨_, .stop _ _, by rw [work?, hh]⟩
  · cases hd

end Slot

namespace Host

def CanStep (h : Host) (e : Event) : Prop := e.IsStep ∧ h.apply e ≠ h

/-- A connection that is named to the host is one that its registry has made. -/
def Draws (h : Host) : Event → Prop
  | .call (.releaseConnection id) | .session id _ => (h.registry.byId? id).isSome
  | _ => True

/-- The connections named in a run are ones that the registry had made. -/
def Drawn (h : Host) : List Event → Prop
  | [] => True
  | e :: events => h.Draws e ∧ (h.apply e).Drawn events

/-- In the slot at the position, which was `s`, the turn of the call has since come to its end with an answer. -/
def Concludes (h : Host) (i : Nat) (s : Slot) (v : Visit) : Prop :=
  ∃ s' newer e a, h.registry.slots[i]? = some s' ∧ s'.log = newer ++ .turn ⟨v, e, some a⟩ :: s.log

/-- Whoever holds a gate holds it for a launch or a shutdown that is bounded, and when the first of the bounds has run
out somebody goes on. -/
structure AwaitsClock (h : Host) : Prop where
  timed (i : Nat) (s : Slot) (hs : h.registry.slots[i]? = some s) (hh : s.holder ≠ none) :
    ∃ d, h.deadline? s = some d ∧ h.now < d
  next : ∃ (i : Nat) (s : Slot) (d : Nat), h.registry.slots[i]? = some s ∧ h.deadline? s = some d ∧
    (∀ (j : Nat) (t : Slot) (d' : Nat), h.registry.slots[j]? = some t → h.deadline? t = some d' → d ≤ d') ∧
    (h.apply (.tick (d - h.now))).CanStep (.expire i)

structure Unstuck (h : Host) : Prop where
  /-- A call that is under way stands at the gates that it waits for, at one at least. -/
  stands : h.AllStationed
  held (i : Nat) (s : Slot) (hs : h.registry.slots[i]? = some s) (hv : s.visits ≠ []) : s.holder ≠ none
  /-- Whoever was handed a gate can go on, whatever the other gates are held for: it is then done here, or has begun a
  launch or a shutdown. -/
  granted (i : Nat) (s : Slot) (v : Visit) (hs : h.registry.slots[i]? = some s) (hh : s.holder = some ⟨v, .granted⟩) :
    (h.apply (.enter i)).Concludes i s v ∨
      ∃ s' w, (h.apply (.enter i)).registry.slots[i]? = some s' ∧ s'.work? = some (v, w)
  /-- Whoever holds a gate for a launch or a shutdown is done here when that is over or its bound has run out, whatever
  the other gates are held for. -/
  inside (i : Nat) (s : Slot) (v : Visit) (w : Work) (hs : h.registry.slots[i]? = some s)
    (hw : s.work? = some (v, w)) :
    (w = .launch → ∀ outcome, (h.apply (.launched i outcome)).Concludes i s v) ∧
    (w ≠ .launch → (h.apply (.stopped i)).Concludes i s v) ∧
    ∃ d, h.deadline? s = some d ∧ (d ≤ h.now → (h.apply (.expire i)).Concludes i s v)
  /-- A call that is made now gets at the attachments and the table of slots at once: it begins, and ends or goes to
  stand at gates. -/
  begins (task : Task) (ht : h.Draws (.call task)) :
    ∃ x, ((h.apply (.call task)).apply (.begin ⟨h.calls.length⟩)).call? ⟨h.calls.length⟩ = some x ∧
      x.progress ≠ .fresh ∧
      ((h.apply (.call task)).apply (.begin ⟨h.calls.length⟩)).Stationed ⟨h.calls.length⟩ x.progress
  /-- While a call has not ended somebody can go on now, or when the clock has come to the next bound. -/
  goes (hx : ∃ c x, h.call? c = some x ∧ ∀ r, x.progress ≠ .ended r) : (∃ e, h.CanStep e) ∨ h.AwaitsClock

/-- Calls are where they are said to be, and stand there. -/
structure Upright (h : Host) : Prop where
  ordered : h.Ordered none Nowhere
  staged : h.Staged
  rooted : h.Rooted
  stand : h.AllStationed

variable {h : Host} {c : CallId} {i : Nat} {s : Slot} {v : Visit} {w : Work} {task : Task}

theorem stepSlot_answered (hs : h.registry.slots[i]? = some s) {stage : Stage} (hh : s.holder = some ⟨v, stage⟩)
    {step : Slot → Slot × Option Answer} {a : Answer} (ha : (step s).2 = some a) :
    h.stepSlot i step = (h.setSlot i (step s).1).answered v.call i a := by
  unfold stepSlot settle
  rw [hs]
  dsimp only
  rw [hh, ha]
  rfl

theorem stepSlot_waits (hs : h.registry.slots[i]? = some s) {step : Slot → Slot × Option Answer}
    (ha : (step s).2 = none) : h.stepSlot i step = h.setSlot i (step s).1 := by
  unfold stepSlot settle
  rw [hs]
  dsimp only
  rw [ha]
  cases s.holder <;> rfl

namespace Upright

theorem new (bounds : Bounds) : (Host.new bounds).Upright := by
  have ho : (Host.new bounds).Ordered none Nowhere := ((settled_new bounds).run [] False.elim).ordered
  refine ⟨ho, staged_new bounds, ho.rooted (fun σ id hσ => ?_) (fun c x id hx => ?_), fun c x hx => ?_⟩
  · simp [Host.new, connectionOf?, session?] at hσ
  · simp [Host.new, call?] at hx
  · simp [Host.new, call?] at hx

variable (hu : h.Upright)
include hu

theorem apply {e : Event} (he : h.Draws e) : (h.apply e).Upright := by
  have hh := hu.ordered.happens e
  have hthere {id : ConnectionId} (hid : (h.registry.byId? id).isSome) : id.slot < h.registry.slots.length := by
    obtain ⟨d, hd⟩ := Option.isSome_iff_exists.1 hid
    obtain ⟨t, ht, -⟩ := Option.bind_eq_some_iff.1 hd
    exact (List.getElem?_eq_some_iff.1 ht).1
  refine ⟨(Settled.apply (K := fun _ => none) ⟨hu.ordered, False.elim⟩ e False.elim).ordered,
    hh.staged hu.staged, ?_, hh.allStationed hu.ordered hu.staged hu.rooted hu.stand⟩
  cases hactor : h.actor e with
  | some c =>
    rw [hactor] at hh
    exact (hh.stationed hu.ordered hu.rooted hu.stand).1
  | none =>
    obtain ⟨task, rfl⟩ | ⟨id, uri, rfl⟩ | ⟨now, woken, he⟩ := apply_idle hactor
    · refine hu.rooted.spawn fun id hid => ?_
      subst hid
      exact hthere he
    · exact hu.rooted.addSession (hthere he) uri
    · rw [he]
      exact hu.rooted.frame rfl rfl rfl

theorem run {events : List Event} (he : h.Drawn events) : (h.run events).Upright := by
  induction events generalizing h with
  | nil => exact hu
  | cons e events ih => exact ih (hu.apply he.1) he.2

theorem begin_leaves (hx : h.call? c = some ⟨task, .fresh⟩) : h.apply (.begin c) ≠ h := by
  intro heq
  have hlanded := hu.rooted.begin hx
  rw [← apply_begin hx, heq] at hlanded
  exact (hlanded.stands .fresh (by rw [progress?, hx]; rfl)).1 rfl

theorem stepSlot_concludes (hs : h.registry.slots[i]? = some s) {stage : Stage} (hh : s.holder = some ⟨v, stage⟩)
    {step : Slot → Slot × Option Answer} (hgoes : s.Goes v (step s)) {a : Answer} (ha : (step s).2 = some a) :
    (h.stepSlot i step).Concludes i s v := by
  have hmem : v ∈ s.visits := by simp [Slot.visits, hh]
  obtain ⟨x, hx⟩ := Option.isSome_iff_exists.1 (hu.ordered.known i s hs v hmem)
  have hx₁ : (h.setSlot i (step s).1).call? v.call = some x := by
    rw [call?, setSlot_calls]
    exact hx
  have hreaches : ∀ p, (h.setSlot i (step s).1).progress? v.call = some p → x.task.Reaches p := by
    intro p hp
    rw [progress?, hx₁] at hp
    rw [← Option.some.inj hp]
    exact hu.staged v.call x hx
  obtain ⟨s', hs', hgrows, -⟩ := (Works.refl.answers hreaches i a).slot (setSlot_slot hs (step s).1)
  obtain ⟨newer, hnewer, -⟩ := hgrows.log
  obtain ⟨e, hlog⟩ := hgoes.log
  rw [stepSlot_answered hs hh ha]
  refine ⟨s', newer, e, a, hs', ?_⟩
  rw [hnewer, hlog, ha]
  rfl

theorem enter (hs : h.registry.slots[i]? = some s) (hh : s.holder = some ⟨v, .granted⟩) :
    (h.apply (.enter i)).Concludes i s v ∨
      ∃ s' w, (h.apply (.enter i)).registry.slots[i]? = some s' ∧ s'.work? = some (v, w) := by
  cases hout : (s.enter h.now).2 with
  | some a => exact .inl (hu.stepSlot_concludes hs hh (Slot.enter_goes hh h.now) hout)
  | none =>
    have hserves := (hu.ordered.sound.lives i s hs).valid.enter_serves hh h.now
    obtain ⟨w, hw⟩ := hserves.works hout
    rw [show h.apply (.enter i) = h.setSlot i (s.enter h.now).1 from stepSlot_waits hs hout]
    exact .inr ⟨_, w, setSlot_slot hs _, hw⟩

theorem launched (hs : h.registry.slots[i]? = some s) (hw : s.work? = some (v, .launch))
    (outcome : Except Error Process) : (h.stepSlot i fun s => s.launched outcome).Concludes i s v := by
  obtain ⟨since, hh⟩ := Slot.holder_of_launch hw
  obtain ⟨a, ha⟩ : ∃ a, (s.launched outcome).2 = some a := by
    cases outcome <;> exact ⟨_, by simp [Slot.launched, hh]; rfl⟩
  exact hu.stepSlot_concludes hs hh (Slot.launched_goes hh outcome) ha

theorem stopped {g : Nat} {answer : Answer} (hs : h.registry.slots[i]? = some s)
    (hw : s.work? = some (v, .stop g answer)) : (h.stepSlot i Slot.stopped).Concludes i s v := by
  obtain ⟨since, hh⟩ := Slot.holder_of_stop hw
  have ha : s.stopped.2 = some answer := by simp [Slot.stopped, hh]
  exact hu.stepSlot_concludes hs hh (Slot.stopped_goes hh) ha

theorem expire (hs : h.registry.slots[i]? = some s) (hw : s.work? = some (v, w)) (hdue : h.isDue s = true) :
    (h.apply (.expire i)).Concludes i s v := by
  show (h.expire i).Concludes i s v
  rw [Host.expire, hs]
  dsimp only
  rw [if_pos hdue]
  cases w with
  | launch =>
    obtain ⟨since, hh⟩ := Slot.holder_of_launch hw
    rw [hh]
    exact hu.launched hs hw h.launchTimeout
  | stop g answer =>
    obtain ⟨since, hh⟩ := Slot.holder_of_stop hw
    rw [hh]
    exact hu.stopped hs hw

end Upright

theorem Concludes.ne {h' : Host} (hc : h'.Concludes i s v) (hs : h.registry.slots[i]? = some s) : h' ≠ h := by
  rintro rfl
  obtain ⟨s', newer, e, a, hs', hlog⟩ := hc
  obtain rfl := Option.some.inj (hs.symm.trans hs')
  have hlength := congrArg List.length hlog
  rw [List.length_append, List.length_cons] at hlength
  omega

namespace Upright
variable (hu : h.Upright)
include hu

theorem canStep_begin (hx : h.call? c = some ⟨task, .fresh⟩) : h.CanStep (.begin c) := ⟨trivial, hu.begin_leaves hx⟩

theorem canStep_enter (hs : h.registry.slots[i]? = some s) (hh : s.holder = some ⟨v, .granted⟩) :
    h.CanStep (.enter i) := by
  refine ⟨trivial, ?_⟩
  rcases hu.enter hs hh with hc | ⟨s', w, hs', hw⟩
  · exact hc.ne hs
  · intro heq
    rw [heq, hs] at hs'
    obtain rfl := Option.some.inj hs'
    rw [Slot.Valid.work?_granted hh] at hw
    cases hw

theorem canStep_expire (hs : h.registry.slots[i]? = some s) (hdue : h.isDue s = true) : h.CanStep (.expire i) := by
  cases hd : h.deadline? s with
  | none => simp [isDue, hd] at hdue
  | some d =>
    obtain ⟨v, w, hw⟩ := Slot.work_of_deadline hd
    exact ⟨trivial, (hu.expire hs hw hdue).ne hs⟩

/-- Where no gate was handed over and no bound has run out, the first bound to run out lets somebody go on. -/
theorem awaitsClock (hs : h.registry.slots[i]? = some s) (hh : s.holder ≠ none)
    (hgranted : ∀ (j : Nat) (t : Slot) (v : Visit), h.registry.slots[j]? = some t → t.holder ≠ some ⟨v, .granted⟩)
    (hdue : ∀ (j : Nat) (t : Slot), h.registry.slots[j]? = some t → h.isDue t = false) : h.AwaitsClock := by
  have htimed (j : Nat) (t : Slot) (ht : h.registry.slots[j]? = some t) (hh : t.holder ≠ none) :
      ∃ d, h.deadline? t = some d ∧ h.now < d := by
    obtain ⟨x, hx⟩ := Option.ne_none_iff_exists'.1 hh
    rcases Slot.granted_or_work hx with ⟨v, hv⟩ | ⟨v, w, hw⟩
    · exact absurd hv (hgranted j t v ht)
    · obtain ⟨d, hd⟩ := Slot.deadline?_of_work hw h.bounds.launch.nanos h.bounds.shutdown.nanos
      refine ⟨d, hd, Nat.lt_of_not_le fun hle => ?_⟩
      have hnot := hdue j t ht
      rw [isDue, show h.deadline? t = some d from hd] at hnot
      exact of_decide_eq_false hnot hle
  refine ⟨htimed, ?_⟩
  classical
  have hex : ∃ d, ∃ (j : Nat) (t : Slot), h.registry.slots[j]? = some t ∧ h.deadline? t = some d := by
    obtain ⟨d, hd, -⟩ := htimed i s hs hh
    exact ⟨d, i, s, hs, hd⟩
  obtain ⟨j, t, ht, hd⟩ := Nat.find_spec hex
  refine ⟨j, t, Nat.find hex, ht, hd, fun j' t' d' ht' hd' => Nat.find_min' hex ⟨j', t', ht', hd'⟩, ?_⟩
  refine canStep_expire (hu.apply (e := .tick (Nat.find hex - h.now)) trivial) ht ?_
  show (h.deadline? t).any (· ≤ h.now + (Nat.find hex - h.now)) = true
  rw [hd]
  exact decide_eq_true (by omega)

theorem held (hs : h.registry.slots[i]? = some s) (hv : s.visits ≠ []) : s.holder ≠ none := by
  intro hh
  have hqueue := (hu.ordered.sound.lives i s hs).valid.idle hh
  exact hv (by simp [Slot.visits, hh, hqueue])

theorem goes (hx : ∃ c x, h.call? c = some x ∧ ∀ r, x.progress ≠ .ended r) : (∃ e, h.CanStep e) ∨ h.AwaitsClock := by
  obtain ⟨c, ⟨task, p⟩, hx, hp⟩ := hx
  by_cases hfresh : p = .fresh
  · subst hfresh
    exact .inl ⟨_, hu.canStep_begin hx⟩
  · -- The call stands at some gate, and that is held.
    obtain ⟨i, s, hs, v, hv, -⟩ : ∃ i, h.At c i := by
      have hstation := hu.stand c _ hx
      cases p with
      | fresh => exact absurd rfl hfresh
      | ended r => exact absurd rfl (hp r)
      | clearing waiting =>
        obtain ⟨hne, hat⟩ := hstation
        obtain ⟨i, hi⟩ := List.exists_mem_of_ne_nil _ hne
        exact ⟨i, hat i hi⟩
      | acquiring | releasing | releasingSession | reopening | opening | discarding | closing => exact hstation
    have hheld := hu.held hs (List.ne_nil_of_mem hv)
    by_cases hgranted :
        ∃ (j : Nat) (t : Slot) (v : Visit), h.registry.slots[j]? = some t ∧ t.holder = some ⟨v, .granted⟩
    · obtain ⟨j, t, v, ht, hh⟩ := hgranted
      exact .inl ⟨_, hu.canStep_enter ht hh⟩
    · by_cases hdue : ∃ (j : Nat) (t : Slot), h.registry.slots[j]? = some t ∧ h.isDue t = true
      · obtain ⟨j, t, ht, hd⟩ := hdue
        exact .inl ⟨_, hu.canStep_expire ht hd⟩
      · push Not at hgranted hdue
        exact .inr (hu.awaitsClock hs hheld hgranted fun j t ht => by simpa using hdue j t ht)

theorem unstuck : h.Unstuck := by
  refine ⟨hu.stand, fun i s hs hv => hu.held hs hv, fun i s v hs hh => hu.enter hs hh, fun i s v w hs hw => ?_, ?_,
    hu.goes⟩
  · refine ⟨fun he outcome => ?_, fun hne => ?_, ?_⟩
    · subst he
      exact hu.launched hs hw outcome
    · cases w with
      | launch => exact absurd rfl hne
      | stop g answer => exact hu.stopped hs hw
    · obtain ⟨d, hd⟩ := Slot.deadline?_of_work hw h.bounds.launch.nanos h.bounds.shutdown.nanos
      refine ⟨d, hd, fun hle => hu.expire hs hw ?_⟩
      rw [isDue, show h.deadline? s = some d from hd]
      exact decide_eq_true hle
  · intro task ht
    have hmade := hu.apply ht
    have hx : (h.apply (.call task)).call? ⟨h.calls.length⟩ = some ⟨task, .fresh⟩ := by
      show (h.spawn task).call? _ = _
      rw [call?_spawn, if_pos rfl]
    obtain ⟨x, hx', -⟩ := (Works.refl.begin (t := task)).call hx
    have hlanded := hmade.rooted.begin hx
    rw [apply_begin hx]
    exact ⟨x, hx', hlanded.stands x.progress (by rw [progress?, hx']; rfl)⟩

end Upright

/-- No call is ever stuck, in whatever way opens, closes, shutdowns, acquires and releases overlap and are given up,
and whatever launches and shutdowns of processes hang. -/
theorem never_stuck (bounds : Bounds) (events : List Event) (hdrawn : (Host.new bounds).Drawn events) :
    ((Host.new bounds).run events).Unstuck := ((Upright.new bounds).run hdrawn).unstuck

/-- A server that is shut down hangs, and a launch for another project hangs. An editor of the first is opened in the
second and given up while its session goes back, and two shutdowns clear both keys. -/
def entangled : List Event :=
  [.call (.openEditor (editorIn 0 "/p")), .begin ⟨0⟩, .launched 0 (.ok ⟨none, none⟩), .session ⟨0, 1⟩ "file:///b.rs",
    .call (.openEditor (editorIn 1 "/q")), .begin ⟨1⟩, .call (.releaseConnection ⟨0, 1⟩), .begin ⟨2⟩,
    .call (.openEditor (editorIn 0 "/q")), .begin ⟨3⟩, .call .shutdownAll, .begin ⟨4⟩, .call .shutdownLifecycle,
    .begin ⟨5⟩, .drop ⟨3⟩, .begin ⟨6⟩]

theorem entangled_unstuck :
    let h := (Host.new default).run entangled
    (Host.new default).Drawn entangled ∧ h.Unstuck ∧
      h.registry.slots.map (fun s => s.visits.map Visit.call) = [[⟨2⟩, ⟨4⟩, ⟨5⟩, ⟨6⟩], [⟨1⟩, ⟨4⟩, ⟨5⟩]] := by
  intro h
  have hdrawn : (Host.new default).Drawn entangled := by
    simp only [entangled, Drawn, Draws, and_true, true_and]
    decide
  exact ⟨hdrawn, never_stuck default entangled hdrawn, by decide⟩

end Host
end LanguageHost
