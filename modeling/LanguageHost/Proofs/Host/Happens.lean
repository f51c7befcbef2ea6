import LanguageHost.Proofs.Host.Runs
import LanguageHost.Proofs.Host.Works

/-! What can happen to a host whose calls are where they say: every event is one of a few. -/
namespace LanguageHost.Host

/-- The call that goes on, or is given up, in an event. -/
def actor (h : Host) : Event → Option CallId
  | .begin c | .drop c => some c
  | .enter i | .launched i _ | .stopped i | .expire i | .crash i =>
    (h.registry.slots[i]?.bind Slot.holder).map (·.call)
  | .call _ | .session _ _ | .tick _ => none

/-- The task that a call begins with in an event. -/
def begins? (h : Host) : Event → Option Task
  | .begin c =>
    match h.call? c with
    | some ⟨task, .fresh⟩ => some task
    | _ => none
  | _ => none

/-- The call waits inside a slot, for the launch or the shutdown that it has begun there. -/
def Inside (h : Host) (c : CallId) : Prop :=
  ∃ (i : Nat) (s : Slot) (v : Visit) (w : Work), h.registry.slots[i]? = some s ∧ s.work? = some (v, w) ∧ v.call = c

/-- What comes of an event, by its actor and what that begins with. -/
inductive Happens (h : Host) : Option CallId → Option Task → Host → Prop
  | calm {actor} (now : Nat) (woken : List CallId) : Happens h actor none { h with now := now, woken := woken }
  | made (task : Task) : Happens h none none (h.spawn task)
  | wrapped (id : ConnectionId) (uri : String) : Happens h none none (h.addSession id uri).1
  | begins {c task} (hx : h.call? c = some ⟨task, .fresh⟩) : Happens h (some c) (some task) (h.begin c task)
  | waits {i s v stage s' x} (hs : h.registry.slots[i]? = some s) (hl : s.Lives) (hh : s.holder = some ⟨v, stage⟩)
    (hg : s.Goes v (s', none)) (hm : s' = s ∨ s.Step v.call s') (hx : h.call? v.call = some x)
    (hw : h.Waits x i v.request) : Happens h (some v.call) none (h.setSlot i s')
  | answered {i s v stage s' a x} (hs : h.registry.slots[i]? = some s) (hl : s.Lives) (hh : s.holder = some ⟨v, stage⟩)
    (hg : s.Goes v (s', some a)) (hm : s' = s ∨ s.Step v.call s') (hx : h.call? v.call = some x)
    (hw : h.Waits x i v.request) : Happens h (some v.call) none ((h.setSlot i s').answered v.call i a)
  | dropped {c x} (hx : h.call? c = some x) (hp : ∀ r, x.progress ≠ .ended r) :
    Happens h (some c) none ((h.interrupt c x.progress).finish c .dropped)
  | crashed {c x} (hx : h.call? c = some x) (hp : ∀ r, x.progress ≠ .ended r) (hin : h.Inside c) :
    Happens h (some c) none (h.crash c)

variable {h h' : Host} {Q : Nat → Request → Prop} {actor : Option CallId} {task : Option Task}

private theorem happens_stay {i : Nat} {s : Slot} (hs : h.registry.slots[i]? = some s) (actor : Option CallId) :
    h.Happens actor none (h.setSlot i s) := by
  obtain ⟨woken, he⟩ := setSlot_eq h i s
  rw [he, Registry.setSlot_self hs]
  exact .calm h.now woken

namespace Ordered

theorem stepSlot_happens (ho : h.Ordered none Q) (i : Nat) {step : Slot → Slot × Option Answer}
    (hidle : ∀ s : Slot, s.holder = none → step s = (s, none))
    (hgoes : ∀ (s : Slot) v stage, s.holder = some ⟨v, stage⟩ → s.Goes v (step s))
    (hstep : ∀ (s : Slot) v stage, s.Lives → s.holder = some ⟨v, stage⟩ →
      (step s).1 = s ∨ s.Step v.call (step s).1) :
    h.Happens ((h.registry.slots[i]?.bind Slot.holder).map (·.call)) none (h.stepSlot i step) := by
  unfold Host.stepSlot
  cases hs : h.registry.slots[i]? with
  | none => exact .calm h.now h.woken
  | some s =>
    dsimp only [Option.bind_some]
    cases hh : s.holder with
    | none =>
      rw [hidle s hh]
      exact happens_stay hs none
    | some holder =>
      obtain ⟨v, stage⟩ := holder
      have hg := hgoes s v stage hh
      have hl := ho.sound.lives i s hs
      have hm := hstep s v stage hl hh
      have hv : v ∈ s.visits := by simp [Slot.visits, hh]
      obtain ⟨x, hx⟩ := Option.isSome_iff_exists.1 (ho.known i s hs v hv)
      have hw := ho.waits v.call x (by simp) hx i s hs v hv rfl
      generalize step s = out at hg hm
      obtain ⟨s', ans⟩ := out
      cases ans with
      | none => exact .waits hs hl hh hg hm hx hw
      | some a => exact .answered hs hl hh hg hm hx hw

theorem launched_happens (ho : h.Ordered none Q) (i : Nat) (outcome : Except Error Process) :
    h.Happens ((h.registry.slots[i]?.bind Slot.holder).map (·.call)) none
      (h.stepSlot i fun s => s.launched outcome) :=
  ho.stepSlot_happens i (fun s hh => by simp [Slot.launched, hh]) (fun s v stage hh => Slot.launched_goes hh outcome)
    fun s v stage _ hh => Slot.Lives.launched_step hh outcome

theorem stopped_happens (ho : h.Ordered none Q) (i : Nat) :
    h.Happens ((h.registry.slots[i]?.bind Slot.holder).map (·.call)) none (h.stepSlot i Slot.stopped) :=
  ho.stepSlot_happens i (fun s hh => by simp [Slot.stopped, hh]) (fun s v stage hh => Slot.stopped_goes hh)
    fun s v stage _ hh => Slot.Lives.stopped_step hh

theorem drop_happens (c : CallId) : h.Happens (some c) none (h.drop c) := by
  unfold Host.drop
  cases hx : h.call? c with
  | none =>
    simp only [progress?, hx, Option.map_none]
    exact .calm h.now h.woken
  | some x =>
    simp only [progress?, hx, Option.map_some]
    cases hp : x.progress with
    | ended => exact .calm h.now h.woken
    | fresh | acquiring | releasing | releasingSession | clearing | reopening | opening | discarding | closing =>
      have hd := Happens.dropped hx (by simp [hp])
      rwa [hp] at hd

theorem crash_happens {c : CallId} (hin : h.Inside c) : h.Happens (some c) none (h.crash c) := by
  have hnone {x : Option Call} (hx : h.call? c = x) (hp : ∀ y r, x = some y → y.progress = .ended r → False) :
      h.Happens (some c) none (h.crash c) := by
    cases x with
    | none =>
      have he : h.crash c = h := by simp [Host.crash, progress?, hx]
      rw [he]
      exact .calm h.now h.woken
    | some y => exact .crashed hx (fun r hr => hp y r rfl hr) hin
  cases hx : h.call? c with
  | none => exact hnone hx (by simp)
  | some x =>
    cases hp : x.progress with
    | ended r =>
      have he : h.crash c = h := by simp [Host.crash, progress?, hx, hp]
      rw [he]
      exact .calm h.now h.woken
    | fresh | acquiring | releasing | releasingSession | clearing | reopening | opening | discarding | closing =>
      exact hnone hx (by rintro y r hy hr; obtain rfl := Option.some.inj hy; simp [hp] at hr)

theorem crash_eq {c : CallId} {x : Call} (hx : h.call? c = some x) (hp : ∀ r, x.progress ≠ .ended r) :
    h.crash c = match x.progress with
      | .reopening o _ | .opening o => ((h.interrupt c x.progress).withdraw o.editor o.token).finish c .done
      | .discarding e token _ => ((h.interrupt c x.progress).withdraw e token).finish c .done
      | .closing _ => (h.interrupt c x.progress).finish c .done
      | _ => (h.interrupt c x.progress).finish c .crashed := by
  obtain ⟨task, p⟩ := x
  have hprogress : h.progress? c = some p := by rw [progress?, hx]; rfl
  unfold Host.crash
  rw [hprogress]
  cases p with
  | ended r => exact absurd rfl (hp r)
  | fresh | acquiring | releasing | releasingSession | clearing | reopening | opening | discarding | closing => rfl

/-- The one place where events are taken apart. -/
theorem happens (ho : h.Ordered none Q) (e : Event) : h.Happens (h.actor e) (h.begins? e) (h.apply e) := by
  cases e with
  | call task => exact .made task
  | session id uri => exact .wrapped id uri
  | begin c =>
    show h.Happens (some c) (match h.call? c with
      | some ⟨task, .fresh⟩ => some task
      | _ => none) (match h.call? c with
      | some ⟨task, .fresh⟩ => h.begin c task
      | _ => h)
    split
    · exact .begins (by assumption)
    · exact .calm h.now h.woken
  | enter i =>
    exact ho.stepSlot_happens i (fun s hh => by simp [Slot.enter, hh])
      (fun s v stage hh => Slot.enter_goes hh h.now) fun s v stage hl hh => hl.enter_step hh h.now
  | launched i outcome =>
    exact ho.launched_happens i outcome
  | stopped i =>
    exact ho.stopped_happens i
  | expire i =>
    show h.Happens _ none (h.expire i)
    rcases h.expire_cases i with hsame | hlaunched | hstopped
    · rw [hsame]
      exact .calm h.now h.woken
    · rw [hlaunched]
      exact ho.launched_happens i h.launchTimeout
    · rw [hstopped]
      exact ho.stopped_happens i
  | crash i =>
    show h.Happens ((h.registry.slots[i]?.bind Slot.holder).map (·.call)) none (h.crashIn i)
    rcases h.crashIn_cases i with hsame | ⟨s, v, w, hslot, hw, hcrash⟩
    · rw [hsame]
      exact .calm h.now h.woken
    · obtain ⟨stage, hh⟩ := Slot.holder_of_work hw
      rw [hslot, Option.bind_some, hh, hcrash]
      exact crash_happens ⟨i, s, v, w, hslot, hw, rfl⟩
  | drop c => exact drop_happens c
  | tick n => exact .calm (h.now + n) h.woken

end Ordered

def Staged (h : Host) : Prop := ∀ c x, h.call? c = some x → x.task.Reaches x.progress

theorem Staged.spawn (hs : h.Staged) (task : Task) : (h.spawn task).Staged := by
  intro d y hy
  rw [call?_spawn] at hy
  split at hy
  · obtain rfl := Option.some.inj hy
    cases task <;> trivial
  · exact hs d y hy

namespace Works
variable {t : Task} {c : CallId}

theorem staged (hw : Works t c h h') {x : Call} (hx : h.call? c = some x) (ht : x.task = t) (hs : h.Staged) :
    h'.Staged := by
  induction hw with
  | refl => exact hs
  | setSlot _ _ _ _ ih =>
    intro d y hy
    rw [call?, setSlot_calls] at hy
    exact ih d y hy
  | openSlot _ _ ih | closeSession _ _ ih | idle _ _ _ ih | addSession _ _ _ _ ih | keep _ _ _ _ ih => exact ih
  | setProgress hw₁ hp _ ih =>
    intro d y hy
    rw [call?_setProgress] at hy
    split at hy
    · rename_i hd
      subst hd
      obtain ⟨z, hz, htask, _⟩ := hw₁.call hx
      rw [hz] at hy
      obtain rfl := Option.some.inj hy
      show z.task.Reaches _
      rw [htask, ht]
      exact hp
    · exact ih d y hy
  | spawn _ task ih => exact ih.spawn task

theorem crash (hw : Works t c h h') (ht : ∀ p, h'.progress? c = some p → t.Reaches p) :
    Works t c h (h'.crash c) := by
  unfold Host.crash
  split
  · exact hw
  · exact hw
  · rename_i p _ hp
    have hp := ht p hp
    dsimp only
    split
    · obtain ⟨e, rfl, _⟩ := hp.opening rfl
      exact ((hw.interrupt _).withdraw trivial _ _).finish trivial
    · obtain ⟨e, rfl, _⟩ := hp.opening rfl
      exact ((hw.interrupt _).withdraw trivial _ _).finish trivial
    · obtain ⟨e, rfl⟩ := hp.discarding_open
      exact ((hw.interrupt _).withdraw trivial _ _).finish trivial
    · exact (hw.interrupt _).finish hp.closing
    · exact (hw.interrupt _).finish (by cases t <;> trivial)

end Works

/-- All that happens is the work of the actor on its task, or of nobody that is there. -/
theorem Happens.works (hh : h.Happens actor task h') (hs : h.Staged) :
    ∃ t c, (actor = some c ∨ actor = none ∧ h.call? c = none) ∧ (∀ x, h.call? c = some x → x.task = t) ∧
      Works t c h h' := by
  have hnew : h.call? ⟨h.calls.length⟩ = none := List.getElem?_eq_none (Nat.le_refl _)
  have hnobody {t : Task} {h'' : Host} (hw : Works t ⟨h.calls.length⟩ h h'') :
      ∃ t c, ((none : Option CallId) = some c ∨ (none : Option CallId) = none ∧ h.call? c = none) ∧
        (∀ x, h.call? c = some x → x.task = t) ∧ Works t c h h'' :=
    ⟨t, _, .inr ⟨rfl, hnew⟩, by simp [hnew], hw⟩
  have hsome {d : CallId} {x : Call} {h'' : Host} (hx : h.call? d = some x) (hw : Works x.task d h h'') :
      ∃ t c, (some d = some c ∨ some d = none ∧ h.call? c = none) ∧ (∀ x, h.call? c = some x → x.task = t) ∧
        Works t c h h'' := by
    refine ⟨x.task, d, .inl rfl, fun y hy => ?_, hw⟩
    rw [Option.some.inj (hx.symm.trans hy)]
  have hprogress {d : CallId} {x : Call} (hx : h.call? d = some x) (p : Progress) (hp : h.progress? d = some p) :
      x.task.Reaches p := by
    rw [progress?, hx] at hp
    obtain rfl := Option.some.inj hp
    exact hs d x hx
  cases hh with
  | calm now woken =>
    cases actor with
    | none => exact hnobody ((Works.refl (t := .shutdownAll)).idle now woken)
    | some d =>
      cases hx : h.call? d with
      | none => exact ⟨.shutdownAll, d, .inl rfl, by simp [hx], Works.refl.idle now woken⟩
      | some x => exact hsome hx (Works.refl.idle now woken)
  | made task => exact hnobody ((Works.refl (t := .shutdownAll)).spawn task)
  | wrapped id uri => exact hnobody ((Works.refl (t := .shutdownLifecycle)).addSession trivial id uri)
  | begins hx => exact hsome hx Works.refl.begin
  | waits hs hl _ hg hm hx => exact hsome hx (Works.refl.setSlot hs hg.grows (hl.spares hm))
  | answered hs hl _ hg hm hx =>
    refine hsome hx ((Works.refl.setSlot hs hg.grows (hl.spares hm)).answers (fun p hp => ?_) _ _)
    rw [progress?, call?, setSlot_calls] at hp
    exact hprogress hx p hp
  | dropped hx _ => exact hsome hx ((Works.refl.interrupt _).finish trivial)
  | crashed hx => exact hsome hx (Works.refl.crash (hprogress hx))

/-- A call is one that was there, and has changed if it is the actor only, or has yet to begin. -/
theorem Happens.call_back (hh : h.Happens actor task h') (hs : h.Staged) {c : CallId} {x' : Call}
    (hx : h'.call? c = some x') :
    (∃ x, h.call? c = some x ∧ x'.task = x.task ∧ (actor ≠ some c → x' = x)) ∨
      (h.call? c = none ∧ x'.progress = .fresh) := by
  have hactor {d : CallId} {y : Call} (hy : h.call? d = some y) (ha : actor = some d) :
      (∃ x, h.call? c = some x ∧ x'.task = x.task ∧ (actor ≠ some c → x' = x)) ∨
        (h.call? c = none ∧ x'.progress = .fresh) := by
    obtain ⟨t, e, he, _, hw⟩ := hh.works hs
    obtain rfl : d = e := by simpa [ha] using he
    refine (hw.call_back (by rw [hy]; rfl) hx).imp_left ?_
    rintro ⟨x, hx₀⟩
    obtain ⟨y', hy', htask, hother⟩ := hw.call hx₀
    obtain rfl := Option.some.inj (hx.symm.trans hy')
    exact ⟨x, hx₀, htask, fun hne => hother fun he => hne (by rw [he, ha])⟩
  cases hh with
  | calm | wrapped => exact .inl ⟨x', hx, rfl, fun _ => rfl⟩
  | made task =>
    rw [call?_spawn] at hx
    split at hx
    · rename_i hc
      obtain rfl := Option.some.inj hx
      exact .inr ⟨List.getElem?_eq_none (Nat.le_of_eq hc.symm), rfl⟩
    · exact .inl ⟨x', hx, rfl, fun _ => rfl⟩
  | begins hy | waits _ _ _ _ _ hy | answered _ _ _ _ _ hy | dropped hy | crashed hy => exact hactor hy rfl

theorem Happens.same_task (hh : h.Happens actor task h') (hs : h.Staged) {c : CallId} {x x' : Call}
    (hx : h.call? c = some x) (hx' : h'.call? c = some x') : x.task = x'.task := by
  rcases hh.call_back hs hx' with ⟨y, hy, htask, _⟩ | ⟨hnone, _⟩
  · rw [htask, Option.some.inj (hx.symm.trans hy)]
  · cases hnone.symm.trans hx

/-- What does not happen by a call's doing leaves it where it is, and notes nothing about it. -/
theorem Happens.spares (hh : h.Happens actor task h') (hs : h.Staged) {c : CallId} (hc : (h.call? c).isSome)
    (hne : actor ≠ some c) {i : Nat} {s : Slot} (hslot : h.registry.slots[i]? = some s) :
    ∃ s' d, h'.registry.slots[i]? = some s' ∧ d ≠ c ∧ s.Grows (Record.call · = d) s' ∧ s.Spares d s' := by
  obtain ⟨t, d, hd, _, hw⟩ := hh.works hs
  obtain ⟨s', hs', hg, hp⟩ := hw.slot hslot
  refine ⟨s', d, hs', ?_, hg, hp⟩
  rintro rfl
  rcases hd with hd | ⟨_, hd⟩
  · exact hne hd
  · simp [hd] at hc

theorem Happens.staged (hh : h.Happens actor task h') (hs : h.Staged) : h'.Staged := by
  have hactor {d : CallId} {x : Call} (hx : h.call? d = some x) (ha : actor = some d) : h'.Staged := by
    obtain ⟨t, c, hc, ht, hw⟩ := hh.works hs
    obtain rfl : d = c := by simpa [ha] using hc
    exact hw.staged hx (ht x hx) hs
  cases hh with
  | calm | wrapped => exact hs
  | made task => exact hs.spawn task
  | begins hx | waits _ _ _ _ _ hx | answered _ _ _ _ _ hx | dropped hx | crashed hx => exact hactor hx rfl

/-- A later moment of a run. -/
structure Since (h h' : Host) : Prop where
  slots : ∀ (i : Nat) (s : Slot), h.registry.slots[i]? = some s →
    ∃ s', h'.registry.slots[i]? = some s' ∧ s.Grows (fun _ => True) s'
  calls : ∀ c x, h.call? c = some x → ∃ x', h'.call? c = some x' ∧ x'.task = x.task
  sessions : ∀ σ y, h.session? σ = some y →
    ∃ y', h'.session? σ = some y' ∧ y'.connection = y.connection ∧ (y.closed = true → y'.closed = true)

namespace Since

theorem refl (h : Host) : h.Since h :=
  ⟨fun _ s hs => ⟨s, hs, .refl _ s⟩, fun _ x hx => ⟨x, hx, rfl⟩, fun _ y hy => ⟨y, hy, rfl, id⟩⟩

theorem trans {h'' : Host} (hs : h.Since h') (hs' : h'.Since h'') : h.Since h'' := by
  refine ⟨fun i s hi => ?_, fun c x hx => ?_, fun σ y hy => ?_⟩
  · obtain ⟨s', hi', hg⟩ := hs.slots i s hi
    obtain ⟨s'', hi'', hg'⟩ := hs'.slots i s' hi'
    exact ⟨s'', hi'', hg.trans hg'⟩
  · obtain ⟨x', hx', ht⟩ := hs.calls c x hx
    obtain ⟨x'', hx'', ht'⟩ := hs'.calls c x' hx'
    exact ⟨x'', hx'', ht'.trans ht⟩
  · obtain ⟨y', hy', hc, hclosed⟩ := hs.sessions σ y hy
    obtain ⟨y'', hy'', hc', hclosed'⟩ := hs'.sessions σ y' hy'
    exact ⟨y'', hy'', hc'.trans hc, fun hy => hclosed' (hclosed hy)⟩

theorem of_works {t : Task} {c : CallId} (hw : Works t c h h') : h.Since h' := by
  refine ⟨fun i s hi => ?_, fun d x hx => ?_, fun σ y hy => hw.session hy⟩
  · obtain ⟨s', hs', hg, _⟩ := hw.slot hi
    exact ⟨s', hs', hg.mono fun _ _ => trivial⟩
  · obtain ⟨x', hx', ht, _⟩ := hw.call hx
    exact ⟨x', hx', ht⟩

end Since

/-- What is remembered of a run, by what is remembered of each event. -/
def chronicle {γ : Type} (f : Host → Event → γ → γ) (h : Host) (g : γ) : List Event → γ
  | [] => g
  | e :: events => (h.apply e).chronicle f (f h e g) events

section Run
variable {K : EditorId → Option ServerKey}

/-- Whatever every event preserves holds in every run, of the state and of what is remembered. -/
theorem Settled.chronicle {γ : Type} {f : Host → Event → γ → γ} {P : Host → γ → Prop} {g : γ}
    (hs : h.Settled False K) (hstaged : h.Staged) (hP : P h g)
    (hstep : ∀ h g e, h.Ordered none Nowhere → h.Staged → h.Happens (h.actor e) (h.begins? e) (h.apply e) → P h g →
      P (h.apply e) (f h e g)) (events : List Event) :
    (h.run events).Staged ∧ P (h.run events) (h.chronicle f g events) := by
  induction events generalizing h g K with
  | nil => exact ⟨hstaged, hP⟩
  | cons e events ih =>
    have hh := hs.ordered.happens e
    exact ih (hs.apply e False.elim) (hh.staged hstaged) (hstep h g e hs.ordered hstaged hh hP)

theorem Settled.since (hs : h.Settled False K) (hstaged : h.Staged) (events : List Event) :
    h.Since (h.run events) := by
  induction events generalizing h K with
  | nil => exact .refl h
  | cons e events ih =>
    have hh := hs.ordered.happens e
    obtain ⟨t, c, _, _, hw⟩ := hh.works hstaged
    exact (Since.of_works hw).trans (ih (hs.apply e False.elim) (hh.staged hstaged))

variable (bounds : Bounds) (events : List Event)

theorem staged_new : (Host.new bounds).Staged := by
  intro c x hx
  simp [Host.new, call?] at hx

theorem run_chronicle {γ : Type} {f : Host → Event → γ → γ} {P : Host → γ → Prop} {g : γ} (hP : P (Host.new bounds) g)
    (hstep : ∀ h g e, h.Ordered none Nowhere → h.Staged → h.Happens (h.actor e) (h.begins? e) (h.apply e) → P h g →
      P (h.apply e) (f h e g)) :
    P ((Host.new bounds).run events) ((Host.new bounds).chronicle f g events) :=
  ((settled_new bounds).chronicle (staged_new bounds) hP hstep events).2

theorem run_staged : ((Host.new bounds).run events).Staged :=
  ((settled_new bounds).chronicle (γ := Unit) (f := fun _ _ g => g) (P := fun _ _ => True) (g := ()) (staged_new bounds)
    trivial (fun _ _ _ _ _ _ _ => trivial) events).1

theorem run_since (events' : List Event) :
    ((Host.new bounds).run events).Since (((Host.new bounds).run events).run events') :=
  ((settled_new bounds).run events False.elim).since (run_staged bounds events) events'

end Run

end LanguageHost.Host
