import LanguageHost.Proofs.Host.Calls

/-! Every run keeps calls where they are; and a run in which the registry is used by the lifecycle only
keeps the books. -/
namespace LanguageHost

/-- A call that may be given up without leaving the lifecycle's business undone. -/
def Task.OfEditor : Task → Prop
  | .openEditor _ | .closeEditor _ => True
  | _ => False

/-- The keys that editors were last opened with, after one more task. -/
def Task.opened (K : EditorId → Option ServerKey) : Task → EditorId → Option ServerKey
  | .openEditor e =>
    match e.resolve with
    | .eligible what => Function.update K e.id (some what.key)
    | .ineligible | .crashed => K
  | _ => K

namespace Host
variable {kept : Prop} {h h' : Host} {K : EditorId → Option ServerKey} {c : CallId} {x : Call} {i : Nat}
  {s s' : Slot}

/-- A bound that has run out ends the launch or the shutdown that it is for. -/
theorem expire_cases (h : Host) (i : Nat) : h.expire i = h ∨
    h.expire i = h.stepSlot i (fun s => s.launched h.launchTimeout) ∨ h.expire i = h.stepSlot i Slot.stopped := by
  unfold expire
  split
  · exact .inl rfl
  · split
    · split
      · exact .inr (.inl rfl)
      · exact .inr (.inr rfl)
    · exact .inl rfl

theorem crashIn_eq (h : Host) (i : Nat) :
    h.crashIn i = ((h.registry.slots[i]?.bind Slot.work?).map (·.1.call)).elim h h.crash := by
  unfold crashIn
  cases h.registry.slots[i]? with
  | none => rfl
  | some s =>
    unfold Slot.work?
    simp only [Option.bind_some]
    rcases s.holder with _ | ⟨v, _ | _ | _⟩ <;> rfl

theorem crashIn_of_work {v : Visit} {w : Work} (hslot : h.registry.slots[i]? = some s) (hw : s.work? = some (v, w)) :
    h.crashIn i = h.crash v.call := by
  rw [crashIn_eq, hslot, Option.bind_some, hw]
  rfl

/-- What the launcher or a process crashes under is the call that waits inside, if there is one. -/
theorem crashIn_cases (h : Host) (i : Nat) : h.crashIn i = h ∨ ∃ s v w, h.registry.slots[i]? = some s ∧
    s.work? = some (v, w) ∧ h.crashIn i = h.crash v.call := by
  cases hinside : h.registry.slots[i]?.bind Slot.work? with
  | none => exact .inl (by rw [crashIn_eq, hinside]; rfl)
  | some inside =>
    obtain ⟨s, hslot, hw⟩ := Option.bind_eq_some_iff.1 hinside
    exact .inr ⟨s, inside.1, inside.2, hslot, hw, crashIn_of_work hslot hw⟩

namespace Settled

theorem takeOff (hs : h.Settled kept K) {task : Task} (hx : h.call? c = some ⟨task, .fresh⟩) :
    h.Aloft kept c ⟨task, .fresh⟩ Nowhere K (Call.owed? ⟨task, .fresh⟩) [] := by
  have hnowhere : ∀ i r, ¬h.Waits ⟨task, .fresh⟩ i r := by
    intro i r hw
    cases hw <;> simp_all [releasing?]
  refine ⟨hx, (hs.ordered.reports c _ (by simp) hx).silent (by simp), ?_, fun hk => ?_⟩
  · exact (hs.ordered.takeOff hx).mono fun i r hw => hnowhere i r hw
  · refine (hs.books hk).takeOff hx fun i t ht v hv _ hc => ?_
    exact hnowhere i v.request (hs.ordered.waits c _ (by simp) hx i t ht v hv hc)

/-- A call runs from its beginning to its first wait. -/
theorem begin (hs : h.Settled kept K) {task : Task} (hx : h.call? c = some ⟨task, .fresh⟩) :
    (h.begin c task).Settled kept (task.opened K) := by
  have ha := hs.takeOff hx
  have htask (hk : kept) : task.OfLifecycle := (hs.books hk).tasks c _ hx
  cases task with
  | acquire key document =>
    have hno (hk : kept) : False := htask hk
    exact ⟨ha.ordered.acquire hx rfl (ha.silent ⟨key, document, rfl⟩), fun hk => (hno hk).elim⟩
  | release key => exact ha.releaseKey rfl htask
  | releaseConnection id => exact ha.beginPlainRelease rfl fun _ => rfl
  | shutdownAll =>
    refine Aloft.shutdownAll (.inl rfl) ⟨hx, ha.silent, ha.ordered, fun hk => ?_⟩ true
    exact (htask hk).elim
  | releaseSession σ => exact ha.releaseSession trivial htask σ
  | openEditor e =>
    have hopened := ha.openEditor trivial e
    simp only [Task.opened]
    cases hr : e.resolve <;> rw [hr] at hopened <;> exact hopened
  | closeEditor e => exact ha.closeEditor trivial e
  | shutdownLifecycle => exact ha.shutdownLifecycle rfl

theorem answered (hs : h.Settled kept K) (hslot : h.registry.slots[i]? = some s) {v : Visit}
    (hv : s.visits = v :: s.queue) {a : Answer} (hm : s.Moves v (s', some a)) (hx : h.call? v.call = some x) :
    ((h.setSlot i s').answered v.call i a).Settled kept K := by
  obtain ⟨hw, ho, hanswered, honly⟩ := hs.ordered.holder hslot hx hm.change hm.leaves (by simp [hv]) hv
  have hb (hk : kept) := (hs.books hk).step hs.ordered hslot hv hm hx
  have hx₁ : (h.setSlot i s').call? v.call = some x := by rw [call?, setSlot_calls]; exact hx
  have hprogress : (h.setSlot i s').progress? v.call = some x.progress := by rw [progress?, hx₁]; rfl
  -- A call that does not clear slots was nowhere else.
  have hnowhere (hr : v.request ≠ .clear) : (h.setSlot i s').Ordered (some v.call) Nowhere :=
    ho.mono fun j r hq => hq.1 (hw.once hq.2 hr).symm
  have haloft (hr : v.request ≠ .clear) (ht : ¬x.task.Acquires) :
      (h.setSlot i s').Aloft kept v.call x Nowhere K (Answer.hand (some a)) [] :=
    ⟨hx₁, fun he => absurd he ht, hnowhere hr, hb⟩
  have hempty (hr : ¬v.request.Acquires) : Answer.hand (some a) = none := hm.empty hr
  have htracks (hk : kept) {o : Opening} (hp : x.progress.opening? = some o) : (h.setSlot i s').Tracks K o := by
    rw [Tracks, setSlot_attachments, setSlot_nextToken]
    exact (hs.books hk).openings _ x o hx hp
  have hgives (hk : kept) {o : Opening} (hp : x.progress = .opening o) {id : ConnectionId} (ha : a = .acquired id) :
      (h.setSlot i s').Gives o id := by
    subst ha
    exact (hs.books hk).step_gives hs.ordered.sound hslot hv hm hx hp hw
  unfold Host.answered
  rw [hprogress]
  generalize hr : v.request = r at hw hanswered hnowhere haloft hempty
  cases hw with
  | acquiring hp ht hi =>
    have hno (hk : kept) : False := by
      have := (hs.books hk).tasks _ x hx
      rw [ht] at this
      exact this
    have hreturns := (hnowhere (by simp)).returns hx₁ ht hanswered fun r b hb => by
      rcases honly r b hb with hb | ⟨_, hb⟩
      · exact absurd hb ((hs.ordered.reports _ x (by simp) hx).silent (by simp [hp]) ⟨_, _, ht⟩ r b)
      · exact hb
    rw [hp]
    rcases ho.acquire_answer hanswered with ⟨id, rfl⟩ | ⟨e, rfl⟩
    · exact ⟨hreturns, fun hk => (hno hk).elim⟩
    · exact ⟨hreturns, fun hk => (hno hk).elim⟩
  | opening hp ht hi =>
    rw [hp]
    exact (haloft (by simp) ht.not_acquires).answerOpen ht (fun hk => htracks hk (by rw [hp]; rfl))
      fun hk id ha => hgives hk hp ha
  | release hp ht hi | returning hp ht hi =>
    have ha := haloft (by simp) (by simp [Task.Acquires, ht])
    rw [hempty Request.release_not_acquires] at ha
    rw [hp]
    exact ha.done
  | session hp ht hσ hi =>
    have ha := haloft (by simp) ht.not_acquires
    rw [hempty Request.release_not_acquires] at ha
    cases hprog : x.progress with
    | releasingSession => exact ha.finish (by simp)
    | reopening o => exact ha.acquireForOpen ht fun hk => htracks hk (by rw [hprog]; rfl)
    | discarding | closing => exact ha.done
    | fresh | acquiring | releasing | clearing | opening | ended => simp [hprog, releasing?] at hp
  | clearing hp ht hi =>
    rename_i waiting closed report
    have ha : (h.setSlot i s').Aloft kept v.call x (fun j r => j ∈ waiting.filter (· ≠ i) ∧ r = .clear) K
        none [] := by
      have hhand := hempty Request.clear_not_acquires
      rw [hhand] at hb
      refine ⟨hx₁, fun he => absurd he (Task.clears_not_acquires ht), ho.mono ?_, hb⟩
      rintro j r ⟨hj, hw⟩
      cases hw with
      | clearing hp' _ hj' =>
        rw [hp] at hp'
        obtain ⟨rfl, _⟩ := Progress.clearing.inj hp'
        exact ⟨by simpa [hj] using hj', rfl⟩
      | acquiring hp' | opening hp' | release hp' | returning hp' | session hp' => simp [hp, releasing?] at hp'
    rw [hp]
    exact ha.clearing ht _ report

theorem stepSlot (hs : h.Settled kept K) (i : Nat) {step : Slot → Slot × Option Answer}
    (hidle : ∀ s : Slot, s.holder = none → step s = (s, none))
    (hstep : ∀ (s : Slot) v stage, s.Lives → s.holder = some ⟨v, stage⟩ → s.Moves v (step s)) :
    (h.stepSlot i step).Settled kept K := by
  unfold Host.stepSlot
  split
  · exact hs
  · rename_i s hslot
    cases hh : s.holder with
    | none =>
      rw [hidle s hh]
      have hregistry : (h.setSlot i s).registry = h.registry := by
        rw [setSlot_registry, Registry.setSlot_self hslot]
      have hsession (σ : SessionId) : (h.setSlot i s).session? σ = h.session? σ := by
        rw [session?, setSlot_sessions]; rfl
      have hkeep : ∀ σ id, h.connectionOf? σ = some id → (h.setSlot i s).connectionOf? σ = some id := by
        intro σ id hσ
        rw [connectionOf?, hsession]
        exact hσ
      exact ⟨hs.ordered.frame hregistry (setSlot_calls ..) hkeep,
        fun hk => (hs.books hk).frame hregistry (setSlot_calls ..)
          (setSlot_attachments ..) (Nat.le_of_eq (setSlot_nextToken ..).symm) hkeep fun _ σ _ => hsession σ⟩
    | some holder =>
      obtain ⟨v, stage⟩ := holder
      have hl := hs.ordered.sound.lives i s hslot
      have hvisits : s.visits = v :: s.queue := by simp [Slot.visits, hh]
      have hm := hstep s v stage hl hh
      obtain ⟨x, hx⟩ := Option.isSome_iff_exists.1 (hs.ordered.known i s hslot v (by simp [hvisits]))
      generalize step s = out at hm
      obtain ⟨s', ans⟩ := out
      cases ans with
      | none =>
        exact ⟨(hs.ordered.holder hslot hx hm.change hm.leaves (by simp [hvisits]) hvisits).2,
          fun hk => (hs.books hk).step hs.ordered hslot hvisits hm hx⟩
      | some a => exact hs.answered hslot hvisits hm hx

/-- A call for an editor is taken out of all slots, with the reference in hand that it was giving back. -/
theorem abandon_books (hs : h.Settled kept K) (hx : h.call? c = some x) (ht : x.task.OfEditor) (hk : kept) :
    (h.abandonSlots c).Books K (some c) ((releasing? x.progress).bind h.connectionOf?) [] := by
  have hwaits (i : Nat) (s : Slot) (hslot : h.registry.slots[i]? = some s) (v : Visit) (hv : v ∈ s.visits)
      (hc : v.call = c) :=
    hs.ordered.waits c x (by simp) hx i s hslot v hv hc
  refine (hs.books hk).abandon hs.ordered hx ?_ ?_ ?_
  · unfold Call.owed?
    split
    · exact ht.elim
    · rfl
  · intro i s hslot hclears
    refine .inl ((hs.ordered.sound.lives i s hslot).abandon_clears (fun v hv hc hr => ?_) hclears)
    have hw := hwaits i s hslot v hv hc
    rw [hr] at hw
    cases hw with
    | clearing _ ht' =>
      rcases ht' with ht' | ht' <;> rw [ht'] at ht <;> exact ht
  · intro i s hslot v hv hc id hr
    have hw := hwaits i s hslot v hv hc
    rw [hr] at hw
    cases hw with
    | returning _ ht' =>
      rw [ht'] at ht
      exact ht.elim
    | session hp' _ hσ _ => rw [hp', Option.bind_some, hσ]

/-- A call is taken out of all slots. What it was giving back is given back in the background. -/
theorem interrupt (hs : h.Settled kept K) (hx : h.call? c = some x) (hp : ∀ r, x.progress ≠ .ended r)
    (hbooks : kept → (h.abandonSlots c).Books K (some c) ((releasing? x.progress).bind h.connectionOf?) []) :
    (h.interrupt c x.progress).Aloft kept c x Nowhere K none [] := by
  obtain ⟨_, ho, hanswered⟩ := hs.ordered.abandon hx
  have hsilent := (hs.ordered.reports c x (by simp) hx).silent hp
  obtain ⟨slots, woken, he, _⟩ := abandonSlots_eq h c
  have hx₁ : (h.abandonSlots c).call? c = some x := by
    rw [he]
    exact hx
  have hsession (σ : SessionId) : (h.abandonSlots c).session? σ = h.session? σ := by
    rw [he]
    rfl
  unfold Host.interrupt
  dsimp only
  split
  · rename_i session hreturning
    have hx₂ : ((h.abandonSlots c).spawn (.releaseConnection session.connection)).call? c = some x := by
      rw [call?_spawn, if_neg, hx₁]
      intro hn
      rw [call?, hn, List.getElem?_eq_none (Nat.le_refl _)] at hx₁
      cases hx₁
    refine ⟨hx₂, fun ht r a hra => hsilent ht r a (hanswered r a ?_), (ho.spawn _).mono fun _ _ hq => hq,
      fun hk => ?_⟩
    · simpa [Answered] using hra
    · have hb := hbooks hk
      have hhand : (releasing? x.progress).bind h.connectionOf? = some session.connection := by
        obtain ⟨σ, hσ, hy⟩ := Option.bind_eq_some_iff.1 hreturning
        rw [hσ, Option.bind_some, connectionOf?, ← hsession, hy]
        rfl
      rw [hhand] at hb
      refine hb.spawn trivial ?_ fun i s hslot v hv => ho.known i s hslot v hv
      rintro d hd
      obtain rfl := Option.some.inj hd
      rw [hx₁]
      rfl
  · rename_i hnone
    refine ⟨hx₁, fun ht r a hra => hsilent ht r a (hanswered r a hra), ho, fun hk => ?_⟩
    have hhand : (releasing? x.progress).bind h.connectionOf? = none := by
      cases hσ : releasing? x.progress with
      | none => rfl
      | some σ =>
        rw [hσ, Option.bind_some, hsession] at hnone
        rw [Option.bind_some, connectionOf?, hnone]
        rfl
    have hb := hbooks hk
    rwa [hhand] at hb

theorem drop (hs : h.Settled kept K) (hbooks : kept → ∀ x, h.call? c = some x →
      (h.abandonSlots c).Books K (some c) ((releasing? x.progress).bind h.connectionOf?) []) :
    (h.drop c).Settled kept K := by
  unfold Host.drop
  cases hx : h.call? c with
  | none =>
    simp only [progress?, hx, Option.map_none]
    exact hs
  | some x =>
    simp only [progress?, hx, Option.map_some]
    cases hp : x.progress with
    | ended => exact hs
    | fresh | acquiring | releasing | releasingSession | clearing | reopening | opening | discarding | closing =>
      have ha := hs.interrupt hx (by simp [hp]) fun hk => hbooks hk x hx
      rw [hp] at ha
      exact ha.finish (by simp)

theorem crash (hs : h.Settled kept K) (hbooks : kept → ∀ x, h.call? c = some x →
      (h.abandonSlots c).Books K (some c) ((releasing? x.progress).bind h.connectionOf?) []) :
    (h.crash c).Settled kept K := by
  unfold Host.crash
  cases hx : h.call? c with
  | none =>
    simp only [progress?, hx, Option.map_none]
    exact hs
  | some x =>
    simp only [progress?, hx, Option.map_some]
    cases hp : x.progress with
    | ended => exact hs
    | fresh | acquiring | releasing | releasingSession | clearing | reopening | opening | discarding | closing =>
      have ha := hs.interrupt hx (by simp [hp]) fun hk => hbooks hk x hx
      rw [hp] at ha
      first
        | exact ha.finish (by simp)
        | exact (ha.withdraw _ _).done

theorem crashIn (hs : h.Settled kept K) (hbooks : kept → ∀ s v, h.registry.slots[i]? = some s → s.holder = some v →
      ∀ x, h.call? v.call = some x →
        (h.abandonSlots v.call).Books K (some v.call) ((releasing? x.progress).bind h.connectionOf?) []) :
    (h.crashIn i).Settled kept K := by
  rcases h.crashIn_cases i with hsame | ⟨s, v, w, hslot, hw, hcrash⟩
  · rw [hsame]
    exact hs
  · obtain ⟨stage, hh⟩ := Slot.holder_of_work hw
    rw [hcrash]
    exact hs.crash fun hk x hx => hbooks hk s _ hslot hh x hx

end Settled

/-- The slot whose holder, if any, goes on in an event. -/
def gate? : Event → Option Nat
  | .enter i | .launched i _ | .stopped i | .expire i => some i
  | _ => none

theorem apply_gate (h : Host) {e : Event} (he : gate? e = some i) :
    h.apply e = h ∨ ∃ step : Slot → Slot × Option Answer, h.apply e = h.stepSlot i step ∧
      (∀ s : Slot, s.holder = none → step s = (s, none)) ∧
      ∀ (s : Slot) v stage, s.Lives → s.holder = some ⟨v, stage⟩ → s.Moves v (step s) := by
  cases e with
  | call | session | begin | crash | drop | tick => cases he
  | enter j =>
    obtain rfl := Option.some.inj he
    exact .inr ⟨fun s => s.enter h.now, rfl, fun s hh => by simp [Slot.enter, hh],
      fun s v stage hl hh => hl.enter_moves hh h.now⟩
  | launched j outcome =>
    obtain rfl := Option.some.inj he
    exact .inr ⟨fun s => s.launched outcome, rfl, fun s hh => by simp [Slot.launched, hh],
      fun s v stage hl hh => hl.launched_moves hh outcome⟩
  | stopped j =>
    obtain rfl := Option.some.inj he
    exact .inr ⟨Slot.stopped, rfl, fun s hh => by simp [Slot.stopped, hh],
      fun s v stage hl hh => hl.stopped_moves hh⟩
  | expire j =>
    obtain rfl := Option.some.inj he
    show h.expire j = h ∨ ∃ step, h.expire j = h.stepSlot j step ∧ _
    rcases h.expire_cases j with hsame | hlaunched | hstopped
    · exact .inl hsame
    · exact .inr ⟨fun s => s.launched h.launchTimeout, hlaunched, fun s hh => by simp [Slot.launched, hh],
        fun s v stage hl hh => hl.launched_moves hh h.launchTimeout⟩
    · exact .inr ⟨Slot.stopped, hstopped, fun s hh => by simp [Slot.stopped, hh],
        fun s v stage hl hh => hl.stopped_moves hh⟩

/-- The registry is used by the lifecycle only; calls for editors may be given up or crash, and a
shutdown runs to its end. -/
def OfLifecycle (h : Host) : Event → Prop
  | .call task => task.OfEditor ∨ task = .shutdownLifecycle
  | .session _ _ => False
  | .drop c => ∀ x, h.call? c = some x → x.task.OfEditor
  | .crash i => ∀ s v, h.registry.slots[i]? = some s → s.holder = some v → ∀ x, h.call? v.call = some x →
      x.task.OfEditor
  | _ => True

/-- The keys that editors were last opened with, after one more event. -/
def opened (h : Host) (K : EditorId → Option ServerKey) : Event → EditorId → Option ServerKey
  | .begin c =>
    match h.call? c with
    | some ⟨task, .fresh⟩ => task.opened K
    | _ => K
  | _ => K

namespace Settled

/-- What one event does. -/
theorem apply (hs : h.Settled kept K) (e : Event) (he : kept → h.OfLifecycle e) :
    (h.apply e).Settled kept (h.opened K e) := by
  have hgate {i : Nat} (hg : gate? e = some i) : (h.apply e).Settled kept K := by
    rcases h.apply_gate hg with hsame | ⟨step, hstep, hidle, hmoves⟩
    · rw [hsame]
      exact hs
    · rw [hstep]
      exact hs.stepSlot i hidle hmoves
  cases e with
  | call task =>
    refine ⟨hs.ordered.spawn task, fun hk => ?_⟩
    have howed : Call.owed? ⟨task, .fresh⟩ = none ∧ task.OfLifecycle := by
      rcases he hk with ht | rfl
      · cases task with
        | openEditor | closeEditor => exact ⟨rfl, trivial⟩
        | acquire | release | releaseConnection | shutdownAll | releaseSession | shutdownLifecycle => exact ht.elim
      · exact ⟨rfl, trivial⟩
    have hb := hs.books hk
    rw [← howed.1] at hb
    exact hb.spawn howed.2 (by simp) fun i s hslot v hv => hs.ordered.known i s hslot v hv
  | session connection uri =>
    refine ⟨hs.ordered.frame rfl rfl fun σ id hσ => ?_, fun hk => (he hk).elim⟩
    obtain ⟨y, hy, _⟩ := Option.map_eq_some_iff.1 hσ
    have hlt : σ.number < h.sessions.length := (List.getElem?_eq_some_iff.1 hy).1
    have hold : (h.addSession connection uri).1.session? σ = h.session? σ := List.getElem?_append_left hlt
    show ((h.addSession connection uri).1.session? σ).map _ = _
    rw [hold]
    exact hσ
  | begin c =>
    show Settled kept (match h.call? c with
      | some ⟨task, .fresh⟩ => h.begin c task
      | _ => h) (match h.call? c with
      | some ⟨task, .fresh⟩ => task.opened K
      | _ => K)
    split
    · rename_i task hx
      exact hs.begin hx
    · exact hs
  | enter i | launched i | stopped i | expire i => exact hgate rfl
  | crash i =>
    exact hs.crashIn fun hk s v hslot hh x hx => hs.abandon_books hx (he hk s v hslot hh x hx) hk
  | drop c => exact hs.drop fun hk x hx => hs.abandon_books hx (he hk x hx) hk
  | tick n =>
    refine ⟨hs.ordered.frame rfl rfl fun _ _ hσ => hσ, fun hk => ?_⟩
    exact (hs.books hk).frame rfl rfl rfl (Nat.le_refl _) (fun _ _ hσ => hσ) fun _ _ _ => rfl

end Settled

def Within (h : Host) : List Event → Prop
  | [] => True
  | e :: events => h.OfLifecycle e ∧ (h.apply e).Within events

/-- The keys that editors were last opened with, after a run. -/
def lastOpened (h : Host) (K : EditorId → Option ServerKey) : List Event → EditorId → Option ServerKey
  | [] => K
  | e :: events => (h.apply e).lastOpened (h.opened K e) events

theorem Settled.run (hs : h.Settled kept K) (events : List Event) (he : kept → h.Within events) :
    (h.run events).Settled kept (h.lastOpened K events) := by
  induction events generalizing h K with
  | nil => exact hs
  | cons e events ih => exact ih (hs.apply e fun hk => (he hk).1) fun hk => (he hk).2

theorem settled_new (bounds : Bounds) : (Host.new bounds).Settled kept fun _ => none := by
  refine ⟨⟨Registry.sound_empty, ?_, ?_, ?_, ?_, ?_⟩, fun _ => ?_⟩
  · simp [Host.new, Registry.empty]
  · simp [Host.new, Registry.empty]
  · simp [Host.new, Registry.empty]
  · simp [Host.new, call?]
  · simp
  · refine ⟨?_, ?_, ?_, ?_, ?_, ?_, ?_, ?_, ?_, ?_, ?_, ?_, ?_⟩ <;> simp [Host.new, Registry.empty, call?]

theorem run_ordered (bounds : Bounds) (events : List Event) : ((Host.new bounds).run events).Ordered none Nowhere :=
  ((settled_new bounds).run events False.elim).ordered

theorem run_books {bounds : Bounds} {events : List Event} (he : (Host.new bounds).Within events) :
    ((Host.new bounds).run events).Books ((Host.new bounds).lastOpened (fun _ => none) events) none none [] :=
  ((settled_new bounds).run events fun _ => he).books trivial

end Host

end LanguageHost
