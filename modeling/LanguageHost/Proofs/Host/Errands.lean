import LanguageHost.Proofs.Host.Sends

/-! What events make of a call that gives a session back, and of the call that is made when that is
interrupted. -/
namespace LanguageHost.Host

/-- A call to release the session has returned that it did. -/
def ReleasedBy (h : Host) (σ : SessionId) (c : CallId) : Prop :=
  ∃ x, h.call? c = some x ∧ x.task = .releaseSession σ ∧ x.progress = .ended (.released true)

variable {h h' : Host} {c d : CallId} {σ : SessionId} {id : ConnectionId} {actor : Option CallId} {task : Option Task}
  {r : Errand} {x : Call} {Q : Nat → Request → Prop}

theorem Waits.releases {i : Nat} {q : Request} (hw : h.Waits x i q)
    (hr : (Task.releaseSession σ).Reaches x.progress) : x.progress = .releasingSession σ := by
  cases hw <;> cases hp : x.progress <;> simp_all [Task.Reaches, Task.Opens, Task.Clears, releasing?]

theorem asks_returned {registry : Registry} {i : Nat} {t : Task} {q : Request} (ha : t.Asks registry i q)
    (ht : t = .releaseConnection id) : i = id.slot ∧ q = .release (some id) := by
  cases ha with
  | releaseConnection hi =>
    obtain rfl := Task.releaseConnection.inj ht
    exact ⟨hi, rfl⟩
  | acquire | release | shutdownAll | shutdownLifecycle => cases ht
  | session hs =>
    rw [ht] at hs
    exact hs.elim

theorem Carries.there (hc : h.Carries c σ) : (h.call? c).isSome := by
  obtain ⟨p, hp, _⟩ := Option.bind_eq_some_iff.1 hc
  obtain ⟨x, hx, _⟩ := Option.map_eq_some_iff.1 hp
  rw [hx]
  rfl

section Events

/-- A call that is given up leaves the sessions and the entries of the editors as they are. -/
theorem interrupt_fields (h : Host) (c : CallId) (p : Progress) :
    (h.interrupt c p).sessions = h.sessions ∧ (h.interrupt c p).attachments = h.attachments := by
  obtain ⟨slots, woken, he, _⟩ := abandonSlots_eq h c
  unfold interrupt
  dsimp only
  split
  · rw [spawn_sessions, spawn_attachments, he]
    exact ⟨rfl, rfl⟩
  · rw [he]
    exact ⟨rfl, rfl⟩

theorem interrupt_sessions (h : Host) (c : CallId) (p : Progress) : (h.interrupt c p).sessions = h.sessions :=
  (h.interrupt_fields c p).1

theorem interrupt_call? (hx : h.call? d = some x) (c : CallId) (p : Progress) : (h.interrupt c p).call? d = some x := by
  obtain ⟨slots, woken, he, _⟩ := abandonSlots_eq h c
  have hkept : (h.abandonSlots c).call? d = some x := by rw [he]; exact hx
  unfold interrupt
  dsimp only
  split
  · rw [call?_spawn, if_neg (Nat.ne_of_lt (List.getElem?_eq_some_iff.1 hkept).1)]
    exact hkept
  · exact hkept

theorem connectionOf?_congr (hs : h'.sessions = h.sessions) (σ : SessionId) :
    h'.connectionOf? σ = h.connectionOf? σ := by
  rw [connectionOf?, connectionOf?, session?, session?, hs]

/-- A call that is given up while it gives a session back leaves that to a new one. -/
theorem interrupt_carried {p : Progress} (hp : releasing? p = some σ) (hid : h.connectionOf? σ = some id) :
    h.interrupt c p = (h.abandonSlots c).spawn (.releaseConnection id) := by
  obtain ⟨slots, woken, he, _⟩ := abandonSlots_eq h c
  obtain ⟨y, hy, rfl⟩ := Option.map_eq_some_iff.1 hid
  have hy' : (h.abandonSlots c).session? σ = some y := by rw [he]; exact hy
  simp [interrupt, hp, hy']

theorem Waits.carried {i : Nat} {q : Request} (hw : h.Waits x i q) (hp : releasing? x.progress = some σ)
    (hid : h.connectionOf? σ = some id) : i = id.slot ∧ q = .release (some id) := by
  cases hw with
  | session hp' _ hσ hi =>
    obtain rfl := Option.some.inj (hp'.symm.trans hp)
    obtain rfl := Option.some.inj (hσ.symm.trans hid)
    exact ⟨hi, rfl⟩
  | acquiring hp' | opening hp' | release hp' | returning hp' | clearing hp' => simp [hp', releasing?] at hp

theorem Waits.returned {i : Nat} {q : Request} (hw : h.Waits x i q) (ht : x.task = .releaseConnection id) :
    i = id.slot ∧ q = .release (some id) ∧ x.progress = .releasing := by
  cases hw with
  | returning hp ht' hi =>
    obtain rfl := Task.releaseConnection.inj (ht'.symm.trans ht)
    exact ⟨hi, rfl, hp⟩
  | acquiring _ ht' | release _ ht' => cases ht'.symm.trans ht
  | opening _ ht' | session _ ht' =>
    rw [ht] at ht'
    exact ht'.elim
  | clearing _ ht' => rcases ht' with ht' | ht' <;> cases ht'.symm.trans ht

variable (hh : h.Happens actor task h') (hs : h.Staged)
include hh hs

theorem Happens.carries_other (hne : actor ≠ some d) (hc : h'.Carries d σ) : h.Carries d σ := by
  obtain ⟨p, hp, hr⟩ := Option.bind_eq_some_iff.1 hc
  obtain ⟨x', hx', rfl⟩ := Option.map_eq_some_iff.1 hp
  rcases hh.call_back hs hx' with ⟨x, hx, _, hsame⟩ | ⟨_, hfresh⟩
  · obtain rfl := hsame hne
    simpa [Carries, progress?, hx] using hr
  · simp [hfresh, releasing?] at hr

/-- An event leaves a session as it was, or its actor closes it: by shutting the lifecycle down, or on its
way to give it back. -/
theorem Happens.sends (σ : SessionId) :
    ((h'.Closed σ → h.Closed σ) ∧ ∀ d, h'.Carries d σ → h.Carries d σ) ∨
    (∃ c, actor = some c ∧ task = some .shutdownLifecycle ∧ ∀ d, h'.Carries d σ → h.Carries d σ) ∨
    ∃ c, actor = some c ∧ task ≠ some .shutdownLifecycle ∧ h.Sends h' c σ ∧
      ∀ d, d ≠ c → h'.Carries d σ → h.Carries d σ := by
  have hother {c : CallId} (ha : actor = some c) (d : CallId) (hd : d ≠ c) (hc : h'.Carries d σ) : h.Carries d σ :=
    hh.carries_other hs (fun he => hd (Option.some.inj (he.symm.trans ha))) hc
  have hnot {c : CallId} (ha : actor = some c) (hc : ¬h'.Carries c σ) (d : CallId) (hd : h'.Carries d σ) :
      h.Carries d σ := by
    by_cases he : d = c
    · exact absurd (he ▸ hd) hc
    · exact hother ha d he hd
  cases hh with
  | calm => exact .inl ⟨fun hc => hc, fun _ hd => hd⟩
  | made task =>
    exact .inl ⟨(closed_congr (spawn_sessions h task) σ).1, fun d => (Happens.made task).carries_other hs (by simp)⟩
  | wrapped id uri => exact .inl ⟨(closed_addSession id uri).1, fun _ hd => hd⟩
  | @begins c t hx =>
    by_cases ht : t = .shutdownLifecycle
    · subst ht
      exact .inr (.inl ⟨c, rfl, rfl, hnot rfl shutdownLifecycle_not_carries⟩)
    · exact .inr (.inr ⟨c, rfl, fun he => ht (Option.some.inj he), begin_sends (by simp [hx]) ht σ, hother rfl⟩)
  | @waits i s v stage s' =>
    refine .inl ⟨(closed_congr (setSlot_sessions h i s') σ).1, fun d hd => ?_⟩
    rwa [Carries, progress?, call?, setSlot_calls] at hd
  | @answered i s v stage s' a x _ _ _ _ _ hx =>
    have hx₁ : ((h.setSlot i s').call? v.call).isSome := by
      rw [call?, setSlot_calls]
      exact Option.isSome_iff_exists.2 ⟨x, hx⟩
    exact .inr (.inr ⟨v.call, rfl, by simp, (answered_sends hx₁ i a σ).of_closed
      (closed_congr (setSlot_sessions h i s') σ), hother rfl⟩)
  | @dropped c x =>
    exact .inl ⟨(closed_congr (interrupt_sessions h c x.progress) σ).1, hnot rfl (not_carries rfl)⟩
  | @crashed c x hx hp =>
    obtain ⟨h₁, r, he, _, _, _, hsessions⟩ := crash_lands hx hp
    refine .inl ⟨?_, hnot rfl ?_⟩
    · rw [he]
      exact (closed_congr (hsessions.trans (interrupt_sessions h c x.progress)) σ).1
    · rw [he]
      exact not_carries rfl

theorem Happens.releasedBy (hr : h'.ReleasedBy σ c) : h.ReleasedBy σ c ∨ h.Carries c σ ∨
    (actor = some c ∧ task = some (.releaseSession σ) ∧ ¬h.Closed σ ∧ h'.Closed σ) := by
  obtain ⟨x', hx', ht, hp⟩ := hr
  rcases hh.call_back hs hx' with ⟨x, hx, htask, hsame⟩ | ⟨_, hfresh⟩
  · rw [htask] at ht
    by_cases ha : actor = some c
    · have hkept (hcalls : h'.calls = h.calls) : h.ReleasedBy σ c := ⟨x', by rwa [call?, ← hcalls], htask.trans ht, hp⟩
      have hended {h₁ : Host} {r : Result} (hx₁ : (h₁.finish c r).call? c = some x') : x'.progress = .ended r := by
        rw [Host.finish, call?_setProgress, if_pos rfl, Option.map_eq_some_iff] at hx₁
        obtain ⟨_, _, rfl⟩ := hx₁
        rfl
      cases hh with
      | calm => exact .inl (hkept rfl)
      | made | wrapped => cases ha
      | @begins d t hy =>
        obtain rfl := Option.some.inj ha
        obtain rfl : x = ⟨t, .fresh⟩ := Option.some.inj (hx.symm.trans hy)
        obtain rfl : t = .releaseSession σ := ht
        have hx' : (h.releaseSession d σ).call? d = some x' := hx'
        exact .inr (.inr ⟨rfl, rfl, releaseSession_true (by rw [progress?, hx']; exact congrArg some hp)⟩)
      | waits => exact .inl (hkept (setSlot_calls ..))
      | @answered i s v stage s' a y _ _ _ _ _ hy hw =>
        obtain rfl := Option.some.inj ha
        obtain rfl := Option.some.inj (hx.symm.trans hy)
        have hreach := hs v.call x hx
        rw [ht] at hreach
        refine .inr (.inl ?_)
        rw [Carries, progress?, hx, Option.map_some, hw.releases hreach]
        rfl
      | dropped =>
        obtain rfl := Option.some.inj ha
        cases hp.symm.trans (hended hx')
      | crashed hy hp' =>
        obtain rfl := Option.some.inj ha
        obtain ⟨h₁, r, he, hr, _⟩ := crash_lands hy hp'
        rw [he] at hx'
        rcases hr with rfl | rfl <;> cases hp.symm.trans (hended hx')
    · obtain rfl := hsame ha
      exact .inl ⟨x', hx, ht, hp⟩
  · cases hfresh.symm.trans hp

/-- A call that is not the actor, or has ended, is left as it is, and nothing is noted of it. -/
theorem Happens.leaves_be (hx : h.call? c = some x) (hq : actor ≠ some c ∨ ∃ r, x.progress = .ended r) :
    h'.call? c = some x ∧ ∀ (i : Nat) (s : Slot), h.registry.slots[i]? = some s → ∃ s' newer,
      h'.registry.slots[i]? = some s' ∧ s'.log = newer ++ s.log ∧ ∀ r ∈ newer, r.call ≠ c := by
  by_cases ha : actor = some c
  · obtain ⟨r, hr⟩ := hq.resolve_left fun hne => hne ha
    have hwaits {i : Nat} {q : Request} (hw : h.Waits x i q) : False := by
      cases hw <;> simp_all [releasing?]
    cases hh with
    | calm => exact ⟨hx, fun i s hi => ⟨s, [], hi, rfl, by simp⟩⟩
    | made | wrapped => cases ha
    | begins hy =>
      obtain rfl := Option.some.inj ha
      obtain rfl := Option.some.inj (hx.symm.trans hy)
      cases hr
    | waits _ _ _ _ _ hy hw | answered _ _ _ _ _ hy hw =>
      obtain rfl := Option.some.inj ha
      obtain rfl := Option.some.inj (hx.symm.trans hy)
      exact (hwaits hw).elim
    | dropped hy hp | crashed hy hp =>
      obtain rfl := Option.some.inj ha
      obtain rfl := Option.some.inj (hx.symm.trans hy)
      exact absurd hr (hp r)
  · obtain ⟨t, d, hd, _, hw⟩ := hh.works hs
    have hne : c ≠ d := by
      rintro rfl
      rcases hd with hd | ⟨_, hd⟩
      · exact ha hd
      · cases hd.symm.trans hx
    obtain ⟨x', hx', _, hsame⟩ := hw.call hx
    obtain rfl := hsame hne
    refine ⟨hx', fun i s hi => ?_⟩
    obtain ⟨s', hi', hg, _⟩ := hw.slot hi
    obtain ⟨newer, hlog, hnewer⟩ := hg.log
    exact ⟨s', newer, hi', hlog, fun r hr he => hne (he.symm.trans (hnewer r hr))⟩

end Events

/-- What an event makes of a call that carries a session. -/
inductive Carriage (h h' : Host) (c : CallId) (σ : SessionId) (id : ConnectionId) : Prop
  | waits (hlen : h'.calls.length = h.calls.length) (hc : h'.Carries c σ)
    (hslot : ∀ s : Slot, h.registry.slots[id.slot]? = some s →
      ∃ s', h'.registry.slots[id.slot]? = some s' ∧ s'.log = s.log)
  | answered {s s' : Slot} {newer : List Record} {e : Ending} {a : Answer} (hlen : h'.calls.length = h.calls.length)
    (hc : ¬h'.Carries c σ) (hs : h.registry.slots[id.slot]? = some s) (hs' : h'.registry.slots[id.slot]? = some s')
    (hlog : s'.log = newer ++ .turn ⟨⟨c, .release (some id)⟩, e, some a⟩ :: s.log)
  | givenUp {x : Call} {r : Result} (hlen : h.calls.length < h'.calls.length)
    (hnew : h'.call? ⟨h.calls.length⟩ = some ⟨.releaseConnection id, .fresh⟩) (hx : h'.call? c = some x)
    (hp : x.progress = .ended r) (hr : ∀ now, r ≠ .released now)
    (hslot : ∀ s : Slot, h.registry.slots[id.slot]? = some s → ∃ s' newer, h'.registry.slots[id.slot]? = some s' ∧
      s'.log = newer ++ s.log ∧
      ∀ t, .turn t ∈ newer → t.call = c ∧ t.request = .release (some id) ∧ t.answer = none)

/-- A call that is given up while it carries a session, in whatever way it ends. -/
theorem Ordered.carriage (ho : h.Ordered none Q) (hx : h.call? c = some x) (hp : releasing? x.progress = some σ)
    (hid : h.connectionOf? σ = some id) {h₁ : Host} (hregistry : h₁.registry = (h.interrupt c x.progress).registry)
    (hcalls : h₁.calls = (h.interrupt c x.progress).calls) {r : Result} (hr : ∀ now, r ≠ .released now) :
    h.Carriage (h₁.finish c r) c σ id := by
  obtain ⟨slots, woken, he, _⟩ := abandonSlots_eq h c
  have hspawn := interrupt_carried (c := c) hp hid
  have hnew : h₁.call? ⟨h.calls.length⟩ = some ⟨.releaseConnection id, .fresh⟩ := by
    rw [call?, hcalls, hspawn]
    show ((h.abandonSlots c).spawn (.releaseConnection id)).call? ⟨h.calls.length⟩ = _
    rw [call?_spawn, he, if_pos rfl]
  have hlt : c.number < h.calls.length := (List.getElem?_eq_some_iff.1 hx).1
  have hc : h₁.call? c = some x := by
    rw [call?, hcalls]
    exact interrupt_call? hx c x.progress
  refine .givenUp (x := { x with progress := .ended r }) ?_ ?_ ?_ rfl hr fun s hs => ?_
  · rw [Host.finish, setProgress_length, hcalls, hspawn]
    obtain ⟨w, hw⟩ := spawn_eq (h.abandonSlots c) (.releaseConnection id)
    rw [hw, he]
    simp
  · rw [Host.finish, call?_setProgress, if_neg, hnew]
    rintro rfl
    exact Nat.lt_irrefl _ hlt
  · rw [Host.finish, call?_setProgress, if_pos rfl, hc]
    rfl
  · have hslot : h₁.registry.slots[id.slot]? = some (s.abandon c) := by
      rw [hregistry, interrupt_slots, hs]
      rfl
    rcases s.abandon_log c with hlog | ⟨rec, hlog, hrec⟩
    · exact ⟨s.abandon c, [], hslot, hlog, by simp⟩
    · refine ⟨s.abandon c, [rec], hslot, hlog, fun t ht => ?_⟩
      obtain rfl := List.mem_singleton.1 ht
      rcases hrec with he | ⟨v, hv, hvc, he⟩
      · cases he
      · obtain rfl := Record.turn.inj he
        exact ⟨hvc, ((ho.waits c x (by simp) hx id.slot s hs v hv hvc).carried hp hid).2, rfl⟩

theorem Happens.carriage (hh : h.Happens (some c) task h') (ho : h.Ordered none Q) (hs : h.Staged) (hc : h.Carries c σ)
    (hclosed : h.Closed σ) (hid : h.connectionOf? σ = some id) : h.Carriage h' c σ id := by
  obtain ⟨p, hprogress, hp⟩ := Option.bind_eq_some_iff.1 hc
  obtain ⟨x, hx, rfl⟩ := Option.map_eq_some_iff.1 hprogress
  cases hh with
  | calm => exact .waits rfl hc fun s hs => ⟨s, hs, rfl⟩
  | begins hy =>
    obtain rfl := Option.some.inj (hx.symm.trans hy)
    cases hp
  | @waits i s v stage s' y hi _ _ hg _ hy hw =>
    obtain rfl := Option.some.inj (hx.symm.trans hy)
    obtain ⟨rfl, _⟩ := hw.carried hp hid
    refine .waits (congrArg List.length (setSlot_calls ..)) ?_ fun t ht => ?_
    · rwa [Carries, progress?, call?, setSlot_calls]
    · obtain rfl := Option.some.inj (hi.symm.trans ht)
      obtain ⟨_, hlog⟩ := hg.log
      exact ⟨s', setSlot_slot hi s', hlog⟩
  | @answered i s v stage s' a y hi _ _ hg _ hy hw =>
    obtain rfl := Option.some.inj (hx.symm.trans hy)
    obtain ⟨rfl, hreq⟩ := hw.carried hp hid
    have hcall (d : CallId) : (h.setSlot id.slot s').call? d = h.call? d := by rw [call?, setSlot_calls]; rfl
    have hworks : Works x.task v.call (h.setSlot id.slot s') ((h.setSlot id.slot s').answered v.call id.slot a) := by
      refine Works.refl.answers (fun p hp => ?_) _ _
      rw [progress?, hcall, hx] at hp
      obtain rfl := Option.some.inj hp
      exact hs v.call x hx
    obtain ⟨s'', hs'', hgrows, _⟩ := hworks.slot (setSlot_slot hi s')
    obtain ⟨newer, hlog', _⟩ := hgrows.log
    obtain ⟨e, hlog⟩ := hg.log
    have hturn : s''.log = newer ++ .turn ⟨⟨v.call, .release (some id)⟩, e, some a⟩ :: s.log := by
      rw [hlog', hlog, ← hreq]
      rfl
    refine .answered ?_ ?_ hi hs'' hturn
    · rw [answered_length, setSlot_calls]
    · have hclosed₁ := (closed_congr (setSlot_sessions h id.slot s') σ).2 hclosed
      have hsome : ((h.setSlot id.slot s').call? v.call).isSome := by rw [hcall, hx]; rfl
      cases answered_sends hsome id.slot a σ with
      | stays _ hnot => exact hnot
      | carries hopen | done hopen => exact absurd hclosed₁ hopen
  | dropped hy =>
    obtain rfl := Option.some.inj (hx.symm.trans hy)
    exact ho.carriage hx hp hid rfl rfl (by simp)
  | crashed hy hne =>
    obtain rfl := Option.some.inj (hx.symm.trans hy)
    obtain ⟨h₁, r, he, hr, hregistry, hcalls, _⟩ := crash_lands hx hne
    rw [he]
    exact ho.carriage hx hp hid hregistry hcalls (by rcases hr with rfl | rfl <;> simp)

section Turns

/-- The turn was over already when the slot was at an earlier point. -/
def HadTurn (h : Host) (i : Nat) (log : List Record) (t : Turn) : Prop :=
  ∃ (s : Slot) (newer : List Record), h.registry.slots[i]? = some s ∧ log = newer ++ s.log ∧ .turn t ∈ s.log

variable {i : Nat} {s s' : Slot} {t : Turn} {newer : List Record}

theorem hadTurn (newer : List Record) (hslot : h.registry.slots[i]? = some s) (hlog : s'.log = newer ++ s.log) (ht : .turn t ∈ s'.log)
    (hn : .turn t ∉ newer) : h.HadTurn i s'.log t := by
  refine ⟨s, newer, hslot, hlog, ?_⟩
  rw [hlog, List.mem_append] at ht
  exact ht.resolve_left hn

theorem Happens.turn_back (hh : h.Happens actor task h') (hs : h.Staged) (hslot' : h'.registry.slots[i]? = some s')
    (ht : .turn t ∈ s'.log) :
    h.HadTurn i s'.log t ∨ actor = some t.call ∧ ∃ x, h.call? t.call = some x ∧ ∀ r, x.progress ≠ .ended r := by
  have hactor {d : CallId} {y : Call} (ha : actor = some d) (hy : h.call? d = some y)
      (hp : ∀ r, y.progress ≠ .ended r) :
      h.HadTurn i s'.log t ∨ actor = some t.call ∧ ∃ x, h.call? t.call = some x ∧ ∀ r, x.progress ≠ .ended r := by
    by_cases hd : t.call = d
    · exact .inr ⟨hd ▸ ha, y, hd ▸ hy, hp⟩
    · obtain ⟨t', d', hd', _, hw⟩ := hh.works hs
      obtain rfl : d = d' := by simpa [ha] using hd'
      rcases hw.slot_back hslot' with ⟨s, hslot, hg⟩ | ⟨_, hmine⟩
      · obtain ⟨newer, hlog, hnewer⟩ := hg.log
        exact .inl (hadTurn newer hslot hlog ht fun hm => hd (hnewer _ hm))
      · exact absurd (hmine _ ht) hd
  have hwaits {x : Call} {j : Nat} {q : Request} (hw : h.Waits x j q) (r : Result) : x.progress ≠ .ended r := by
    intro hr
    cases hw <;> simp_all [releasing?]
  cases hh with
  | calm | wrapped => exact .inl ⟨s', [], hslot', rfl, ht⟩
  | made => exact .inl ⟨s', [], by simpa using hslot', rfl, ht⟩
  | begins hy => exact hactor rfl hy (by simp)
  | waits _ _ _ _ _ hy hw | answered _ _ _ _ _ hy hw => exact hactor rfl hy (hwaits hw)
  | dropped hy hp | crashed hy hp => exact hactor rfl hy hp

/-- A turn in which a call to release the session gives its connection back: it had come before, or comes now
and closes the session. -/
inductive GivesBack (h h' : Host) (c : CallId) (task : Option Task) (σ : SessionId) (i : Nat)
    (log : List Record) (t : Turn) : Prop
  | waited {id : ConnectionId} {s : Slot} (hc : h.Carries c σ) (hid : h.connectionOf? σ = some id) (hi : i = id.slot)
    (hslot : h.registry.slots[i]? = some s) (hlog : log = .turn t :: s.log)
  | atOnce {id : ConnectionId} {s : Slot} (ht : task = some (.releaseSession σ)) (hopen : ¬h.Closed σ)
    (hclosed : h'.Closed σ) (hid : h.connectionOf? σ = some id) (hi : i = id.slot)
    (hslot : h.registry.slots[i]? = some s) (hlog : log = .turn t :: .came ⟨c, .release (some id)⟩ :: s.log)

/-- A call to release a session is in the queue of its connection only, and carries it. -/
theorem Ordered.releasing (ho : h.Ordered none Q) (hs : h.Staged) (hx : h.call? c = some x)
    (ht : x.task = .releaseSession σ) (hslot : h.registry.slots[i]? = some s) {v : Visit} (hv : v ∈ s.visits)
    (hc : v.call = c) :
    x.progress = .releasingSession σ ∧ h.Carries c σ ∧ ∃ id, h.connectionOf? σ = some id ∧ i = id.slot := by
  have hw := ho.waits c x (by simp) hx i s hslot v hv hc
  have hreach := hs c x hx
  rw [ht] at hreach
  have hp := hw.releases hreach
  refine ⟨hp, by rw [Carries, progress?, hx, Option.map_some, hp]; rfl, ?_⟩
  generalize v.request = q at hw
  cases hw with
  | session hp' _ hid hi =>
    rw [hp] at hp'
    obtain rfl := Option.some.inj hp'
    exact ⟨_, hid, hi⟩
  | acquiring hp' | opening hp' | release hp' | returning hp' | clearing hp' => cases hp.symm.trans hp'

theorem releaseSession_turn (hslot' : (h.releaseSession c σ).registry.slots[i]? = some s') (ht : .turn t ∈ s'.log) :
    h.HadTurn i s'.log t ∨
      h.GivesBack (h.releaseSession c σ) c (some (.releaseSession σ)) σ i s'.log t := by
  unfold releaseSession at hslot' ⊢
  rcases h.beginRelease_cases c σ with he | ⟨id, h₁, ans, he, hsent⟩
  · rw [he] at hslot'
    exact .inl ⟨s', [], hslot', rfl, ht⟩
  · rw [he] at hslot' ⊢
    have hslot₁ : h₁.registry.slots[i]? = some s' := by cases ans <;> exact hslot'
    obtain ⟨s, hslot, hother, hlog⟩ := hsent.slots i s' hslot₁
    by_cases hi : i = id.slot
    · obtain ⟨e, hlog⟩ := hlog hi
      cases ans with
      | none => exact .inl (hadTurn [_] hslot hlog ht (by simp))
      | some a =>
        by_cases hturn : t = ⟨⟨c, .release (some id)⟩, e, some a⟩
        · exact .inr (.atOnce rfl hsent.fresh (hsent.closed.2 (.inr rfl)) hsent.connection hi hslot (hturn ▸ hlog))
        · exact .inl (hadTurn [_, _] hslot hlog ht (by simp [hturn]))
    · obtain rfl := hother hi
      exact .inl ⟨s', [], hslot, rfl, ht⟩

/-- What turns a call to release a session can have. -/
theorem Happens.release_turn (hh : h.Happens (some c) task h') (ho : h.Ordered none Q) (hs : h.Staged)
    (hx : h.call? c = some x) (htask : x.task = .releaseSession σ) (hslot' : h'.registry.slots[i]? = some s')
    (ht : .turn t ∈ s'.log) : h.HadTurn i s'.log t ∨ h.GivesBack h' c task σ i s'.log t := by
  have habandon {h₁ : Host} (he : h₁.registry.slots[i]? = h.registry.slots[i]?.map (·.abandon c))
      (hslot₁ : h₁.registry.slots[i]? = some s') : h.HadTurn i s'.log t ∨ h.GivesBack h' c task σ i s'.log t := by
    rw [he, Option.map_eq_some_iff] at hslot₁
    obtain ⟨s, hslot, rfl⟩ := hslot₁
    rcases s.abandon_log c with hlog | ⟨rec, hlog, hrec⟩
    · exact .inl (hadTurn [] hslot hlog ht (by simp))
    · by_cases hr : rec = .turn t
      · obtain ⟨v, hv, hvc, _⟩ := hrec.resolve_left fun he => by cases he.symm.trans hr
        obtain ⟨_, hc, id, hid, hi⟩ := ho.releasing hs hx htask hslot hv hvc
        exact .inr (.waited hc hid hi hslot (hr ▸ hlog))
      · exact .inl (hadTurn [rec] hslot hlog ht fun hm => hr (List.mem_singleton.1 hm).symm)
  cases hh with
  | calm => exact .inl ⟨s', [], hslot', rfl, ht⟩
  | begins hy =>
    obtain rfl := Option.some.inj (hx.symm.trans hy)
    cases htask
    exact releaseSession_turn hslot' ht
  | waits hj _ _ hg =>
    rcases setSlot_slots hj hslot' with ⟨rfl, rfl⟩ | ⟨_, hslot⟩
    · obtain ⟨_, hlog⟩ := hg.log
      exact .inl (hadTurn [] hj hlog ht (by simp))
    · exact .inl ⟨s', [], hslot, rfl, ht⟩
  | @answered j s v stage s₁ a y hj _ hholder hg =>
    obtain ⟨hp, hc, id, hid, hi⟩ := ho.releasing hs hx htask hj (v := v) (by simp [Slot.visits, hholder]) rfl
    have hcall : (h.setSlot j s₁).call? v.call = some x := by rwa [call?, setSlot_calls]
    have hslot₁ : (h.setSlot j s₁).registry.slots[i]? = some s' := by
      simp only [Host.answered, progress?, hcall, Option.map_some, hp] at hslot'
      exact hslot'
    rcases setSlot_slots hj hslot₁ with ⟨rfl, rfl⟩ | ⟨_, hslot⟩
    · obtain ⟨e, hlog⟩ := hg.log
      by_cases hturn : t = ⟨v, e, some a⟩
      · exact .inr (.waited hc hid hi hj (hturn ▸ hlog))
      · exact .inl (hadTurn [_] hj hlog ht (by simp [hturn]))
    · exact .inl ⟨s', [], hslot, rfl, ht⟩
  | dropped => exact habandon (interrupt_slots h c _ i) hslot'
  | crashed hy hp => exact habandon (crash_slots h c hy hp i) hslot'

end Turns

/-- A call that was made to give a connection back: its errand is open as long as it has not ended, and over
by its turn when it has, unless it was given up from outside. -/
structure StandsIn (h : Host) (id : ConnectionId) (r : Errand) (s : Slot) (x : Call) : Prop where
  slot : h.registry.slots[id.slot]? = some s
  call : h.call? r.call = some x
  task : x.task = .releaseConnection id
  since : ∃ newer, s.log = newer ++ r.before
  only : r.Sole s.log
  waiting : (∀ result, x.progress ≠ .ended result) → r.Open s.log
  final : ∀ result, x.progress = .ended result → result = .dropped ∨ ∃ t older, r.Ends s.log (.turn t) older

namespace StandsIn
variable {s s' : Slot} {x' : Call} {t : Turn} {result : Result} (newer : List Record)

theorem aside (hr : h.StandsIn id r s x) (hslot : h'.registry.slots[id.slot]? = some s') (hx : h'.call? r.call = some x)
    (hlog : s'.log = newer ++ s.log) (hnewer : ∀ q ∈ newer, q.call ≠ r.call) : h'.StandsIn id r s' x := by
  obtain ⟨between, hbetween⟩ := hr.since
  refine ⟨hslot, hx, hr.task, ⟨newer ++ between, ?_⟩, ?_, fun hp => ?_, fun result hp => ?_⟩
  · rw [hlog, hbetween, List.append_assoc]
  · rw [hlog]
    exact hr.only.later fun t ht => hnewer _ ht
  · rw [hlog]
    exact (hr.waiting hp).later fun q hq he => absurd he (hnewer q hq)
  · refine (hr.final result hp).imp_right ?_
    rintro ⟨t, older, hends⟩
    rw [hlog]
    exact ⟨t, older, hends.later newer⟩

variable (hr : h.StandsIn id r s x) (hslot : h'.registry.slots[id.slot]? = some s')
include hr hslot

theorem leaves (hx : h'.call? r.call = some ⟨.releaseConnection id, .ended .dropped⟩)
    (hlog : s'.log = newer ++ s.log) (hnewer : ∀ t, .turn t ∉ newer) :
    h'.StandsIn id r s' ⟨.releaseConnection id, .ended .dropped⟩ := by
  obtain ⟨between, hbetween⟩ := hr.since
  refine ⟨hslot, hx, rfl, ⟨newer ++ between, ?_⟩, ?_, by simp, fun _ he => .inl (Progress.ended.inj he).symm⟩
  · rw [hlog, hbetween, List.append_assoc]
  · rw [hlog]
    exact hr.only.later fun t ht => absurd ht (hnewer t)

variable (hp : ∀ result, x.progress ≠ .ended result)
include hp

/-- The call goes on to wait, of which the slot notes at most that it has come. -/
theorem waits (hx : h'.call? r.call = some x') (ht : x'.task = .releaseConnection id)
    (hp' : ∀ result, x'.progress ≠ .ended result) (hlog : s'.log = newer ++ s.log)
    (hnewer : ∀ q ∈ newer, q.isComing = true) : h'.StandsIn id r s' x' := by
  obtain ⟨between, hbetween⟩ := hr.since
  refine ⟨hslot, hx, ht, ⟨newer ++ between, ?_⟩, ?_, fun _ => ?_, fun result he => absurd he (hp' result)⟩
  · rw [hlog, hbetween, List.append_assoc]
  · rw [hlog]
    exact hr.only.later fun t ht => by cases hnewer _ ht
  · rw [hlog]
    exact (hr.waiting hp).later fun q hq _ => hnewer q hq

theorem turned (hx : h'.call? r.call = some ⟨.releaseConnection id, .ended result⟩)
    (hlog : s'.log = .turn t :: newer ++ s.log) (hnewer : ∀ q ∈ newer, q.isComing = true) (hc : t.call = r.call) :
    h'.StandsIn id r s' ⟨.releaseConnection id, .ended result⟩ := by
  obtain ⟨between, hbetween⟩ := hr.since
  have hopen : r.Open (newer ++ s.log) := (hr.waiting hp).later fun q hq _ => hnewer q hq
  have hsole : r.Sole (newer ++ s.log) := hr.only.later fun t ht => by cases hnewer _ ht
  refine ⟨hslot, hx, rfl, ⟨.turn t :: newer ++ between, ?_⟩, ?_, by simp, fun _ _ => .inr ⟨t, newer ++ s.log, ?_⟩⟩
  · rw [hlog, hbetween]
    simp
  · rw [hlog]
    exact hsole.turn hopen
  · rw [hlog]
    exact hopen.ends hc rfl

end StandsIn

theorem StandsIn.begins {s : Slot} (hr : h.StandsIn id r s ⟨.releaseConnection id, .fresh⟩) :
    ∃ s' x', (h.beginPlainRelease r.call (some id.slot) (some id)).StandsIn id r s' x' := by
  obtain ⟨e, hlog⟩ := (s.arrive_goes h.now ⟨r.call, .release (some id)⟩).log
  have hslot := setSlot_slot hr.slot (s.arrive h.now ⟨r.call, .release (some id)⟩).1
  have hcall : (h.setSlot id.slot (s.arrive h.now ⟨r.call, .release (some id)⟩).1).call? r.call =
      some ⟨.releaseConnection id, .fresh⟩ := by
    rw [call?, setSlot_calls]
    exact hr.call
  have hcame : ∀ q ∈ [Record.came ⟨r.call, .release (some id)⟩], q.isComing = true := by
    intro q hq
    rw [List.mem_singleton.1 hq]
    rfl
  unfold beginPlainRelease
  dsimp only
  rw [visit_eq h hr.slot]
  generalize s.arrive h.now ⟨r.call, .release (some id)⟩ = out at hlog hslot hcall
  obtain ⟨s', ans⟩ := out
  cases ans with
  | none =>
    exact ⟨s', ⟨.releaseConnection id, .releasing⟩,
      hr.waits [_] hslot (by simp) (by simp [hcall]) rfl (by simp) hlog hcame⟩
  | some a =>
    have hlog : s'.log = .turn ⟨⟨r.call, .release (some id)⟩, e, some a⟩ ::
      [.came ⟨r.call, .release (some id)⟩] ++ s.log := hlog
    exact ⟨s', ⟨.releaseConnection id, .ended .done⟩,
      hr.turned [_] hslot (by simp) (by simp [Host.finish, hcall]) hlog hcame rfl⟩

theorem StandsIn.answered {s s' : Slot} (hr : h.StandsIn id r s ⟨.releaseConnection id, .releasing⟩) {v : Visit}
    {a : Answer} (hg : s.Goes v (s', some a)) (hv : v.call = r.call) :
    ((h.setSlot id.slot s').answered v.call id.slot a).StandsIn id r s' ⟨.releaseConnection id, .ended .done⟩ := by
  obtain ⟨e, hlog⟩ := hg.log
  have hcall : (h.setSlot id.slot s').call? r.call = some ⟨.releaseConnection id, .releasing⟩ := by
    rw [call?, setSlot_calls]
    exact hr.call
  have hdone : (h.setSlot id.slot s').answered v.call id.slot a = (h.setSlot id.slot s').finish r.call .done := by
    simp only [Host.answered, hv, progress?, hcall, Option.map_some]
  have hlog : s'.log = .turn ⟨v, e, some a⟩ :: [] ++ s.log := hlog
  rw [hdone]
  exact hr.turned [] (setSlot_slot hr.slot s') (by simp) (by simp [Host.finish, hcall]) hlog (by simp) hv

namespace StandsIn
variable {s : Slot} {p : Progress} {h₁ : Host} (hr : h.StandsIn id r s ⟨.releaseConnection id, p⟩)
include hr

theorem slot_left (hregistry : h₁.registry = (h.interrupt r.call p).registry) :
    h₁.registry.slots[id.slot]? = some (s.abandon r.call) := by
  rw [hregistry, interrupt_slots, hr.slot]
  rfl

theorem call_ended (hcalls : h₁.calls = (h.interrupt r.call p).calls) (result : Result) :
    (h₁.finish r.call result).call? r.call = some ⟨.releaseConnection id, .ended result⟩ := by
  have hx₁ : h₁.call? r.call = some ⟨.releaseConnection id, p⟩ := by
    rw [call?, hcalls]
    exact interrupt_call? hr.call r.call p
  simp [Host.finish, hx₁]

variable (hp : ∀ result, p ≠ .ended result)
include hp

theorem dropped :
    ((h.interrupt r.call p).finish r.call .dropped).StandsIn id r (s.abandon r.call)
      ⟨.releaseConnection id, .ended .dropped⟩ := by
  have hslot : ((h.interrupt r.call p).finish r.call .dropped).registry.slots[id.slot]? = some (s.abandon r.call) :=
    hr.slot_left rfl
  have hended := hr.call_ended rfl .dropped
  rcases s.abandon_log r.call with hlog | ⟨rec, hlog, rfl | ⟨v, _, hv, rfl⟩⟩
  · exact hr.leaves [] hslot hended hlog (by simp)
  · exact hr.leaves [_] hslot hended hlog (by simp)
  · exact hr.turned [] hslot hp hended hlog (by simp) hv

theorem crashed (hin : ∃ v w, s.work? = some (v, w) ∧ v.call = r.call) :
    ∃ s' x', (h.crash r.call).StandsIn id r s' x' := by
  obtain ⟨h₁, result, he, _, hregistry, hcalls, _⟩ := crash_lands hr.call hp
  obtain ⟨v, w, hw, hv⟩ := hin
  have hlog : (s.abandon r.call).log = .turn ⟨v, .givenUp, none⟩ :: s.log := hv ▸ Slot.abandon_inside hw
  rw [he]
  exact ⟨_, _, hr.turned [] (hr.slot_left hregistry) hp (hr.call_ended hcalls result) hlog (by simp) hv⟩

end StandsIn

theorem Happens.standsIn (hh : h.Happens actor task h') (ho : h.Ordered none Q) (hs : h.Staged) {s : Slot}
    (hr : h.StandsIn id r s x) : ∃ s' x', h'.StandsIn id r s' x' := by
  by_cases hq : actor ≠ some r.call ∨ ∃ result, x.progress = .ended result
  · obtain ⟨hx', hslots⟩ := hh.leaves_be hs hr.call hq
    obtain ⟨s', newer, hslot', hlog, hnewer⟩ := hslots _ s hr.slot
    exact ⟨s', x, hr.aside newer hslot' hx' hlog hnewer⟩
  rw [not_or, not_not, not_exists] at hq
  obtain ⟨ha, hp⟩ := hq
  have hx := hr.call
  obtain ⟨t, progress⟩ := x
  obtain rfl : t = .releaseConnection id := hr.task
  cases hh with
  | calm => exact ⟨s, _, hr.aside [] hr.slot hx rfl (by simp)⟩
  | made | wrapped => cases ha
  | begins hy =>
    obtain rfl := Option.some.inj ha
    obtain ⟨rfl, rfl⟩ := Call.mk.inj (Option.some.inj (hx.symm.trans hy))
    exact hr.begins
  | @waits i t v stage s' y hi _ _ hg _ hy hw =>
    obtain rfl := Option.some.inj (hx.symm.trans (Option.some.inj ha ▸ hy))
    obtain ⟨rfl, _⟩ := hw.returned rfl
    obtain rfl := Option.some.inj (hr.slot.symm.trans hi)
    obtain ⟨_, hlog⟩ := hg.log
    exact ⟨s', _, hr.waits [] (setSlot_slot hi s') hp (by rwa [call?, setSlot_calls]) rfl hp hlog (by simp)⟩
  | @answered i t v stage s' a y hi _ _ hg _ hy hw =>
    have hv := Option.some.inj ha
    obtain rfl := Option.some.inj (hx.symm.trans (hv ▸ hy))
    obtain ⟨rfl, _, hprogress⟩ := hw.returned rfl
    obtain rfl : progress = .releasing := hprogress
    obtain rfl := Option.some.inj (hr.slot.symm.trans hi)
    exact ⟨s', _, hr.answered hg hv⟩
  | dropped hy _ =>
    obtain rfl := Option.some.inj ha
    obtain rfl := Option.some.inj (hx.symm.trans hy)
    exact ⟨_, _, hr.dropped hp⟩
  | crashed hy hne hin =>
    obtain rfl := Option.some.inj ha
    obtain rfl := Option.some.inj (hx.symm.trans hy)
    obtain ⟨i, t, v, w, hi, hw, hv⟩ := hin
    obtain ⟨rfl, _⟩ := (ho.waits r.call _ (by simp) hx i t hi v (Slot.mem_of_work hw) hv).returned rfl
    obtain rfl := Option.some.inj (hr.slot.symm.trans hi)
    exact hr.crashed hp ⟨v, w, hw, hv⟩

section Others

/-- The call is there to give this connection back, for a session or in another call's stead. -/
def IsFor (h : Host) (x : Call) (id : ConnectionId) : Prop :=
  x.task = .releaseConnection id ∨ ∃ σ, x.task = .releaseSession σ ∧ h.connectionOf? σ = some id

theorem Waits.isFor {i : Nat} {q : Request} (hw : h.Waits x i q) (hr : x.task.Reaches x.progress) (hf : h.IsFor x id) :
    i = id.slot ∧ q = .release (some id) ∧ (x.progress = .releasing ∨ ∃ σ, x.progress = .releasingSession σ) := by
  rcases hf with ht | ⟨σ, ht, hid⟩
  · obtain ⟨hi, hq, hp⟩ := hw.returned ht
    exact ⟨hi, hq, .inl hp⟩
  · rw [ht] at hr
    have hp : x.progress = .releasingSession σ := hw.releases hr
    obtain ⟨hi, hq⟩ := hw.carried (by rw [hp]; rfl) hid
    exact ⟨hi, hq, .inr ⟨σ, hp⟩⟩

/-- A call that is there to give one connection back is at the gate of its slot, for that, and nowhere else. -/
theorem Ordered.returns_only (ho : h.Ordered none Q) (hs : h.Staged) (hx : h.call? c = some x) (hf : h.IsFor x id)
    {i : Nat} {s : Slot} (hslot : h.registry.slots[i]? = some s) {v : Visit} (hv : v ∈ s.visits) (hc : v.call = c) :
    i = id.slot ∧ v.request = .release (some id) ∧ x.progress ≠ .fresh := by
  obtain ⟨hi, hq, hp⟩ := (ho.waits c x (by simp) hx i s hslot v hv hc).isFor (hs c x hx) hf
  refine ⟨hi, hq, ?_⟩
  rcases hp with hp | ⟨σ, hp⟩ <;> rw [hp] <;> nofun

/-- What a call that is there to give one connection back makes of a slot: it comes to that of the connection, or does
one step at a gate. -/
def Returns (h : Host) (c : CallId) (id : ConnectionId) (i : Nat) (s s' : Slot) : Prop :=
  (s' = s ∨ s.Step c s') ∨
    (i = id.slot ∧ s.Admits ⟨c, .release (some id)⟩ ∧ s' = (s.arrive h.now ⟨c, .release (some id)⟩).1)

theorem setSlot_returns {i k : Nat} {s t t' : Slot} (hslot : h.registry.slots[i]? = some s)
    (ht : h.registry.slots[k]? = some t) (hm : t' = t ∨ t.Step c t') :
    ∃ s', (h.setSlot k t').registry.slots[i]? = some s' ∧ h.Returns c id i s s' := by
  rw [setSlot_registry, Registry.setSlot_get ht]
  split
  · rename_i hi
    subst hi
    obtain rfl := Option.some.inj (ht.symm.trans hslot)
    exact ⟨t', rfl, .inl hm⟩
  · exact ⟨s, hslot, .inl (.inl rfl)⟩

theorem abandon_returns {i : Nat} {s : Slot} (hslot : h.registry.slots[i]? = some s)
    (he : h'.registry.slots[i]? = h.registry.slots[i]?.map (·.abandon c)) :
    ∃ s', h'.registry.slots[i]? = some s' ∧ h.Returns c id i s s' := by
  rw [he, hslot]
  exact ⟨_, rfl, .inl (Slot.Lives.abandon_step s c)⟩

theorem Ordered.visit_returns (ho : h.Ordered none Q) (hs : h.Staged) (hx : h.call? c = some ⟨t, .fresh⟩)
    (hf : h.IsFor ⟨t, .fresh⟩ id) {i : Nat} {s : Slot} (hslot : h.registry.slots[i]? = some s)
    (hr : h'.registry = h.registry) (hn : h'.now = h.now) :
    ∃ s', (h'.visit c id.slot (.release (some id))).1.registry.slots[i]? = some s' ∧ h.Returns c id i s s' := by
  rw [visit_slots, hr, hslot, hn]
  refine ⟨_, rfl, ?_⟩
  split
  · rename_i hi
    exact .inr ⟨hi, ⟨fun v hv hc => (ho.returns_only hs hx hf hslot hv hc).2.2 rfl, by simp⟩, rfl⟩
  · exact .inl (.inl rfl)

theorem Ordered.begin_returns (ho : h.Ordered none Q) (hs : h.Staged) (hx : h.call? c = some ⟨t, .fresh⟩)
    (hf : h.IsFor ⟨t, .fresh⟩ id) {i : Nat} {s : Slot} (hslot : h.registry.slots[i]? = some s) :
    ∃ s', (h.begin c t).registry.slots[i]? = some s' ∧ h.Returns c id i s s' := by
  have hvisit {h₁ : Host} (hr : h₁.registry = h.registry) (hn : h₁.now = h.now) := ho.visit_returns hs hx hf hslot hr hn
  rcases hf with ht | ⟨σ, ht, hσ⟩
  · obtain rfl : t = .releaseConnection id := ht
    have hregistry : (h.beginPlainRelease c (some id.slot) (some id)).registry =
        (h.visit c id.slot (.release (some id))).1.registry := by
      unfold beginPlainRelease
      dsimp only
      split <;> rename_i he <;> rw [he] <;> rfl
    show ∃ s', (h.beginPlainRelease c (some id.slot) (some id)).registry.slots[i]? = some s' ∧ _
    rw [hregistry]
    exact hvisit rfl rfl
  · obtain rfl : t = .releaseSession σ := ht
    show ∃ s', (h.releaseSession c σ).registry.slots[i]? = some s' ∧ _
    obtain ⟨y, hy, rfl⟩ := Option.map_eq_some_iff.1 hσ
    unfold releaseSession beginRelease
    rw [hy]
    dsimp only
    by_cases hclosed : y.closed = true
    · rw [if_pos hclosed]
      exact ⟨s, hslot, .inl (.inl rfl)⟩
    · rw [if_neg hclosed]
      have hv := hvisit (show (h.closeSession σ).registry = h.registry from rfl) rfl
      generalize (h.closeSession σ).visit c y.connection.slot (.release (some y.connection)) = out at hv
      obtain ⟨h₁, ans⟩ := out
      cases ans <;> exact hv

/-- Whatever a call does that is there to give one connection back, it comes to the slot of that, or does one
step at a gate. -/
theorem Happens.returns_slot (hh : h.Happens (some c) task h') (ho : h.Ordered none Q) (hs : h.Staged)
    (hx : h.call? c = some x) (hf : h.IsFor x id) {i : Nat} {s : Slot} (hslot : h.registry.slots[i]? = some s) :
    ∃ s', h'.registry.slots[i]? = some s' ∧ h.Returns c id i s s' := by
  cases hh with
  | calm => exact ⟨s, hslot, .inl (.inl rfl)⟩
  | @begins _ t hy =>
    obtain rfl := Option.some.inj (hx.symm.trans hy)
    exact ho.begin_returns hs hx hf hslot
  | waits hk _ _ _ hm hy => exact setSlot_returns hslot hk hm
  | @answered k t v stage t' a y hk _ _ _ hm hy hw =>
    obtain rfl := Option.some.inj (hx.symm.trans hy)
    obtain ⟨_, _, hp⟩ := hw.isFor (hs v.call x hx) hf
    have hregistry : ((h.setSlot k t').answered v.call k a).registry = (h.setSlot k t').registry := by
      have hcall : (h.setSlot k t').call? v.call = some x := by rwa [call?, setSlot_calls]
      rcases hp with hp | ⟨σ, hp⟩ <;> simp only [Host.answered, progress?, hcall, Option.map_some, hp] <;> rfl
    rw [hregistry]
    exact setSlot_returns hslot hk hm
  | dropped => exact abandon_returns hslot (interrupt_slots h c _ i)
  | crashed hy hp => exact abandon_returns hslot (crash_slots h c hy hp i)

/-- Whatever a call does that is there to give one connection back, other connections are left as they are. -/
theorem Happens.confines (hh : h.Happens (some c) task h') (ho : h.Ordered none Q) (hs : h.Staged)
    (hx : h.call? c = some x) (hf : h.IsFor x id) {i : Nat} {s : Slot} (hslot : h.registry.slots[i]? = some s) :
    ∃ s', h'.registry.slots[i]? = some s' ∧ s.Confines (if i = id.slot then id.generation else 0) s' := by
  have hl := ho.sound.lives i s hslot
  have hid (hi : i = id.slot) : (⟨s.number, if i = id.slot then id.generation else 0⟩ : ConnectionId) = id := by
    rw [if_pos hi, ho.sound.numbers i s hslot, hi]
  obtain ⟨s', hslot', hm | ⟨hi, ha, rfl⟩⟩ := hh.returns_slot ho hs hx hf hslot
  · refine ⟨s', hslot', hl.confines hm fun v hv hc => ?_⟩
    obtain ⟨hi, hq, _⟩ := ho.returns_only hs hx hf hslot hv hc
    rw [hq, hid hi]
  · have hc := hl.arrive_confines ((hid hi).symm ▸ ha) h.now
    rw [hid hi] at hc
    exact ⟨_, hslot', hc⟩

/-- Every connection but one is what and where it was. -/
def LeavesOthers (h : Host) (id : ConnectionId) (h' : Host) : Prop :=
  ∀ id' d, id' ≠ id → h.registry.byId? id' = some d →
    h'.registry.byId? id' = some d ∧ (h'.registry.Current id' ↔ h.registry.Current id')

theorem Happens.leaves_others (hh : h.Happens (some c) task h') (ho : h.Ordered none Q) (hs : h.Staged)
    (hx : h.call? c = some x) (hf : h.IsFor x id) : h.LeavesOthers id h' := by
  intro id' d hne hd
  obtain ⟨s, j, hslot, hj, hd⟩ := Registry.byId?_slot hd
  obtain ⟨s', hslot', hc⟩ := hh.confines ho hs hx hf hslot
  have hother : j + 1 ≠ if id'.slot = id.slot then id.generation else 0 := by
    split
    · rename_i hi
      intro he
      obtain ⟨_, _⟩ := id'
      obtain ⟨_, _⟩ := id
      simp_all
    · exact Nat.succ_ne_zero j
  obtain ⟨hd', hcurrent⟩ := hc j d hother hd
  exact ⟨(Registry.byId?_eq hslot' hj).trans hd', by
    rw [Registry.current_iff hslot', Registry.current_iff hslot, hj, hcurrent]⟩

end Others

end LanguageHost.Host
