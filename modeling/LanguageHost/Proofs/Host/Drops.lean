import LanguageHost.Proofs.Host.Happens
import LanguageHost.Proofs.Registry.Closing
import LanguageHost.Proofs.Registry.Drops

/-! Calls on the registry that are given up, at whatever point: every slot is left whole. -/
namespace LanguageHost

namespace Task

def OfRegistry : Task → Prop
  | .acquire _ _ | .release _ | .releaseConnection _ | .shutdownAll => True
  | _ => False

theorem OfRegistry.not_returning {t : Task} {p : Progress} (ht : t.OfRegistry) (hp : t.Reaches p) :
    Host.releasing? p = none := by
  cases t <;> cases p <;> simp_all [OfRegistry, Reaches, Opens, Clears, Host.releasing?]

end Task

/-- The connection is the current one of its key. -/
def Registry.Current (r : Registry) (id : ConnectionId) : Prop :=
  ∃ s : Slot, r.slots[id.slot]? = some s ∧ s.current = some id.generation

theorem Registry.byId?_slot {r : Registry} {id : ConnectionId} {d : Connection} (hd : r.byId? id = some d) :
    ∃ s j, r.slots[id.slot]? = some s ∧ id.generation = j + 1 ∧ s.connections[j]? = some d := by
  obtain ⟨s, hs, hc⟩ := Option.bind_eq_some_iff.1 hd
  unfold Slot.connection? at hc
  split at hc
  · cases hc
  · exact ⟨s, id.generation - 1, hs, by omega, hc⟩

theorem Registry.byId?_eq {r : Registry} {id : ConnectionId} {s : Slot} {j : Nat} (hs : r.slots[id.slot]? = some s)
    (hj : id.generation = j + 1) : r.byId? id = s.connections[j]? := by
  simp [byId?, hs, Slot.connection?, hj]

theorem Registry.current_iff {r : Registry} {id : ConnectionId} {s : Slot} (hs : r.slots[id.slot]? = some s) :
    r.Current id ↔ s.current = some id.generation := by
  refine ⟨?_, fun hc => ⟨s, hs, hc⟩⟩
  rintro ⟨s', hs', hc⟩
  rwa [Option.some.inj (hs.symm.trans hs')]

namespace Host
variable {h h' : Host} {Q : Nat → Request → Prop} {c : CallId} {task : Option Task} {i j : Nat} {s : Slot} {x : Call}
  {K : EditorId → Option ServerKey}

section Slots
variable (h : Host) (c : CallId)

theorem visit_slots (i : Nat) (r : Request) (j : Nat) : (h.visit c i r).1.registry.slots[j]? =
    h.registry.slots[j]?.map fun s => if j = i then (s.arrive h.now ⟨c, r⟩).1 else s := by
  cases hs : h.registry.slots[i]? with
  | none =>
    rw [visit, hs]
    by_cases hj : j = i
    · simp [hj, hs]
    · simp [hj]
  | some s =>
    rw [visit_eq h hs, setSlot_registry, Registry.setSlot_get hs]
    by_cases hj : j = i
    · simp [hj, hs]
    · simp [hj]

theorem visit_now (i : Nat) (r : Request) : (h.visit c i r).1.now = h.now := by
  unfold visit
  split
  · rfl
  · rename_i s _
    obtain ⟨woken, he⟩ := setSlot_eq h i (s.arrive h.now ⟨c, r⟩).1
    dsimp only
    rw [he]

theorem clearSlots_slots (l : List Nat) (hl : l.Nodup) (j : Nat) : (h.clearSlots c l).1.registry.slots[j]? =
    h.registry.slots[j]?.map fun s => if j ∈ l then (s.arrive h.now ⟨c, .clear⟩).1 else s := by
  induction l generalizing h with
  | nil => simp [clearSlots]
  | cons i rest ih =>
    obtain ⟨hi, hrest⟩ := List.nodup_cons.1 hl
    have hfirst : (h.clearSlots c (i :: rest)).1 = ((h.visit c i .clear).1.clearSlots c rest).1 := by
      rw [clearSlots]
      split <;> rename_i he <;> rw [he]
    rw [hfirst, ih _ hrest, visit_slots, visit_now, Option.map_map]
    congr 1
    funext s
    by_cases hj : j = i
    · subst hj
      simp [hi]
    · simp [hj]

theorem shutdownAll_slots (report : Bool) (j : Nat) : (h.shutdownAll c report).registry.slots[j]? =
    h.registry.slots[j]?.map fun s => (s.arrive h.now ⟨c, .clear⟩).1 := by
  have hregistry : (h.shutdownAll c report).registry =
      (h.clearSlots c (List.range h.registry.slots.length)).1.registry := by
    unfold shutdownAll
    split <;> rename_i he <;> rw [he] <;> rfl
  rw [hregistry, clearSlots_slots h c _ List.nodup_range]
  cases hs : h.registry.slots[j]? with
  | none => rfl
  | some s => simp [(List.getElem?_eq_some_iff.1 hs).1]

theorem interrupt_slots (p : Progress) (j : Nat) :
    (h.interrupt c p).registry.slots[j]? = h.registry.slots[j]?.map (·.abandon c) := by
  obtain ⟨slots, woken, he, hslots⟩ := abandonSlots_eq h c
  have hregistry : (h.interrupt c p).registry = (h.abandonSlots c).registry := by
    unfold interrupt
    dsimp only
    split
    · exact spawn_registry ..
    · rfl
  rw [hregistry, he]
  exact hslots j

theorem withdraw_eq (e : EditorId) (token : Nat) :
    ∃ entries, h.withdraw e token = { h with attachments := entries } := by
  unfold withdraw
  split
  · split
    · exact ⟨_, rfl⟩
    · exact ⟨_, rfl⟩
  · exact ⟨_, rfl⟩

theorem withdraw_registry (e : EditorId) (token : Nat) : (h.withdraw e token).registry = h.registry := by
  obtain ⟨_, he⟩ := h.withdraw_eq e token
  rw [he]

theorem withdraw_calls (e : EditorId) (token : Nat) : (h.withdraw e token).calls = h.calls := by
  obtain ⟨_, he⟩ := h.withdraw_eq e token
  rw [he]

theorem withdraw_sessions (e : EditorId) (token : Nat) : (h.withdraw e token).sessions = h.sessions := by
  obtain ⟨_, he⟩ := h.withdraw_eq e token
  rw [he]

variable {h c} in
theorem crash_lands (hx : h.call? c = some x) (hp : ∀ r, x.progress ≠ .ended r) :
    ∃ (h₁ : Host) (r : Result), h.crash c = h₁.finish c r ∧ (r = .done ∨ r = .crashed) ∧
      h₁.registry = (h.interrupt c x.progress).registry ∧ h₁.calls = (h.interrupt c x.progress).calls ∧
      h₁.sessions = (h.interrupt c x.progress).sessions := by
  have hwithdraw (e : EditorId) (token : Nat) :
      ((h.interrupt c x.progress).withdraw e token).registry = (h.interrupt c x.progress).registry ∧
      ((h.interrupt c x.progress).withdraw e token).calls = (h.interrupt c x.progress).calls ∧
      ((h.interrupt c x.progress).withdraw e token).sessions = (h.interrupt c x.progress).sessions :=
    ⟨withdraw_registry .., withdraw_calls .., withdraw_sessions ..⟩
  rw [Ordered.crash_eq hx hp]
  split
  · exact ⟨_, _, rfl, .inl rfl, hwithdraw _ _⟩
  · exact ⟨_, _, rfl, .inl rfl, hwithdraw _ _⟩
  · exact ⟨_, _, rfl, .inl rfl, hwithdraw _ _⟩
  · exact ⟨_, _, rfl, .inl rfl, rfl, rfl, rfl⟩
  · exact ⟨_, _, rfl, .inr rfl, rfl, rfl, rfl⟩

theorem crash_slots {x : Call} (hx : h.call? c = some x) (hp : ∀ r, x.progress ≠ .ended r) (j : Nat) :
    (h.crash c).registry.slots[j]? = h.registry.slots[j]?.map (·.abandon c) := by
  obtain ⟨h₁, r, he, _, hregistry, _⟩ := crash_lands hx hp
  have hcrash : (h.crash c).registry = (h.interrupt c x.progress).registry := by
    rw [he]
    exact hregistry
  rw [hcrash, interrupt_slots]

theorem answered_registry {waiting : List Nat} {closed : List ConnectionId} {report : Bool}
    (hp : h.progress? c = some (.clearing waiting closed report)) (i : Nat) (a : Answer) :
    (h.answered c i a).registry = h.registry := by
  unfold answered
  rw [hp]
  dsimp only
  split <;> rfl

end Slots

theorem Ordered.clears_only (ho : h.Ordered none Q) (ht : ∀ x, h.call? c = some x → x.task = .shutdownAll)
    (hs : h.registry.slots[i]? = some s) (v : Visit) (hv : v ∈ s.visits) (hc : v.call = c) : v.request = .clear := by
  obtain ⟨x, hx⟩ := Option.isSome_iff_exists.1 (ho.known i s hs v hv)
  rw [hc] at hx
  have hasks := (ho.waits c x (by simp) hx i s hs v hv hc).asks
  rw [ht x hx] at hasks
  generalize v.request = r at hasks
  cases hasks with
  | shutdownAll => rfl
  | session ht => exact ht.elim

/-- Whatever a call to clear all slots does, in each slot it comes, or does one step. -/
theorem Happens.clears_slot (hh : h.Happens (some c) task h') (ho : h.Ordered none Q)
    (ht : ∀ x, h.call? c = some x → x.task = .shutdownAll) (hs : h.registry.slots[i]? = some s) :
    ∃ s', h'.registry.slots[i]? = some s' ∧ ((s' = s ∨ s.Step c s') ∨
      (s.Admits ⟨c, .clear⟩ ∧ s' = (s.arrive h.now ⟨c, .clear⟩).1)) := by
  have hstep {k : Nat} {t t' : Slot} (ht : h.registry.slots[k]? = some t) (hm : t' = t ∨ t.Step c t') :
      ∃ s', (h.setSlot k t').registry.slots[i]? = some s' ∧ ((s' = s ∨ s.Step c s') ∨
        (s.Admits ⟨c, .clear⟩ ∧ s' = (s.arrive h.now ⟨c, .clear⟩).1)) := by
    rw [setSlot_registry, Registry.setSlot_get ht]
    split
    · rename_i hi
      subst hi
      obtain rfl := Option.some.inj (ht.symm.trans hs)
      exact ⟨t', rfl, .inl hm⟩
    · exact ⟨s, hs, .inl (.inl rfl)⟩
  have habandon {h'' : Host} (he : h''.registry.slots[i]? = h.registry.slots[i]?.map (·.abandon c)) :
      ∃ s', h''.registry.slots[i]? = some s' ∧ ((s' = s ∨ s.Step c s') ∨
        (s.Admits ⟨c, .clear⟩ ∧ s' = (s.arrive h.now ⟨c, .clear⟩).1)) := by
    rw [he, hs]
    exact ⟨_, rfl, .inl (Slot.Lives.abandon_step s c)⟩
  cases hh with
  | calm => exact ⟨s, hs, .inl (.inl rfl)⟩
  | @begins _ t hx =>
    obtain rfl : t = .shutdownAll := ht _ hx
    refine ⟨(s.arrive h.now ⟨c, .clear⟩).1, ?_, .inr ⟨⟨fun w hw hc => ?_, by simp⟩, rfl⟩⟩
    · show (h.shutdownAll c true).registry.slots[i]? = _
      rw [shutdownAll_slots, hs]
      rfl
    · have hwaits := ho.waits c _ (by simp) hx i s hs w hw hc
      generalize w.request = r at hwaits
      cases hwaits <;> simp_all [releasing?]
  | waits hk _ _ _ hm hx => exact hstep hk hm
  | @answered k t v stage t' a x hk _ _ _ hm hx hw =>
    obtain ⟨waiting, closed, report, hp⟩ := hw.clears.resolve_right fun hno => hno true (by rw [ht x hx]; trivial)
    have hprogress : (h.setSlot k t').progress? v.call = some (.clearing waiting closed report) := by
      rw [progress?, call?, setSlot_calls, ← hp]
      exact congrArg (Option.map Call.progress) hx
    rw [answered_registry _ _ hprogress]
    exact hstep hk hm
  | dropped hx hp => exact habandon (interrupt_slots h c _ i)
  | crashed hx hp => exact habandon (crash_slots h c hx hp i)

/-- The connection is being stopped by the call, or is closed. -/
def Shutting (h : Host) (c : CallId) (i j : Nat) : Prop :=
  ∃ s : Slot, h.registry.slots[i]? = some s ∧ ((∃ v answer, s.work? = some (v, .stop (j + 1) answer) ∧ v.call = c) ∨
    ∃ d, s.connections[j]? = some d ∧ d.status = .closed)

/-- A call to clear all slots leaves a live connection as it was, or is now stopping it. -/
theorem Happens.shuts (hh : h.Happens (some c) task h') (ho : h.Ordered none Q)
    (ht : ∀ x, h.call? c = some x → x.task = .shutdownAll) (hs : h.registry.slots[i]? = some s) :
    ∃ s', h'.registry.slots[i]? = some s' ∧ s.Shuts c s' := by
  have hl := ho.sound.lives i s hs
  obtain ⟨s', hs', hstep | ⟨ha, rfl⟩⟩ := hh.clears_slot ho ht hs
  · exact ⟨s', hs', hl.shuts hstep (ho.clears_only ht hs)⟩
  · exact ⟨_, hs', hl.arrive_shuts ha h.now⟩

theorem Happens.shutting {actor : Option CallId} (hh : h.Happens actor task h') (ho : h.Ordered none Q)
    (hsound : h'.registry.Sound) (hstaged : h.Staged) (ht : ∀ x, h.call? c = some x → x.task = .shutdownAll)
    (hp : h.Shutting c i j) : h'.Shutting c i j := by
  obtain ⟨s, hs, ⟨v, answer, hw, hv⟩ | ⟨d, hd, hclosed⟩⟩ := hp
  · have hl := ho.sound.lives i s hs
    obtain ⟨since, hh'⟩ := Slot.holder_of_stop hw
    have hmem : v ∈ s.visits := by simp [Slot.visits, hh']
    by_cases hc : actor = some c
    · subst hc
      obtain ⟨s', hs', (rfl | hstep) | ⟨ha, _⟩⟩ := hh.clears_slot ho ht hs
      · exact ⟨s', hs', .inl ⟨v, answer, hw, hv⟩⟩
      · exact ⟨s', hs', .inr (hstep.closes hl hw hv).2⟩
      · exact absurd hv (ha.absent v hmem)
    · have hsome := hv ▸ ho.known i s hs v hmem
      obtain ⟨s', d, hs', hne, _, hspares⟩ := hh.spares hstaged hsome hc hs
      exact ⟨s', hs', .inl ⟨v, answer, hspares.work v _ (fun he => hne (he.symm.trans hv)) hw, hv⟩⟩
  · obtain ⟨t, e, _, _, hworks⟩ := hh.works hstaged
    obtain ⟨s', hs', hg, _⟩ := hworks.slot hs
    obtain ⟨d', hd', hages⟩ := hg.connections j d hd
    have hlaw := (ho.sound.lives i s hs).valid.lawful hd
    exact ⟨s', hs', .inr ⟨d', hd', hages.closed hlaw ((hsound.lives i s' hs').valid.lawful hd') hclosed⟩⟩

theorem Settled.shutting (hs : h.Settled False K) (hstaged : h.Staged) (hx : h.call? c = some x)
    (ht : x.task = .shutdownAll) (hp : h.Shutting c i j) (events : List Event) : (h.run events).Shutting c i j := by
  induction events generalizing h K x with
  | nil => exact hp
  | cons e events ih =>
    have hh := hs.ordered.happens e
    have hs' := hs.apply e False.elim
    obtain ⟨t, d, _, _, hw⟩ := hh.works hstaged
    obtain ⟨x', hx', htask, _⟩ := hw.call hx
    refine ih hs' (hh.staged hstaged) hx' (htask.trans ht) ?_
    refine hh.shutting hs.ordered hs'.ordered.sound hstaged (fun y hy => ?_) hp
    rwa [← Option.some.inj (hx.symm.trans hy)]

/-- The connection is closed, without references, and out of the table. -/
def Shut (h : Host) (id : ConnectionId) : Prop :=
  ∃ d, h.registry.byId? id = some d ∧ d.status = .closed ∧ d.refs = 0 ∧ ¬h.registry.Current id

theorem shut_of_closed (hsound : h.registry.Sound) {id : ConnectionId} (hs : h.registry.slots[id.slot]? = some s)
    (hj : id.generation = j + 1) {d : Connection} (hd : s.connections[j]? = some d) (hclosed : d.status = .closed) :
    h.Shut id := by
  have hvalid := (hsound.lives id.slot s hs).valid
  refine ⟨d, (Registry.byId?_eq hs hj).trans hd, hclosed, ?_, ?_⟩
  · exact (hvalid.lawful hd).refs_eq_zero (by simp [Connection.isLive, hclosed, Status.isLive])
  · have hfits := hvalid.table.fits j d hd
    rw [hclosed] at hfits
    rw [Registry.current_iff hs, hj]
    exact hfits

theorem Shutting.shut (hsound : h.registry.Sound) {id : ConnectionId} (hj : id.generation = j + 1)
    (habsent : ∀ s : Slot, h.registry.slots[id.slot]? = some s → ∀ v ∈ s.visits, v.call ≠ c)
    (hp : h.Shutting c id.slot j) : h.Shut id := by
  obtain ⟨s, hs, ⟨v, answer, hw, hv⟩ | ⟨d, hd, hclosed⟩⟩ := hp
  · obtain ⟨since, hh⟩ := Slot.holder_of_stop hw
    exact absurd hv (habsent s hs v (by simp [Slot.visits, hh]))
  · exact shut_of_closed hsound hs hj hd hclosed

theorem run_append (h : Host) (events events' : List Event) : h.run (events ++ events') = (h.run events).run events' :=
  List.foldl_append

theorem drop_eq (hx : h.call? c = some x) (hp : ∀ r, x.progress ≠ .ended r) :
    h.drop c = (h.interrupt c x.progress).finish c .dropped := by
  obtain ⟨task, p⟩ := x
  have hprogress : h.progress? c = some p := by rw [progress?, hx]; rfl
  unfold Host.drop
  rw [hprogress]
  cases p with
  | ended r => exact absurd rfl (hp r)
  | fresh | acquiring | releasing | releasingSession | clearing | reopening | opening | discarding | closing => rfl

/-- What becomes of a call on the registry that is given up, and of everything around it. -/
structure DropsWhole (h : Host) (c : CallId) (h' : Host) : Prop where
  ended : h'.progress? c = some (.ended .dropped)
  others : ∀ d, d ≠ c → h'.call? d = h.call? d
  nowhere : ∀ (i : Nat) (s : Slot), h'.registry.slots[i]? = some s → ∀ v ∈ s.visits, v.call ≠ c
  slots : ∀ (i : Nat) (s : Slot), h.registry.slots[i]? = some s → ∃ s', h'.registry.slots[i]? = some s' ∧ s.Drops c s'
  /-- Of a launch given up the next acquire makes a new one, whatever else the run brings in between. -/
  afresh : ∀ (i : Nat) (s s' : Slot) v, h.registry.slots[i]? = some s → s.work? = some (v, .launch) → v.call = c →
    h'.registry.slots[i]? = some s' → ∀ events (later : Slot) newer, (h'.run events).registry.slots[i]? = some later →
    later.log = newer ++ s'.log → (∀ t, .turn t ∈ newer → ¬t.request.Acquires) → later.Afresh s.generation

theorem Settled.drop_whole (hs : h.Settled False K) (hstaged : h.Staged) (hx : h.call? c = some x)
    (ht : x.task.OfRegistry) (hp : ∀ r, x.progress ≠ .ended r) : h.DropsWhole c (h.apply (.drop c)) := by
  have hs' := hs.apply (.drop c) False.elim
  have hsound' := hs'.ordered.sound
  have he : h.apply (.drop c) = (h.abandonSlots c).finish c .dropped := by
    have hreturning := ht.not_returning (hstaged c x hx)
    show h.drop c = _
    rw [drop_eq hx hp, Host.interrupt, hreturning]
    rfl
  obtain ⟨slots, woken, habandon, hslots⟩ := abandonSlots_eq h c
  have hget {i : Nat} : (h.apply (.drop c)).registry.slots[i]? = h.registry.slots[i]?.map (·.abandon c) := by
    rw [he, habandon]
    exact hslots i
  have hcall (d : CallId) : (h.abandonSlots c).call? d = h.call? d := by
    rw [habandon]
    rfl
  refine ⟨?_, fun d hd => ?_, fun i s' hi v hv => ?_, fun i s hi => ?_, fun i s s' v hi hw hv hi' events later newer
    hlater hlog hnewer => ?_⟩
  · rw [he]
    exact progress?_setProgress ((hcall c).trans hx) _
  · rw [he, Host.finish, call?_setProgress, if_neg hd, hcall]
  · rw [hget, Option.map_eq_some_iff] at hi
    obtain ⟨s, hi, rfl⟩ := hi
    rw [Slot.abandon_visits (hs.ordered.sound.lives i s hi).valid] at hv
    simpa using (List.mem_filter.1 hv).2
  · exact ⟨s.abandon c, by rw [hget, hi]; rfl, (hs.ordered.sound.lives i s hi).drops c⟩
  · subst hv
    obtain rfl : s.abandon v.call = s' := by
      rw [hget, hi] at hi'
      exact Option.some.inj hi'
    have hsound := (hs'.run events False.elim).ordered.sound
    have hnumber : later.number = s.number :=
      (hsound.numbers i later hlater).trans (hs.ordered.sound.numbers i s hi).symm
    exact (hs.ordered.sound.lives i s hi).abandon_afresh hw (hsound.lives i later hlater) hnumber hlog hnewer

/-- A call on the registry may be given up at any point: each slot is left as it was, or with what the call
was at there brought to its end. So a call to clear all slots that is given up has left every connection
that was live alone, or it is closed. -/
theorem drop_atomic (bounds : Bounds) (events : List Event) (c : CallId) (x : Call) :
    let h := (Host.new bounds).run events
    let h' := h.apply (.drop c)
    h.call? c = some x → x.task.OfRegistry → (∀ r, x.progress ≠ .ended r) → h.DropsWhole c h' ∧
      (x.task = .shutdownAll → ∀ before e after, events = before ++ e :: after →
        let h₁ := (Host.new bounds).run before
        h₁.actor e = some c → ∀ id d, h₁.registry.byId? id = some d → d.isLive = true →
          ((h₁.apply e).registry.byId? id = some d ∧
            ((h₁.apply e).registry.Current id ↔ h₁.registry.Current id)) ∨ h'.Shut id) := by
  intro h h' hx ht hp
  have hs : h.Settled False _ := (settled_new bounds).run events False.elim
  have hwhole := hs.drop_whole (run_staged bounds events) hx ht hp
  refine ⟨hwhole, ?_⟩
  intro htask before e after hevents h₁ hactor id d hd hlive
  have hs₁ : h₁.Settled False _ := (settled_new bounds).run before False.elim
  have hstaged₁ : h₁.Staged := run_staged bounds before
  have hh := hs₁.ordered.happens e
  have hrun : h = (h₁.apply e).run after := by
    show (Host.new bounds).run events = _
    rw [hevents, run_append]
    rfl
  have htask₁ (y : Call) (hy : h₁.call? c = some y) : y.task = .shutdownAll := by
    have hsince := run_since bounds before (e :: after)
    obtain ⟨y', hy', hty⟩ := hsince.calls c y hy
    obtain rfl : x = y' := Option.some.inj (hx.symm.trans ((congrArg (·.call? c) hrun).trans hy'))
    exact hty.symm.trans htask
  obtain ⟨s, j, hslot, hj, hc⟩ := Registry.byId?_slot hd
  rw [hactor] at hh
  obtain ⟨s', hslot', hshuts⟩ := hh.shuts hs₁.ordered htask₁ hslot
  -- The call has left the connection alone, or is stopping it now; then it is closed at the latest by the drop.
  rcases hshuts j d hc hlive with ⟨hc', hcurrent⟩ | hstop
  · refine .inl ⟨(Registry.byId?_eq hslot' hj).trans hc', ?_⟩
    rw [Registry.current_iff hslot', Registry.current_iff hslot, hj, hcurrent]
  · right
    have hp₁ : (h₁.apply e).Shutting c id.slot j := ⟨s', hslot', .inl hstop⟩
    have hs₂ := hs₁.apply e False.elim
    obtain ⟨y, hy⟩ : ∃ y, (h₁.apply e).call? c = some y := by
      obtain ⟨v, answer, hw, hv⟩ := hstop
      obtain ⟨since, hholder⟩ := Slot.holder_of_stop hw
      exact Option.isSome_iff_exists.1
        (hv ▸ hs₂.ordered.known id.slot s' hslot' v (by simp [Slot.visits, hholder]))
    have hstaged₂ := hh.staged hstaged₁
    obtain ⟨y', hy', hty⟩ := (hs₂.since hstaged₂ after).calls c y hy
    obtain rfl : x = y' := Option.some.inj (hx.symm.trans ((congrArg (·.call? c) hrun).trans hy'))
    have hp' := hs₂.shutting hstaged₂ hy (hty.symm.trans htask) hp₁ (after ++ [.drop c])
    rw [run_append, ← hrun] at hp'
    exact hp'.shut (hs.apply (.drop c) False.elim).ordered.sound hj fun t ht => hwhole.nowhere id.slot t ht

/-- A server is up for one key and being launched for another when a call begins to clear all slots. -/
def twoKeys : List Event :=
  let key (p : String) : ServerKey := ⟨⟨"rust", ["rs"], .new "ra", List.nodup_singleton _⟩, ⟨⟨p⟩⟩⟩
  [.call (.acquire (key "/p") none), .begin ⟨0⟩, .launched 0 (.ok ⟨none, none⟩), .call (.acquire (key "/q") none),
    .begin ⟨1⟩, .call .shutdownAll]

theorem clearing_given_up :
    let h := (Host.new default).run (twoKeys ++ [.begin ⟨2⟩])
    let h' := h.apply (.drop ⟨2⟩)
    h.DropsWhole ⟨2⟩ h' ∧ h'.Shut ⟨0, 1⟩ ∧ h'.registry.byId? ⟨1, 1⟩ = h.registry.byId? ⟨1, 1⟩ := by
  intro h h'
  obtain ⟨hwhole, hshut⟩ := drop_atomic default (twoKeys ++ [.begin ⟨2⟩]) ⟨2⟩ ⟨.shutdownAll, .clearing [0, 1] [] true⟩
    rfl trivial (by simp)
  refine ⟨hwhole, (hshut rfl twoKeys (.begin ⟨2⟩) [] rfl rfl ⟨0, 1⟩ _ rfl rfl).resolve_left ?_, rfl⟩
  rintro ⟨hsame, _⟩
  have hstatus := congrArg (Option.map Connection.status) hsame
  cases hstatus

end Host
end LanguageHost
