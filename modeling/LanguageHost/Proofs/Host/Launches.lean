import LanguageHost.Proofs.Host.Deeds
import LanguageHost.Proofs.Host.Errands

/-! Identities of launches: slots stand in the order in which their keys were first acquired, generations in
the order of launches, and whoever gives back a connection that is gone changes nothing. -/
namespace LanguageHost

namespace Slot
variable {s s' s'' : Slot} {c : CallId} {g : Nat}

/-- The slot knows the same of its servers, and nobody has gone to work inside. -/
structure Rests (s s' : Slot) : Prop where
  connections : s'.connections = s.connections
  current : s'.current = s.current
  finished : s'.finished = s.finished
  failure : s'.failure = s.failure
  work : ∀ v w, s'.work? = some (v, w) → s.work? = some (v, w)

theorem Rests.refl (s : Slot) : s.Rests s := ⟨rfl, rfl, rfl, rfl, fun _ _ hw => hw⟩

theorem Rests.trans (h : s.Rests s') (h' : s'.Rests s'') : s.Rests s'' :=
  ⟨h'.connections.trans h.connections, h'.current.trans h.current, h'.finished.trans h.finished,
    h'.failure.trans h.failure, fun v w hw => h.work v w (h'.work v w hw)⟩

theorem rests_leave (s : Slot) (t : Turn) : s.Rests (s.leave t) :=
  ⟨leave_connections s t, leave_current s t, leave_finished s t, leave_failure s t, by simp⟩

theorem Valid.rests_come (h : s.Valid) (v : Visit) : s.Rests (s.come v) := by
  obtain ⟨_, hwork, _, _, _, hcs, hcurrent, hfinished, hfailure⟩ := h.come_eq v
  exact ⟨hcs, hcurrent, hfinished, hfailure, fun w x hx => hwork ▸ hx⟩

/-- What a call needs that is to change anything: the connection it gives back is ready, or the call is
stopping it. -/
def Touchable (s : Slot) (c : CallId) (g : Nat) : Prop :=
  (∃ i d, g = i + 1 ∧ s.Ready i d) ∨ ∃ v answer, s.work? = some (v, .stop g answer) ∧ v.call = c

/-- A step of a call that is there to give one connection back changes nothing, unless that is at hand. -/
theorem Step.rests (h : s.Lives) (hs : s.Step c s')
    (hreturn : ∀ v ∈ s.visits, v.call = c → v.request = .release (some ⟨s.number, g⟩)) :
    s.Rests s' ∨ s.Touchable c g := by
  have hholder {v : Visit} {stage : Stage} (hh : s.holder = some ⟨v, stage⟩) (hv : v.call = c) :
      v.request = .release (some ⟨s.number, g⟩) := hreturn v (by simp [visits, hh]) hv
  have hstopping {v : Visit} {g' since : Nat} {answer : Answer} (hh : s.holder = some ⟨v, .stopping g' answer since⟩)
      (hv : v.call = c) : s.Touchable c g := by
    obtain ⟨rfl, _⟩ := h.stopping_expected (hholder hh hv) hh
    exact .inr ⟨v, answer, by simp [work?, hh], hv⟩
  cases hs with
  | come ha => exact .inl (h.valid.rests_come _)
  | serve hh hr =>
    have hv := hholder hh rfl
    cases hr with
    | ignore => exact .inl (rests_leave s _)
    | @drop expected i e n hr hready he =>
      obtain rfl := Request.release.inj (hr.symm.trans hv)
      exact .inr (.inl ⟨i, e, congrArg ConnectionId.generation (he _ rfl), hready⟩)
    | @last expected i e hr hready he =>
      obtain rfl := Request.release.inj (hr.symm.trans hv)
      exact .inr (.inl ⟨i, e, congrArg ConnectionId.generation (he _ rfl), hready⟩)
    | share hr | refuse hr | launch hr | forget hr | close hr => cases hr.symm.trans hv
  | launched hh | failed hh | dropLaunch hh => exact absurd hh (h.not_launching (hholder hh rfl))
  | stopped hh | dropStop hh => exact .inr (hstopping hh rfl)
  | dropGranted hh =>
    exact .inl ⟨handOver_connections _, handOver_current _, handOver_finished _, handOver_failure _, by simp⟩
  | dropQueued => exact .inl ⟨rfl, rfl, rfl, rfl, fun _ _ hw => hw⟩

theorem Lives.arrive_rests (h : s.Lives) (ha : s.Admits ⟨c, .release (some ⟨s.number, g⟩)⟩) (now : Nat) :
    s.Rests (s.arrive now ⟨c, .release (some ⟨s.number, g⟩)⟩).1 ∨ s.Touchable c g := by
  have hcome := h.valid.rests_come ⟨c, .release (some ⟨s.number, g⟩)⟩
  obtain ⟨hvisits, _, _, _, hnumber, _⟩ := h.valid.come_eq ⟨c, .release (some ⟨s.number, g⟩)⟩
  rcases h.arrive_steps ha now with he | hstep
  · exact .inl (he ▸ hcome)
  · have hreturn (v : Visit) (hv : v ∈ (s.come ⟨c, .release (some ⟨s.number, g⟩)⟩).visits) (hc : v.call = c) :
        v.request = .release (some ⟨(s.come ⟨c, .release (some ⟨s.number, g⟩)⟩).number, g⟩) := by
      rw [hvisits, List.mem_append, List.mem_singleton] at hv
      rw [hnumber]
      exact hv.elim (fun hv => absurd hc (ha.absent v hv)) fun hv => hv ▸ rfl
    refine (hstep.rests (h.step (.come ha)) hreturn).imp hcome.trans ?_
    rintro (⟨i, d, hg, hready⟩ | ⟨v, answer, hw, hv⟩)
    · exact .inl ⟨i, d, hg, hcome.current ▸ hready.1, hcome.connections ▸ hready.2.1, hready.2.2⟩
    · exact .inr ⟨v, answer, hcome.work v _ hw, hv⟩

end Slot

namespace Registry
variable {r : Registry} {i : Nat} {s : Slot}

theorem Sound.generations (h : r.Sound) (hs : r.slots[i]? = some s) :
    r.launches.filter (fun id => id.slot = i) = (List.range s.generation).map fun g => ⟨i, g + 1⟩ := by
  rw [h.launches i s hs, Slot.generation]
  refine List.ext_getElem? fun j => ?_
  rw [List.getElem?_map, List.getElem?_map]
  by_cases hj : j < s.connections.length
  · have hc := List.getElem?_eq_getElem hj
    rw [hc, List.getElem?_range hj, Option.map_some, Option.map_some, h.ids hs hc]
  · rw [List.getElem?_eq_none (Nat.not_lt.1 hj), List.getElem?_eq_none (by simpa using hj)]
    rfl

theorem Sound.fresh (h : r.Sound) : r.launches.Nodup := by
  rw [List.nodup_iff_count_le_one]
  intro id
  by_cases hid : id ∈ r.launches
  · have hs := List.getElem?_eq_getElem (h.bounded id hid)
    rw [← List.count_filter (p := fun x => x.slot = id.slot) (by simp), h.generations hs]
    refine List.nodup_iff_count_le_one.1 (List.nodup_range.map fun g g' hg => ?_) id
    exact Nat.succ.inj (congrArg ConnectionId.generation hg)
  · rw [List.count_eq_zero.2 hid]
    exact Nat.zero_le 1

private theorem length_eq_sum {α : Type} (f : α → Nat) (n : Nat) (l : List α) (h : ∀ a ∈ l, f a < n) :
    l.length = ∑ i ∈ Finset.range n, l.countP (f · = i) := by
  induction l with
  | nil => simp
  | cons a l ih =>
    have ha := h a List.mem_cons_self
    simp only [List.countP_cons, Finset.sum_add_distrib, List.length_cons,
      ← ih fun b hb => h b (List.mem_cons_of_mem a hb)]
    simp [ha]

theorem Sound.launchCount (h : r.Sound) : r.launchCount = (r.slots.map Slot.generation).sum := by
  have hslots : r.slots.map Slot.generation =
      (List.range r.slots.length).map fun i => r.launches.countP (·.slot = i) := by
    refine List.ext_getElem? fun j => ?_
    rw [List.getElem?_map, List.getElem?_map]
    by_cases hj : j < r.slots.length
    · have hs := List.getElem?_eq_getElem hj
      rw [hs, List.getElem?_range hj, Option.map_some, Option.map_some, List.countP_eq_length_filter, h.generations hs]
      simp
    · rw [List.getElem?_eq_none (Nat.not_lt.1 hj), List.getElem?_eq_none (by simpa using hj)]
      rfl
  rw [hslots]
  exact length_eq_sum ConnectionId.slot r.slots.length r.launches h.bounded

end Registry

/-- The connection is the current one of its key, and live. -/
def Registry.CurrentLive (r : Registry) (id : ConnectionId) : Prop :=
  r.Current id ∧ ∃ d, r.byId? id = some d ∧ d.isLive = true

namespace Host
variable {h h' : Host} {Q : Nat → Request → Prop} {c : CallId} {task : Option Task} {x : Call} {id : ConnectionId}
  {actor : Option CallId} {i : Nat} {s s' : Slot}

def Stops (h : Host) (c : CallId) (id : ConnectionId) : Prop :=
  ∃ s v answer, h.registry.slots[id.slot]? = some s ∧ s.work? = some (v, .stop id.generation answer) ∧ v.call = c

/-- A call that is there to give one connection back changes nothing unless that is the current live one of its
key, or is being stopped by the very call. -/
theorem Happens.rests (hh : h.Happens (some c) task h') (ho : h.Ordered none Q) (hs : h.Staged)
    (hx : h.call? c = some x) (hf : h.IsFor x id) (hslot : h.registry.slots[i]? = some s) :
    ∃ s', h'.registry.slots[i]? = some s' ∧ (s.Rests s' ∨ h.registry.CurrentLive id ∨ h.Stops c id) := by
  have hl := ho.sound.lives i s hslot
  obtain ⟨s', hslot', hm⟩ := hh.returns_slot ho hs hx hf hslot
  refine ⟨s', hslot', ?_⟩
  by_cases hi : i = id.slot
  · subst hi
    have hid : (⟨s.number, id.generation⟩ : ConnectionId) = id := by rw [ho.sound.numbers id.slot s hslot]
    have htouch (ht : s.Touchable c id.generation) : h.registry.CurrentLive id ∨ h.Stops c id := by
      rcases ht with ⟨j, d, hg, hready⟩ | ⟨v, answer, hw, hv⟩
      · exact .inl ⟨⟨s, hslot, hg ▸ hready.1⟩, d, (Registry.byId?_eq hslot hg).trans hready.2.1, hready.isLive⟩
      · exact .inr ⟨s, v, answer, hslot, hw, hv⟩
    rcases hm with (rfl | hstep) | ⟨-, ha, rfl⟩
    · exact .inl (.refl s')
    · refine (hstep.rests hl fun v hv hc => ?_).imp_right htouch
      rw [hid]
      exact (ho.returns_only hs hx hf hslot hv hc).2.1
    · have hrests := hl.arrive_rests (hid.symm ▸ ha) h.now
      rw [hid] at hrests
      exact hrests.imp_right htouch
  · have habsent (v : Visit) (hv : v ∈ s.visits) : v.call ≠ c := fun hc =>
      hi (ho.returns_only hs hx hf hslot hv hc).1
    rcases hm with (rfl | hstep) | ⟨he, -⟩
    · exact .inl (.refl s')
    · refine .inl (((hstep.rests (g := 0) hl fun v hv hc => absurd hc (habsent v hv))).resolve_right ?_)
      rintro (⟨j, d, hg, -⟩ | ⟨v, answer, hw, hv⟩)
      · cases hg
      · exact habsent v (Slot.mem_of_work hw) hv
    · exact absurd he hi

theorem Happens.work_back (hh : h.Happens actor task h') (hs : h.Staged) (hslot : h'.registry.slots[i]? = some s')
    {v : Visit} {w : Work} (hw : s'.work? = some (v, w)) (hv : actor ≠ some v.call) :
    ∃ s, h.registry.slots[i]? = some s ∧ s.work? = some (v, w) := by
  rcases hh.deeds hs with he | ⟨c, x, asks, hc, _, _, hd⟩
  · exact ⟨s', he ▸ hslot, hw⟩
  · exact hd.work_back hslot hw fun he => hv (hc.trans (congrArg some he.symm))

def askedIn (h : Host) (e : Event) : List ServerKey :=
  Registry.newlyAsked h.registry.marks (h.apply e).registry.marks

def asked (bounds : Bounds) (events : List Event) : List ServerKey :=
  (Host.new bounds).chronicle (fun h e keys => keys ++ h.askedIn e) [] events

/-- The slots are the same at both moments, and what they know of their servers. -/
def SameServers (h h' : Host) : Prop :=
  h'.registry.slots.length = h.registry.slots.length ∧
    ∀ (i : Nat) (s : Slot), h.registry.slots[i]? = some s → ∃ s', h'.registry.slots[i]? = some s' ∧ s.Rests s'

/-- At some event of the call the connection was the current live one of its key. -/
def Met (bounds : Bounds) (events : List Event) (c : CallId) (id : ConnectionId) : Prop :=
  ∃ before e after, events = before ++ e :: after ∧ ((Host.new bounds).run before).actor e = some c ∧
    ((Host.new bounds).run before).registry.CurrentLive id

/-- What slots and connections are called. -/
structure Identified (h : Host) (asked : List ServerKey) : Prop where
  /-- The slots stand in the order in which their keys were first asked for, one for all keys that are equal. -/
  order : h.registry.slots.map Slot.key = asked.eraseDups
  numbers : ∀ (i : Nat) (s : Slot), h.registry.slots[i]? = some s → s.number = i
  equal : ∀ key key', (key == key') = true → h.registry.slotIndex? key = h.registry.slotIndex? key'
  unequal : ∀ key key' i, h.registry.slotIndex? key = some i → h.registry.slotIndex? key' = some i →
    (key == key') = true
  acquires : ∀ c key document, h.call? c = some ⟨.acquire key document, .fresh⟩ → key.isValid = true →
    h.askedIn (.begin c) = [key]
  /-- Nothing but an acquire or an open asks for a key, and only for its own. -/
  asks : ∀ e key, key ∈ h.askedIn e → ∃ c x, h.actor e = some c ∧ h.call? c = some x ∧ x.task.MayAsk (some key)
  /-- A release of a key that nobody has asked for leaves no trace. -/
  unknown : ∀ c key, h.call? c = some ⟨.release key, .fresh⟩ → (∀ k ∈ asked, (k == key) = false) →
    (h.apply (.begin c)).registry = h.registry
  generations : ∀ (i : Nat) (s : Slot), h.registry.slots[i]? = some s →
    h.registry.launches.filter (fun id => id.slot = i) = (List.range s.generation).map fun g => ⟨i, g + 1⟩
  fresh : h.registry.launches.Nodup
  count : h.registry.launchCount = (h.registry.slots.map Slot.generation).sum

theorem slots_length (hd : h.registry.Deeds c none h'.registry) :
    h'.registry.slots.length = h.registry.slots.length := by
  rw [← Registry.marks_length, hd.marks, ← Registry.marks_length]
  rfl

theorem Happens.same_slots (hh : h.Happens (some c) task h') (hs : h.Staged) (hx : h.call? c = some x)
    (ht : x.task = .releaseConnection id) : h'.registry.slots.length = h.registry.slots.length := by
  rcases hh.deeds hs with he | ⟨d, x₀, asks, hd, hx₀, hasks, hdeeds⟩
  · rw [he]
  · obtain rfl := Option.some.inj hd
    obtain rfl := Option.some.inj (hx.symm.trans hx₀)
    rw [ht] at hasks
    cases asks with
    | none => exact slots_length hdeeds
    | some key => exact hasks.elim

/-- A call that is stopping the connection that it gives back was doing so before, or has just met it as the current
live one of its key. -/
theorem Happens.stops_back (hh : h.Happens actor task h') (ho : h.Ordered none Q) (hs : h.Staged)
    (hx : h'.call? c = some x) (ht : x.task = .releaseConnection id) (hstops : h'.Stops c id) :
    ∃ x₀, h.call? c = some x₀ ∧ x₀.task = .releaseConnection id ∧
      (h.Stops c id ∨ actor = some c ∧ h.registry.CurrentLive id) := by
  obtain ⟨s', v, answer, hslot', hw, hv⟩ := hstops
  have htask {x₀ : Call} (hx₀ : h.call? c = some x₀) : x₀.task = .releaseConnection id :=
    (hh.same_task hs hx₀ hx).trans ht
  have hearlier {s : Slot} (hslot : h.registry.slots[id.slot]? = some s)
      (hw : s.work? = some (v, .stop id.generation answer)) : ∃ x₀, h.call? c = some x₀ ∧
        x₀.task = .releaseConnection id ∧ (h.Stops c id ∨ actor = some c ∧ h.registry.CurrentLive id) := by
    obtain ⟨x₀, hx₀⟩ := Option.isSome_iff_exists.1 (hv ▸ ho.known id.slot s hslot v (Slot.mem_of_work hw))
    exact ⟨x₀, hx₀, htask hx₀, .inl ⟨s, v, answer, hslot, hw, hv⟩⟩
  by_cases ha : actor = some c
  · rcases hh.deeds hs with he | ⟨d, x₀, _, hd, hx₀, _, _⟩
    · exact hearlier (he ▸ hslot') hw
    · obtain rfl : d = c := Option.some.inj (hd.symm.trans ha)
      subst ha
      have hlt : id.slot < h.registry.slots.length :=
        hh.same_slots hs hx₀ (htask hx₀) ▸ (List.getElem?_eq_some_iff.1 hslot').1
      have hslot := List.getElem?_eq_getElem hlt
      obtain ⟨t, ht', hrests | hlive | hstops⟩ := hh.rests ho hs hx₀ (.inl (htask hx₀)) hslot
      · obtain rfl := Option.some.inj (hslot'.symm.trans ht')
        exact hearlier hslot (hrests.work v _ hw)
      · exact ⟨x₀, hx₀, htask hx₀, .inr ⟨rfl, hlive⟩⟩
      · exact ⟨x₀, hx₀, htask hx₀, .inl hstops⟩
  · obtain ⟨s, hslot, hw⟩ := hh.work_back hs hslot' hw fun he => ha (he.trans (congrArg some hv))
    exact hearlier hslot hw

section Run
variable (bounds : Bounds) (events : List Event)

private theorem run_concat (e : Event) :
    (Host.new bounds).run (events ++ [e]) = ((Host.new bounds).run events).apply e := run_append _ _ _

theorem slots_order : ((Host.new bounds).run events).registry.slots.map Slot.key = (asked bounds events).eraseDups := by
  refine run_chronicle bounds events (P := fun h (keys : List ServerKey) => h.registry.slots.map Slot.key = keys.eraseDups) rfl ?_
  intro h keys e ho hs hh hkeys
  show (h.apply e).registry.slots.map Slot.key = (keys ++ h.askedIn e).eraseDups
  rcases hh.asking hs with hm | ⟨_, _, key, _, _, _, hm⟩
  · rw [askedIn, hm, Registry.newlyAsked_self, List.append_nil, ← hkeys, ← Registry.marks_keys, hm, Registry.marks_keys]
  · rw [askedIn, hm, Registry.newlyAsked_ask, eraseDups_concat, ← Registry.marks_keys, hm, Registry.ask_keys,
      Registry.marks_keys, hkeys, any_eraseDups]

/-- A connection is stopped by a call that met it as the current live one of its key. -/
theorem met_of_stops {c : CallId} {x : Call} {id : ConnectionId} (hx : ((Host.new bounds).run events).call? c = some x)
    (ht : x.task = .releaseConnection id) (hstops : ((Host.new bounds).run events).Stops c id) :
    Met bounds events c id := by
  induction events using List.reverseRecOn generalizing x with
  | nil =>
    obtain ⟨s, _, _, hslot, _⟩ := hstops
    cases hslot
  | append_singleton events e ih =>
    rw [run_concat] at hx hstops
    obtain ⟨x₀, hx₀, ht₀, hstops | ⟨ha, hlive⟩⟩ :=
      ((run_ordered bounds events).happens e).stops_back (run_ordered bounds events) (run_staged bounds events) hx ht hstops
    · obtain ⟨before, e₁, after, he, hmet⟩ := ih hx₀ ht₀ hstops
      exact ⟨before, e₁, after ++ [e], by rw [he, List.append_assoc, List.cons_append], hmet⟩
    · exact ⟨events, e, [], rfl, ha, hlive⟩

/-- A call that is there to give one connection back changes nothing but that, and nothing at all unless it meets
it as the current live one of its key. -/
theorem stale_release (e : Event) {c : CallId} {x : Call} {id : ConnectionId}
    (ha : ((Host.new bounds).run events).actor e = some c)
    (hx : ((Host.new bounds).run events).call? c = some x) (ht : x.task = .releaseConnection id) :
    ((Host.new bounds).run events).LeavesOthers id (((Host.new bounds).run events).apply e) ∧
      (((Host.new bounds).run events).SameServers (((Host.new bounds).run events).apply e) ∨
        Met bounds (events ++ [e]) c id) := by
  have ho := run_ordered bounds events
  have hs := run_staged bounds events
  have hh := ho.happens e
  rw [ha] at hh
  refine ⟨hh.leaves_others ho hs hx (.inl ht), ?_⟩
  by_cases hmet : Met bounds (events ++ [e]) c id
  · exact .inr hmet
  have hlive : ¬((Host.new bounds).run events).registry.CurrentLive id := fun hlive =>
    hmet ⟨events, e, [], rfl, ha, hlive⟩
  have hstops : ¬((Host.new bounds).run events).Stops c id := fun hstops => by
    obtain ⟨before, e₁, after, he, hrest⟩ := met_of_stops bounds events hx ht hstops
    exact hmet ⟨before, e₁, after ++ [e], by rw [he, List.append_assoc, List.cons_append], hrest⟩
  refine .inl ⟨hh.same_slots hs hx ht, fun i s hslot => ?_⟩
  obtain ⟨s', hslot', hrests⟩ := hh.rests ho hs hx (.inl ht) hslot
  exact ⟨s', hslot', hrests.resolve_right (not_or.2 ⟨hlive, hstops⟩)⟩

theorem identified : ((Host.new bounds).run events).Identified (asked bounds events) := by
  have ho := run_ordered bounds events
  have hs := run_staged bounds events
  have horder := slots_order bounds events
  generalize (Host.new bounds).run events = h at ho hs horder
  refine ⟨horder, ho.sound.numbers, ?_, ?_, ?_, ?_, ?_, fun i s hslot => ho.sound.generations hslot, ho.sound.fresh,
    ho.sound.launchCount⟩
  · exact fun key key' hk => Registry.slotIndex?_congr hk
  · intro key key' i hi hi'
    obtain ⟨s, hslot, hk⟩ := Registry.Sound.slotIndex?_slot hi
    obtain ⟨s', hslot', hk'⟩ := Registry.Sound.slotIndex?_slot hi'
    obtain rfl := Option.some.inj (hslot.symm.trans hslot')
    exact BEq.trans (BEq.symm hk) hk'
  · intro c key document hx hvalid
    have hd := acquire_deeds (c := c) (.idle (r := h.registry)) key document
    have happly : h.apply (.begin c) = h.acquire c key document := apply_begin hx
    rw [if_pos hvalid] at hd
    rw [askedIn, happly, hd.marks]
    exact Registry.newlyAsked_ask key _
  · intro e key hkey
    rcases (ho.happens e).asking hs with hm | ⟨c, x, k, hc, hx, ht, hm⟩
    · rw [askedIn, hm, Registry.newlyAsked_self] at hkey
      cases hkey
    · rw [askedIn, hm, Registry.newlyAsked_ask] at hkey
      obtain rfl := List.mem_singleton.1 hkey
      exact ⟨c, x, hc, hx, ht⟩
  · intro c key hx hnone
    have hi : h.registry.slotIndex? key = none := by
      refine List.findIdx?_eq_none_iff.2 fun s hmem => ?_
      have hany : (h.registry.slots.map Slot.key).any (· == key) = false := by
        rw [horder, any_eraseDups]
        simpa using hnone
      simpa using List.any_eq_false.1 hany s.key (List.mem_map_of_mem hmem)
    rw [apply_begin hx]
    show (h.beginPlainRelease c (h.registry.slotIndex? key) none).registry = _
    rw [hi]
    rfl

/-- Slots and launches are numbered in order and never again, and whoever holds a connection that is gone can
do no harm with it. -/
theorem launch_identities :
    ((Host.new bounds).run events).Identified (asked bounds events) ∧
    ∀ e c x id, ((Host.new bounds).run events).actor e = some c → ((Host.new bounds).run events).call? c = some x →
      x.task = .releaseConnection id →
      ((Host.new bounds).run events).LeavesOthers id (((Host.new bounds).run events).apply e) ∧
        (((Host.new bounds).run events).SameServers (((Host.new bounds).run events).apply e) ∨
          Met bounds (events ++ [e]) c id) :=
  ⟨identified bounds events, fun e _ _ _ ha hx ht => stale_release bounds events e ha hx ht⟩

end Run

/-- A server is closed whoever holds it and launched again; then its first holder comes to give it back. -/
def relaunched : List Event :=
  let key : ServerKey := ⟨⟨"rust", ["rs"], .new "ra", List.nodup_singleton _⟩, ⟨⟨"/p"⟩⟩⟩
  [.call (.acquire key none), .begin ⟨0⟩, .launched 0 (.ok ⟨none, none⟩), .call .shutdownAll, .begin ⟨1⟩, .stopped 0,
    .call (.acquire key none), .begin ⟨2⟩, .launched 0 (.ok ⟨none, none⟩), .call (.releaseConnection ⟨0, 1⟩)]

theorem first_holder_late :
    let h := (Host.new default).run relaunched
    h.registry.launches = [⟨0, 1⟩, ⟨0, 2⟩] ∧ h.SameServers (h.apply (.begin ⟨3⟩)) := by
  intro h
  refine ⟨rfl, ((launch_identities default relaunched).2 (.begin ⟨3⟩) ⟨3⟩ _ ⟨0, 1⟩ rfl rfl rfl).2.resolve_right ?_⟩
  rintro ⟨before, e, after, he, ha, hlive⟩
  have hlt : before.length < 11 := by
    have hlength := congrArg List.length he
    simp only [relaunched, List.length_append, List.length_cons, List.length_nil] at hlength
    omega
  have hbefore : before = (relaunched ++ [Event.begin ⟨3⟩]).take before.length := by rw [he, List.take_left]
  have hevent : (relaunched ++ [Event.begin ⟨3⟩])[before.length]? = some e := by
    rw [he, List.getElem?_append_right (Nat.le_refl _), Nat.sub_self, List.getElem?_cons_zero]
  generalize before.length = n at hlt hbefore hevent
  subst hbefore
  -- Before the call begins it is nobody's turn; as it begins, another connection is the current one.
  interval_cases n <;> cases hevent
  rotate_right
  · obtain ⟨⟨s, hslot, hcurrent⟩, _⟩ := hlive
    cases hslot
    cases hcurrent
  all_goals cases ha

end Host

end LanguageHost
