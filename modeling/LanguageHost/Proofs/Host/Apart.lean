import LanguageHost.Proofs.Host.Mirrors
import LanguageHost.Proofs.Registry.Errands

/-! Keys do not interfere: a run and what is left of it without the calls on one key go in step, and no call on
another key can tell. -/
namespace LanguageHost

namespace Removal
variable {m : Removal} {h h₀ : Host} {i : Nat} {s : Slot} {c : CallId} {x x₀ : Call} {Q : Nat → Request → Prop}

theorem rename_work? (s : Slot) : (s.rename m.numbers).work?.map (·.1.call) =
    s.work?.map fun w => m.numbers.call w.1.call := by
  unfold Slot.work?
  rw [Slot.rename_holder]
  rcases s.holder with _ | ⟨v, _ | _ | _⟩ <;> rfl

theorem crashIn_inside (h : Host) (i : Nat) : h.crashIn i = (inside? h i).elim h h.crash := h.crashIn_eq i

theorem inside?_eq_some {h : Host} (hc : inside? h i = some c) :
    ∃ s v, h.registry.slots[i]? = some s ∧ v ∈ s.visits ∧ v.call = c := by
  obtain ⟨⟨v, w⟩, hw, rfl⟩ := Option.map_eq_some_iff.1 hc
  obtain ⟨s, hs, hw⟩ := Option.bind_eq_some_iff.1 hw
  exact ⟨s, v, hs, Slot.mem_of_work hw, rfl⟩

theorem Same.begins {t : Task} (hs : m.Same ⟨t, .fresh⟩ x₀) : x₀ = ⟨t.rename m.numbers, .fresh⟩ := by
  cases hs <;> rfl

theorem Same.begins_back {t : Task} (hs : m.Same x ⟨t, .fresh⟩) : x.progress = .fresh := by
  obtain ⟨task, p⟩ := x
  cases p <;> cases hs <;> rfl

namespace Mirrors

theorem inside? (hm : m.Mirrors h h₀) (hi : m.slot? ≠ some i) :
    Removal.inside? h₀ (m.numbers.slot i) = (Removal.inside? h i).map m.numbers.call := by
  unfold Removal.inside?
  rw [hm.registry i hi]
  cases h.registry.slots[i]? with
  | none => rfl
  | some s =>
    rw [Option.map_some, Option.bind_some, Option.bind_some, rename_work?, Option.map_map]
    rfl

section Kept
variable {h' : Host} {e₀ : Event}

/-- What happens in a slot happens in what is left too, unless the slot was taken out. -/
theorem inSlot (hkept : m.slot? ≠ some i → m.Mirrors h' (h₀.apply e₀)) (haside : m.slot? = some i → m.Mirrors h' h₀) :
    m.Mirrors h' (h₀.run (if m.keepsSlot i then some e₀ else none).toList) := by
  split
  · rename_i hk
    exact hkept (keepsSlot_iff.1 hk)
  · rename_i hk
    exact haside (not_not.1 (mt keepsSlot_iff.2 hk))

/-- What happens to a call happens in what is left too, unless the call is on the key. -/
theorem byCall (hm : m.Mirrors h h₀) (hx : h.call? c = some x)
    (hkept : m.keeps x.task = true → m.Mirrors h' (h₀.apply e₀))
    (haside : m.keeps x.task = false → m.Mirrors h' h₀) :
    m.Mirrors h' (h₀.run (if m.keepsCall c then some e₀ else none).toList) := by
  rw [keepsCall_of (hm.tasks c x hx)]
  cases hk : m.keeps x.task with
  | true => exact hkept hk
  | false => exact haside hk

theorem idle (hm : m.Mirrors h h₀) (kept : Bool) (he : h₀.apply e₀ = h₀) :
    m.Mirrors h (h₀.run (if kept then some e₀ else none).toList) := by
  cases kept with
  | true =>
    show m.Mirrors h (h₀.apply e₀)
    rwa [he]
  | false => exact hm

end Kept

section Apply
variable (hm : m.Mirrors h h₀) (ho : h.Ordered none Q) (ht : ∀ c x, h.call? c = some x → x.task.OfRegistry)
  (hp : m.Places h.registry)
include hm ho ht hp

theorem launched (hi : m.slot? ≠ some i) (outcome : Except Error Process) :
    m.Mirrors (h.stepSlot i fun s => s.launched outcome)
      (h₀.stepSlot (m.numbers.slot i) fun s => s.launched outcome) :=
  hm.stepSlot ho ht hp hi (·.launched outcome) (·.launched outcome) fun s _ => Slot.rename_launched s outcome

theorem stopped (hi : m.slot? ≠ some i) :
    m.Mirrors (h.stepSlot i Slot.stopped) (h₀.stepSlot (m.numbers.slot i) Slot.stopped) :=
  hm.stepSlot ho ht hp hi Slot.stopped Slot.stopped fun s _ => Slot.rename_stopped s

theorem enter (hi : m.slot? ≠ some i) : m.Mirrors (h.stepSlot i fun s => s.enter h.now)
    (h₀.stepSlot (m.numbers.slot i) fun s => s.enter h₀.now) := by
  refine hm.stepSlot ho ht hp hi (·.enter h.now) (·.enter h₀.now) fun s hs => ?_
  rw [hm.now]
  refine Slot.rename_enter s h.now fun v stage hh => distinguishes ho.sound hs fun id hq => ?_
  have hv : v ∈ s.visits := by simp [Slot.visits, hh]
  obtain ⟨x, hx⟩ := Option.isSome_iff_exists.1 (ho.known i s hs v hv)
  have hw := ho.waits v.call x (by simp) hx i s hs v hv rfl
  rw [hq] at hw
  cases hw with
  | returning _ _ hi => exact hi.symm
  | session _ _ _ hi => exact hi.symm

theorem expire (hi : m.slot? ≠ some i) : m.Mirrors (h.expire i) (h₀.expire (m.numbers.slot i)) := by
  unfold Host.expire
  cases hs : h.registry.slots[i]? with
  | none =>
    rw [hm.registry.get_none hi hs]
    exact hm
  | some s =>
    have hdue : h₀.isDue (s.rename m.numbers) = h.isDue s := by
      simp only [Host.isDue, Host.deadline?, Slot.rename_deadline?, hm.bounds, hm.now]
    have htimeout : h₀.launchTimeout = h.launchTimeout := by
      simp only [Host.launchTimeout, hm.bounds]
    rw [hm.registry.get hi hs]
    simp only [hdue, htimeout, Slot.rename_holder]
    split
    · rcases s.holder with _ | ⟨v, _ | _ | _⟩
      · exact hm.stopped ho ht hp hi
      · exact hm.stopped ho ht hp hi
      · exact hm.launched ho ht hp hi h.launchTimeout
      · exact hm.stopped ho ht hp hi
    · exact hm

theorem expire_aside (hi : m.slot? = some i) : m.Mirrors (h.expire i) h₀ := by
  rcases h.expire_cases i with hsame | hlaunched | hstopped
  · rw [hsame]
    exact hm
  · rw [hlaunched]
    exact hm.stepSlot_aside ho ht hp hi _
  · rw [hstopped]
    exact hm.stepSlot_aside ho ht hp hi _

section Crash
variable (hstaged : h.Staged)
include hstaged

theorem crashIn (hi : m.slot? ≠ some i) : m.Mirrors (h.crashIn i) (h₀.crashIn (m.numbers.slot i)) := by
  rw [crashIn_inside, crashIn_inside, hm.inside? hi]
  cases hc : Removal.inside? h i with
  | none => exact hm
  | some c =>
    obtain ⟨s, v, hs, hv, rfl⟩ := inside?_eq_some hc
    obtain ⟨x, hx⟩ := Option.isSome_iff_exists.1 (ho.known i s hs v hv)
    exact hm.crash ho ht hp hstaged hs hv hx hi

theorem crashIn_aside (hi : m.slot? = some i) : m.Mirrors (h.crashIn i)
    (((Removal.inside? h i).filter m.keepsCall).elim h₀ fun c => h₀.drop (m.numbers.call c)) := by
  rw [crashIn_inside]
  cases hc : Removal.inside? h i with
  | none => exact hm
  | some c =>
    obtain ⟨s, v, hs, hv, rfl⟩ := inside?_eq_some hc
    obtain ⟨x, hx⟩ := Option.isSome_iff_exists.1 (ho.known i s hs v hv)
    rw [Option.filter_some, keepsCall_of (hm.tasks _ x hx)]
    split
    · rename_i hk
      exact hm.crash_right ho ht hp hstaged hs hv hx hi hk
    · rename_i hk
      exact hm.crash_aside ho ht hp hstaged hs hv hx (Bool.eq_false_iff.2 hk)

end Crash

theorem begins (hsound₀ : h₀.registry.Sound) (hp' : m.Places (h.apply (.begin c)).registry) :
    m.Mirrors (h.apply (.begin c)) (h₀.run (m.event? h (.begin c)).toList) := by
  rw [event?]
  cases hx : h.call? c with
  | none =>
    rw [Host.apply_begun (by simp [hx])]
    exact hm.idle _ (Host.apply_begun (by simp [hm.call_none hx]))
  | some x =>
    obtain ⟨t, p⟩ := x
    by_cases hfresh : p = .fresh
    · subst hfresh
      rw [Host.apply_begin hx] at hp' ⊢
      refine hm.byCall hx (fun hk => ?_) fun hk => hm.begin_aside ho hp hx hk hp'
      obtain ⟨x₀, hx₀, hs⟩ := hm.calls c _ hx hk
      rw [Host.apply_begin (hx₀.trans (congrArg some hs.begins))]
      exact hm.begin ho hsound₀ ht hp hx hk hp'
    · rw [Host.apply_begun (by simpa [hx] using hfresh)]
      refine hm.byCall hx (fun hk => ?_) fun _ => hm
      obtain ⟨x₀, hx₀, hs⟩ := hm.calls c _ hx hk
      rw [Host.apply_begun fun t' he => hfresh (Same.begins_back (Option.some.inj (hx₀.symm.trans he) ▸ hs))]
      exact hm

theorem drops (hstaged : h.Staged) (c : CallId) :
    m.Mirrors (h.apply (.drop c)) (h₀.run (m.event? h (.drop c)).toList) := by
  rw [event?]
  cases hx : h.call? c with
  | none =>
    have he : h.apply (.drop c) = h := drop_none hx
    rw [he]
    exact hm.idle _ (drop_none (hm.call_none hx))
  | some x => exact hm.byCall hx (hm.drop ho ht hp hstaged hx) (hm.drop_aside ho ht hp hstaged hx)

/-- Whatever happens is seen in what is left, or is a call's on the key. -/
theorem apply (hstaged : h.Staged) (hsound₀ : h₀.registry.Sound) (e : Event) (hp' : m.Places (h.apply e).registry)
    (hcall : ∀ t, e = .call t → m.tasks[h.calls.length]? = some t) :
    m.Mirrors (h.apply e) (h₀.run (m.event? h e).toList) := by
  cases e with
  | call t =>
    rw [event?]
    split
    · rename_i hk
      exact hm.spawn (hcall t rfl) hk
    · rename_i hk
      exact hm.spawn_left (hcall t rfl) (Bool.eq_false_iff.2 hk)
  | session id uri => exact hm.frame rfl rfl rfl rfl rfl rfl hm.registry
  | tick n => exact ⟨hm.bounds, congrArg (· + n) hm.now, hm.registry, hm.tasks, hm.count, hm.calls⟩
  | enter i => exact inSlot (hm.enter ho ht hp) fun hi => hm.stepSlot_aside ho ht hp hi _
  | launched i outcome => exact inSlot (hm.launched ho ht hp · outcome) fun hi => hm.stepSlot_aside ho ht hp hi _
  | stopped i => exact inSlot (hm.stopped ho ht hp) fun hi => hm.stepSlot_aside ho ht hp hi _
  | expire i => exact inSlot (hm.expire ho ht hp) (hm.expire_aside ho ht hp)
  | crash i =>
    rw [event?]
    split
    · rename_i hk
      exact hm.crashIn ho ht hp hstaged (keepsSlot_iff.1 hk)
    · rename_i hk
      have hc := hm.crashIn_aside ho ht hp hstaged (not_not.1 (mt keepsSlot_iff.2 hk))
      revert hc
      cases (Removal.inside? h i).filter m.keepsCall <;> exact id
  | drop c => exact hm.drops ho ht hp hstaged c
  | begin c => exact hm.begins ho ht hp hsound₀ hp'

end Apply

end Mirrors

theorem events_concat (m : Removal) (h : Host) (events : List Event) (e : Event) :
    m.events h (events ++ [e]) = m.events h events ++ (m.event? (h.run events) e).toList := by
  induction events generalizing h with
  | nil => simp [Removal.events, Host.run]
  | cons e' events ih =>
    rw [List.cons_append, Removal.events, Removal.events, ih, List.append_assoc]
    rfl

/-- A run and what is left of it go in step. -/
theorem run_mirrors (bounds : Bounds) (events : List Event)
    (hplaces : ∀ before after, events = before ++ after → m.Places ((Host.new bounds).run before).registry)
    (hcalls : ∀ before after, events = before ++ after → ∀ c x, ((Host.new bounds).run before).call? c = some x →
      m.tasks[c.number]? = some x.task ∧ x.task.OfRegistry) :
    m.Mirrors ((Host.new bounds).run events) ((Host.new bounds).run (m.events (Host.new bounds) events)) := by
  induction events using List.reverseRecOn with
  | nil =>
    have hcount : (m.numbers.call ⟨0⟩).number = 0 := by simp [numbers]
    refine ⟨rfl, rfl, fun i _ => rfl, fun c x hx => ?_, hcount.symm, fun c x hx => ?_⟩
    · exact (hcalls [] [] rfl c x hx).1
    · simp [Host.run, Host.new, Host.call?] at hx
  | append_singleton events e ih =>
    have hsub {before after : List Event} (he : events = before ++ after) :
        events ++ [e] = before ++ (after ++ [e]) := by rw [he, List.append_assoc]
    have hm := ih (fun before after he => hplaces before _ (hsub he)) fun before after he => hcalls before _ (hsub he)
    have hp := hplaces events [e] rfl
    have hp' := hplaces (events ++ [e]) [] (by simp)
    have hlast := hcalls (events ++ [e]) [] (by simp)
    rw [events_concat, Host.run_append, Host.run_append]
    rw [Host.run_append] at hp' hlast
    refine hm.apply (Host.run_ordered bounds events) (fun c x hx => (hcalls events [e] rfl c x hx).2) hp
      (Host.run_staged bounds events) (Host.run_ordered bounds _).sound e hp' ?_
    rintro t rfl
    have hnew : (((Host.new bounds).run events).run [.call t]).call? ⟨((Host.new bounds).run events).calls.length⟩ =
        some ⟨t, .fresh⟩ := by
      show (((Host.new bounds).run events).spawn t).call? _ = _
      rw [Host.call?_spawn, if_pos rfl]
    exact (hlast _ _ hnew).1

end Removal

namespace Host

/-- What is left of a run without the calls on a key, against the whole: whatever the calls on the key did, and
however long they take, all others find the same. -/
structure LeavesAlone (h : Host) (key : ServerKey) (h₀ : Host) : Prop where
  gone : h₀.registry.slot? key = none
  /-- The slots of other keys are the same, but for their numbers and those of calls. -/
  slots : ∀ key', (key' == key) = false →
    h₀.registry.slot? key' = (h.registry.slot? key').map (·.rename (h.removal key).numbers)
  /-- Calls on other keys have come as far, and have the same results. -/
  calls : ∀ c x, h.call? c = some x → ¬x.task.On h.registry key → x.task ≠ .shutdownAll →
    h₀.call? ((h.removal key).numbers.call c) = some (x.rename (h.removal key).numbers)
  distinct : ∀ c d x y, h.call? c = some x → h.call? d = some y → ¬x.task.On h.registry key →
    ¬y.task.On h.registry key → (h.removal key).numbers.call c = (h.removal key).numbers.call d → c = d
  places : ∀ (i j : Nat) (s t : Slot), h.registry.slots[i]? = some s → h.registry.slots[j]? = some t →
    (s.key == key) = false → (t.key == key) = false →
    (h.removal key).numbers.slot i = (h.removal key).numbers.slot j → i = j

theorem keeps_iff {h : Host} (hsound : h.registry.Sound) (key : ServerKey) {t : Task} :
    (h.removal key).keeps t = true ↔ ¬t.On h.registry key := by
  cases t with
  | acquire k | release k => simp [Removal.keeps, Task.On, removal]
  | releaseConnection id =>
    have hplaces := Removal.places_of_since (.refl h) hsound key
    have hindex : (h.removal key).slot? = some id.slot ↔ Task.On (.releaseConnection id) h.registry key := by
      refine ⟨fun hi => ?_, ?_⟩
      · obtain ⟨s, hs, hk⟩ := Registry.Sound.slotIndex?_slot hi
        exact ⟨s, hs, hk⟩
      · rintro ⟨s, hs, hk⟩
        exact (hplaces _ s hs).1 hk
    rw [← hindex]
    exact decide_eq_true_iff
  | shutdownAll | releaseSession | openEditor | closeEditor | shutdownLifecycle =>
    exact iff_of_true rfl id

/-- Calls on one key neither change the slot of another nor look at it. So in a run of calls on the registry all
other calls come to the same as without them. -/
theorem keys_apart (bounds : Bounds) (events : List Event) (key : ServerKey) :
    let h := (Host.new bounds).run events
    (∀ e c x, h.actor e = some c → h.call? c = some x → x.task.On h.registry key →
      (∀ key', (key' == key) = false → (h.apply e).registry.slot? key' = h.registry.slot? key') ∧
      ∀ i s t, h.registry.slots[i]? = some s → (s.key == key) = false → t.key = s.key →
        (∀ v ∈ t.visits, v.call ≠ c) → (h.put i t).apply e = (h.apply e).put i t) ∧
    ((∀ c x, h.call? c = some x → x.task.OfRegistry) →
      h.LeavesAlone key ((Host.new bounds).run ((h.removal key).events (Host.new bounds) events))) := by
  intro h
  have ho : h.Ordered none Nowhere := run_ordered bounds events
  have hstaged : h.Staged := run_staged bounds events
  refine ⟨fun e c x he hx ht => ⟨fun key' hkey => ?_, fun i s t hs hkey hk htc => ?_⟩, fun hreg => ?_⟩
  · have hsound : (h.apply e).registry.Sound := by
      have := (run_ordered bounds (events ++ [e])).sound
      rwa [run_append] at this
    exact apply_slot? ho hsound hstaged he hx ht hkey
  · exact apply_put ho hstaged he hx ht hs hkey hk htc
  have hsince {before after : List Event} (he : events = before ++ after) : ((Host.new bounds).run before).Since h := by
    have := run_since bounds before after
    rwa [← run_append, ← he] at this
  -- The run without the calls on the key goes in step with the whole, and what is left can be read off the two.
  have hm := Removal.run_mirrors (m := h.removal key) bounds events
    (fun before after he => Removal.places_of_since (hsince he) ho.sound key) fun before after he c x hx => by
      obtain ⟨x', hx', ht⟩ := (hsince he).calls c x hx
      exact ⟨Removal.tasks_of_since (hsince he) key hx, ht ▸ hreg c x' hx'⟩
  have hplaces := Removal.places_of_since (.refl h) ho.sound key
  have hsound₀ := (run_ordered bounds ((h.removal key).events (Host.new bounds) events)).sound
  have hout {i : Nat} {s : Slot} (hs : h.registry.slots[i]? = some s) (hk : (s.key == key) = false) :
      (h.removal key).slot? ≠ some i := by
    refine mt (hplaces i s hs).2 ?_
    rw [show (h.removal key).key = key from rfl, hk]
    simp
  refine ⟨?_, fun key' hkey => ?_, fun c x hx hon hall => ?_, fun c d x y hx hy hcx hdy he => ?_,
    fun i j s t hs ht hsk htk he => Removal.slot_inj (hout hs hsk) (hout ht htk) he⟩
  · refine Option.eq_none_iff_forall_not_mem.2 fun t ht => ?_
    obtain ⟨ht, hk⟩ := hsound₀.slot?_slot ht
    obtain ⟨i, s, hi, _, hs, rfl⟩ := hm.registry.back ht
    exact hi ((hplaces i s hs).1 hk)
  · cases hf : h.registry.slot? key' with
    | some s =>
      obtain ⟨hs, hk⟩ := ho.sound.slot?_slot hf
      refine hsound₀.slot?_eq_some (hm.registry.get (hout hs (Bool.eq_false_iff.2 fun hsk => ?_)) hs) hk
      rw [BEq.trans (BEq.symm hk) hsk] at hkey
      cases hkey
    | none =>
      refine Option.eq_none_iff_forall_not_mem.2 fun t ht => ?_
      obtain ⟨ht, hk⟩ := hsound₀.slot?_slot ht
      obtain ⟨i, s, _, _, hs, rfl⟩ := hm.registry.back ht
      rw [ho.sound.slot?_eq_some hs hk] at hf
      cases hf
  · obtain ⟨x₀, hx₀, hs⟩ := hm.calls c x hx ((keeps_iff ho.sound key).2 hon)
    cases hs with
    | plain => exact hx₀
    | fresh | clearing | waits | ended => exact absurd rfl hall
  · exact Removal.call_inj (hm.tasks c x hx) ((keeps_iff ho.sound key).2 hcx) (hm.tasks d y hy)
      ((keeps_iff ho.sound key).2 hdy) he

/-- The key of one language's project rooted at `p`. -/
def rustKey (p : String) : ServerKey := ⟨⟨"rust", ["rs"], .new "ra", List.nodup_singleton _⟩, ⟨⟨p⟩⟩⟩

/-- A launch hangs while a server for another key comes up. -/
def hanging : List Event :=
  [.call (.acquire (rustKey "/p") none), .begin ⟨0⟩, .call (.acquire (rustKey "/q") none), .begin ⟨1⟩,
    .launched 1 (.ok ⟨none, none⟩)]

theorem launch_hangs_alone :
    let h := (Host.new default).run hanging
    let h₀ := (Host.new default).run ((h.removal (rustKey "/p")).events (Host.new default) hanging)
    (h.apply (.drop ⟨0⟩)).registry.slot? (rustKey "/q") = h.registry.slot? (rustKey "/q") ∧
      h.call? ⟨1⟩ = some ⟨.acquire (rustKey "/q") none, .ended (.connection ⟨1, 1⟩)⟩ ∧
      h₀.call? ⟨0⟩ = some ⟨.acquire (rustKey "/q") none, .ended (.connection ⟨0, 1⟩)⟩ := by
  intro h h₀
  obtain ⟨hstep, hrun⟩ := keys_apart default hanging (rustKey "/p")
  have hapart : (rustKey "/q" == rustKey "/p") = false := by decide
  have hleft := hrun fun c x hx => ?_
  · refine ⟨(hstep (.drop ⟨0⟩) ⟨0⟩ ⟨.acquire (rustKey "/p") none, .acquiring⟩ rfl rfl BEq.rfl).1 _ hapart, rfl, ?_⟩
    exact hleft.calls ⟨1⟩ ⟨.acquire (rustKey "/q") none, .ended (.connection ⟨1, 1⟩)⟩ rfl (by simp [Task.On, hapart])
      (by simp)
  · obtain ⟨_ | _ | n⟩ := c <;> cases hx <;> trivial

end Host

end LanguageHost
