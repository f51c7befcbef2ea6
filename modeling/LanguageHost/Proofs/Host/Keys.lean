import LanguageHost.Proofs.Host.Deeds

/-! A call on one key and the slots of others: what it does is the same whatever is in them, and leaves them as
they are. -/
namespace LanguageHost

/-- The call acquires a connection of the key, or gives one back. -/
def Task.On (t : Task) (r : Registry) (key : ServerKey) : Prop :=
  match t with
  | .acquire k _ | .release k => (k == key) = true
  | .releaseConnection id => ∃ s : Slot, r.slots[id.slot]? = some s ∧ (s.key == key) = true
  | _ => False

theorem Task.On.ofRegistry {t : Task} {r : Registry} {key : ServerKey} (ht : t.On r key) : t.OfRegistry := by
  cases t <;> simp_all [On, OfRegistry]

theorem Task.On.slot {t : Task} {r : Registry} {key : ServerKey} {i : Nat} {request : Request} {s : Slot}
    (ht : t.On r key) (ha : t.Asks r i request) (hs : r.slots[i]? = some s) : (s.key == key) = true := by
  cases ha with
  | acquire hi | release hi =>
    obtain ⟨u, hu, hk⟩ := Registry.Sound.slotIndex?_slot hi
    obtain rfl := Option.some.inj (hs.symm.trans hu)
    exact BEq.trans hk ht
  | releaseConnection hi =>
    obtain ⟨u, hu, hk⟩ := ht
    subst hi
    obtain rfl := Option.some.inj (hs.symm.trans hu)
    exact hk
  | shutdownAll | shutdownLifecycle => exact ht.elim
  | session hsession => cases t <;> simp_all [On, OfSession]

namespace Registry

/-- The registry with another slot in one place. -/
def put (r : Registry) (i : Nat) (t : Slot) : Registry := { r with slots := r.slots.set i t }

variable {r : Registry} {i j : Nat} {s t : Slot} {key : ServerKey}

theorem put_get (hj : j ≠ i) : (r.put i t).slots[j]? = r.slots[j]? := List.getElem?_set_ne (Ne.symm hj)

theorem put_self (hs : r.slots[i]? = some s) : r.put i s = r := by
  have hset : r.slots.set i s = r.slots := by
    obtain ⟨hlt, rfl⟩ := List.getElem?_eq_some_iff.1 hs
    exact List.set_getElem_self hlt
  rw [put, hset]

theorem setSlot_put (hj : j ≠ i) (u : Slot) : (r.put i t).setSlot j u = (r.setSlot j u).put i t := by
  unfold setSlot
  rw [put_get hj]
  split
  · rfl
  · simp only [put, List.set_comm _ _ (Ne.symm hj)]

theorem slotIndex?_eq (r : Registry) (key : ServerKey) : r.slotIndex? key = (r.slots.map Slot.key).findIdx? (· == key) := by
  rw [List.findIdx?_map]
  rfl

theorem slotIndex?_put (hs : r.slots[i]? = some s) (hk : t.key = s.key) (key : ServerKey) :
    (r.put i t).slotIndex? key = r.slotIndex? key := by
  obtain ⟨hlt, rfl⟩ := List.getElem?_eq_some_iff.1 hs
  have hset : (r.slots.map Slot.key).set i r.slots[i].key = r.slots.map Slot.key := by
    rw [← List.map_set, List.set_getElem_self hlt]
  rw [slotIndex?_eq, slotIndex?_eq, put, List.map_set, hk, hset]

theorem openSlot_put (hs : r.slots[i]? = some s) (hk : t.key = s.key) (key : ServerKey) :
    (r.put i t).openSlot key = ((r.openSlot key).1.put i t, (r.openSlot key).2) := by
  have hlt := (List.getElem?_eq_some_iff.1 hs).1
  unfold openSlot
  rw [slotIndex?_put hs hk]
  cases r.slotIndex? key with
  | some j => rfl
  | none => simp only [put, List.length_set, List.set_append_left i t hlt]

end Registry

namespace Host

def put (h : Host) (i : Nat) (t : Slot) : Host := { h with registry := h.registry.put i t }

variable {h : Host} {c : CallId} {i j : Nat} {s t : Slot} {key : ServerKey} {Q : Nat → Request → Prop} {x : Call}
  {e : Event}

theorem setSlot_self (hs : h.registry.slots[i]? = some s) : h.setSlot i s = h := by
  unfold setSlot
  rw [Registry.setSlot_self hs, hs, Option.bind_some]
  dsimp only
  split
  · rename_i c hc
    rw [if_pos hc]
  · rfl

theorem setSlot_put (hj : j ≠ i) (u : Slot) : (h.put i t).setSlot j u = (h.setSlot j u).put i t := by
  have hwake (h : Host) (c : CallId) : (h.put i t).wake c = (h.wake c).put i t := by
    unfold wake
    show (if h.woken.contains c then _ else _) = _
    split <;> rfl
  have hregistry : (h.put i t).registry.setSlot j u = (h.registry.setSlot j u).put i t := Registry.setSlot_put hj u
  have hget : (h.put i t).registry.slots[j]? = h.registry.slots[j]? := Registry.put_get hj
  unfold setSlot
  rw [hregistry, hget]
  dsimp only
  split
  · split
    · rfl
    · exact hwake { h with registry := h.registry.setSlot j u } _
  · rfl

theorem visit_put (hj : j ≠ i) (c : CallId) (r : Request) :
    (h.put i t).visit c j r = ((h.visit c j r).1.put i t, (h.visit c j r).2) := by
  have hget : (h.put i t).registry.slots[j]? = h.registry.slots[j]? := Registry.put_get hj
  unfold visit
  rw [hget]
  split
  · rfl
  · exact Prod.ext (setSlot_put hj _) rfl

theorem visitToAcquire_put (hsound : h.registry.Sound) (hs : h.registry.slots[i]? = some s) (hk : t.key = s.key)
    (hkey : (s.key == key) = false) (c : CallId) (document : Option Path) :
    (h.put i t).visitToAcquire c key document =
      ((h.visitToAcquire c key document).1.put i t, (h.visitToAcquire c key document).2) := by
  obtain ⟨_, hold, _, u, hu, huk⟩ := hsound.openSlot key
  have hj : (h.registry.openSlot key).2 ≠ i := by
    rintro rfl
    obtain rfl := Option.some.inj ((hold _ s hs).symm.trans hu)
    rw [hkey] at huk
    cases huk
  have hopen : (h.put i t).registry.openSlot key =
      ((h.registry.openSlot key).1.put i t, (h.registry.openSlot key).2) := Registry.openSlot_put hs hk key
  unfold visitToAcquire
  rw [hopen]
  dsimp only
  rw [Registry.put_get hj]
  exact visit_put (h := { h with registry := (h.registry.openSlot key).1 }) hj c _

theorem acquire_put (hsound : h.registry.Sound) (hs : h.registry.slots[i]? = some s) (hk : t.key = s.key)
    (hkey : (s.key == key) = false) (c : CallId) (document : Option Path) :
    (h.put i t).acquire c key document = (h.acquire c key document).put i t := by
  unfold acquire
  rw [visitToAcquire_put hsound hs hk hkey]
  split
  · rfl
  · rcases h.visitToAcquire c key document with ⟨h', _ | _ | _ | _ | _⟩ <;> rfl

theorem beginPlainRelease_put {n : Option Nat} (hn : n ≠ some i) (c : CallId) (expected : Option ConnectionId) :
    (h.put i t).beginPlainRelease c n expected = (h.beginPlainRelease c n expected).put i t := by
  cases n with
  | none => rfl
  | some j =>
    simp only [beginPlainRelease]
    rw [visit_put fun hj => hn (congrArg some hj)]
    rcases h.visit c j (.release expected) with ⟨h', _ | _⟩ <;> rfl

theorem begin_put (hsound : h.registry.Sound) {task : Task} (ht : task.On h.registry key)
    (hs : h.registry.slots[i]? = some s) (hk : t.key = s.key) (hkey : (s.key == key) = false) (c : CallId) :
    (h.put i t).begin c task = (h.begin c task).put i t := by
  have hne {k : ServerKey} (he : (k == key) = true) : (s.key == k) = false := by
    refine Bool.eq_false_iff.2 fun hsk => ?_
    rw [BEq.trans hsk he] at hkey
    cases hkey
  cases task with
  | acquire k document => exact acquire_put hsound hs hk (hne ht) c document
  | release k =>
    have hindex : (h.put i t).registry.slotIndex? k = h.registry.slotIndex? k := Registry.slotIndex?_put hs hk k
    show (h.put i t).beginPlainRelease c ((h.put i t).registry.slotIndex? k) none = _
    rw [hindex]
    refine beginPlainRelease_put (fun hi => ?_) c none
    obtain ⟨u, hu, huk⟩ := Registry.Sound.slotIndex?_slot hi
    obtain rfl := Option.some.inj (hs.symm.trans hu)
    rw [hne ht] at huk
    cases huk
  | releaseConnection id =>
    show (h.put i t).beginPlainRelease c (some id.slot) (some id) =
      (h.beginPlainRelease c (some id.slot) (some id)).put i t
    refine beginPlainRelease_put (fun hi => ?_) c (some id)
    obtain ⟨u, hu, huk⟩ := ht
    rw [Option.some.inj hi] at hu
    obtain rfl := Option.some.inj (hs.symm.trans hu)
    rw [hkey] at huk
    cases huk
  | shutdownAll | releaseSession | openEditor | closeEditor | shutdownLifecycle => exact ht.elim

theorem answered_put (hp : ∀ p, h.progress? c = some p → p.opening? = none) (j : Nat) (a : Answer) :
    (h.put i t).answered c j a = (h.answered c j a).put i t := by
  have hprogress : (h.put i t).progress? c = h.progress? c := rfl
  unfold answered
  rw [hprogress]
  cases hx : h.progress? c with
  | none => rfl
  | some p =>
    have hp := hp p hx
    cases p with
    | acquiring => cases a <;> rfl
    | clearing waiting closed report =>
      dsimp only
      split <;> rfl
    | reopening | opening => cases hp
    | fresh | releasing | releasingSession | discarding | closing | ended => rfl

theorem stepSlot_put (hj : j ≠ i)
    (hp : ∀ u x, h.registry.slots[j]? = some u → u.holder = some x → ∀ p, h.progress? x.call = some p →
      p.opening? = none) (step : Slot → Slot × Option Answer) :
    (h.put i t).stepSlot j step = (h.stepSlot j step).put i t := by
  have hget : (h.put i t).registry.slots[j]? = h.registry.slots[j]? := Registry.put_get hj
  unfold stepSlot
  rw [hget]
  cases hu : h.registry.slots[j]? with
  | none => rfl
  | some u =>
    have hprogress (x : Holder) (hx : u.holder = some x) (p : Progress)
        (hc : (h.setSlot j (step u).1).progress? x.call = some p) : p.opening? = none := by
      rw [progress?, call?, setSlot_calls] at hc
      exact hp u x hu hx p hc
    simp only [settle, setSlot_put hj]
    cases hh : u.holder with
    | none => rfl
    | some x =>
      cases (step u).2 with
      | none => rfl
      | some a => exact answered_put (hprogress x hh) j a

theorem abandonSlots_put (hs : h.registry.slots[i]? = some s) (hc : ∀ v ∈ s.visits, v.call ≠ c)
    (ht : ∀ v ∈ t.visits, v.call ≠ c) : (h.put i t).abandonSlots c = (h.abandonSlots c).put i t := by
  have hlen : (h.put i t).registry.slots.length = h.registry.slots.length := List.length_set
  unfold abandonSlots
  rw [hlen]
  -- Neither slot changes in its place, and the others are left alike.
  generalize List.range h.registry.slots.length = l
  induction l generalizing h with
  | nil => rfl
  | cons j l ih =>
    rw [List.foldl_cons, List.foldl_cons]
    by_cases hj : j = i
    · subst hj
      have ht' : (h.put j t).registry.slots[j]? = some t :=
        List.getElem?_set_self (List.getElem?_eq_some_iff.1 hs).1
      rw [hs, ht']
      dsimp only
      rw [Slot.abandon_of_absent hc, Slot.abandon_of_absent ht, setSlot_self hs, setSlot_self ht']
      exact ih hs List.length_set
    · have hget : (h.put i t).registry.slots[j]? = h.registry.slots[j]? := Registry.put_get hj
      rw [hget]
      cases hu : h.registry.slots[j]? with
      | none => exact ih hs List.length_set
      | some u =>
        dsimp only
        rw [setSlot_put hj]
        refine ih ?_ List.length_set
        rw [setSlot_registry, Registry.setSlot_get hu, if_neg (Ne.symm hj)]
        exact hs

section Abandon
variable (hs : h.registry.slots[i]? = some s) (hc : ∀ v ∈ s.visits, v.call ≠ c) (ht : ∀ v ∈ t.visits, v.call ≠ c)
include hs hc ht

theorem interrupt_put {p : Progress} (hp : releasing? p = none) :
    (h.put i t).interrupt c p = (h.interrupt c p).put i t := by
  simp only [interrupt, hp, Option.bind_none, abandonSlots_put hs hc ht]

theorem drop_put (hp : ∀ p, h.progress? c = some p → releasing? p = none) :
    (h.put i t).drop c = (h.drop c).put i t := by
  have hprogress : (h.put i t).progress? c = h.progress? c := rfl
  unfold drop
  rw [hprogress]
  split
  · rfl
  · rfl
  · rename_i p _ hx
    exact congrArg (·.finish c .dropped) (interrupt_put hs hc ht (hp p hx))

theorem crash_put (hp : ∀ p, h.progress? c = some p → releasing? p = none ∧ p.opening? = none) :
    (h.put i t).crash c = (h.crash c).put i t := by
  have hprogress : (h.put i t).progress? c = h.progress? c := rfl
  unfold crash
  rw [hprogress]
  cases hx : h.progress? c with
  | none => rfl
  | some p =>
    obtain ⟨hreleasing, hopening⟩ := hp p hx
    cases p with
    | ended => rfl
    | reopening | opening => cases hopening
    | discarding | closing | releasingSession => cases hreleasing
    | fresh | acquiring | releasing | clearing =>
      exact congrArg (·.finish c .crashed) (interrupt_put hs hc ht hreleasing)

end Abandon

theorem Ordered.not_there (ho : h.Ordered none Q) (hx : h.call? c = some x) (ht : x.task.On h.registry key)
    (hs : h.registry.slots[i]? = some s) (hkey : (s.key == key) = false) : ∀ v ∈ s.visits, v.call ≠ c := by
  intro v hv hvc
  have := ht.slot (ho.waits c x (by simp) hx i s hs v hv hvc).asks hs
  rw [hkey] at this
  cases this

theorem Staged.quiet (hstaged : h.Staged) (hx : h.call? c = some x) (ht : x.task.On h.registry key) {p : Progress}
    (hp : h.progress? c = some p) : releasing? p = none ∧ p.opening? = none := by
  rw [progress?, hx] at hp
  obtain rfl := Option.some.inj hp
  have hreaches := hstaged c x hx
  refine ⟨ht.ofRegistry.not_returning hreaches, ?_⟩
  cases ho : x.progress.opening? with
  | none => rfl
  | some o =>
    obtain ⟨e, htask, _⟩ := hreaches.opening ho
    rw [htask] at ht
    exact ht.elim

theorem held_elsewhere (hs : h.registry.slots[i]? = some s) (hsc : ∀ v ∈ s.visits, v.call ≠ c) {j : Nat}
    (hj : (h.registry.slots[j]?.bind Slot.holder).map (·.call) = some c) :
    ∃ u y, h.registry.slots[j]? = some u ∧ u.holder = some y ∧ y.call = c ∧ j ≠ i := by
  obtain ⟨y, hy, hyc⟩ := Option.map_eq_some_iff.1 hj
  obtain ⟨u, hu, hh⟩ := Option.bind_eq_some_iff.1 hy
  refine ⟨u, y, hu, hh, hyc, ?_⟩
  rintro rfl
  obtain rfl := Option.some.inj (hs.symm.trans hu)
  exact hsc y.toVisit (by simp [Slot.visits, hh]) hyc

/-- Where a call on one key goes on, another slot does not matter. -/
theorem apply_put (ho : h.Ordered none Q) (hstaged : h.Staged) (he : h.actor e = some c) (hx : h.call? c = some x)
    (ht : x.task.On h.registry key) (hs : h.registry.slots[i]? = some s) (hkey : (s.key == key) = false)
    (hk : t.key = s.key) (htc : ∀ v ∈ t.visits, v.call ≠ c) : (h.put i t).apply e = (h.apply e).put i t := by
  have hsc := ho.not_there hx ht hs hkey
  have hp (p : Progress) (hp : h.progress? c = some p) := hstaged.quiet hx ht hp
  have hstep {j : Nat} (hj : (h.registry.slots[j]?.bind Slot.holder).map (·.call) = some c)
      (step : Slot → Slot × Option Answer) : (h.put i t).stepSlot j step = (h.stepSlot j step).put i t := by
    obtain ⟨u, y, hu, hh, hyc, hne⟩ := held_elsewhere hs hsc hj
    refine stepSlot_put hne (fun u' y' hu' hh' p hp' => ?_) step
    obtain rfl := Option.some.inj (hu.symm.trans hu')
    obtain rfl := Option.some.inj (hh.symm.trans hh')
    exact (hp p (hyc ▸ hp')).2
  cases e with
  | call | session | tick => cases he
  | begin d =>
    obtain rfl := Option.some.inj he
    have hcall : (h.put i t).call? d = some x := hx
    obtain ⟨task, p⟩ := x
    simp only [apply, hcall, hx]
    cases p with
    | fresh => exact begin_put ho.sound ht hs hk hkey d
    | acquiring | releasing | releasingSession | clearing | reopening | opening | discarding | closing | ended => rfl
  | enter j => exact hstep he _
  | launched j outcome => exact hstep he _
  | stopped j => exact hstep he _
  | expire j =>
    obtain ⟨u, y, hu, hh, hyc, hne⟩ := held_elsewhere hs hsc he
    have hget : (h.put i t).registry.slots[j]? = some u := (Registry.put_get hne).trans hu
    have hdue : (h.put i t).isDue u = h.isDue u := rfl
    show (h.put i t).expire j = (h.expire j).put i t
    simp only [expire, hget, hu, hdue]
    split
    · split
      · exact hstep he _
      · exact hstep he _
    · rfl
  | crash j =>
    obtain ⟨u, y, hu, hh, hyc, hne⟩ := held_elsewhere hs hsc he
    have hget : (h.put i t).registry.slots[j]? = some u := (Registry.put_get hne).trans hu
    show (h.put i t).crashIn j = (h.crashIn j).put i t
    obtain ⟨v, stage⟩ := y
    obtain rfl : v.call = c := hyc
    simp only [crashIn, hget, hu, Option.bind_some, hh]
    cases stage with
    | granted => rfl
    | launching | stopping => exact crash_put hs hsc htc hp
  | drop d =>
    obtain rfl := Option.some.inj he
    exact drop_put hs hsc htc fun p hx => (hp p hx).1

/-- A call on one key leaves the slots of others as they are. -/
theorem apply_slots (ho : h.Ordered none Q) (hstaged : h.Staged) (he : h.actor e = some c) (hx : h.call? c = some x)
    (ht : x.task.On h.registry key) (hs : h.registry.slots[i]? = some s) (hkey : (s.key == key) = false) :
    (h.apply e).registry.slots[i]? = some s := by
  have hput := apply_put ho hstaged he hx ht hs hkey rfl (ho.not_there hx ht hs hkey)
  rw [show h.put i s = h by rw [put, Registry.put_self hs]] at hput
  obtain ⟨t, d, _, _, hw⟩ := (ho.happens e).works hstaged
  obtain ⟨s', hs', _⟩ := hw.slot hs
  rw [hput]
  exact List.getElem?_set_self (List.getElem?_eq_some_iff.1 hs').1

theorem apply_slot? (ho : h.Ordered none Q) (hsound : (h.apply e).registry.Sound) (hstaged : h.Staged)
    (he : h.actor e = some c) (hx : h.call? c = some x) (ht : x.task.On h.registry key) {key' : ServerKey}
    (hkey : (key' == key) = false) : (h.apply e).registry.slot? key' = h.registry.slot? key' := by
  cases hf : h.registry.slot? key' with
  | some s =>
    obtain ⟨hs, hk⟩ := ho.sound.slot?_slot hf
    refine hsound.slot?_eq_some (apply_slots ho hstaged he hx ht hs (Bool.eq_false_iff.2 fun hsk => ?_)) hk
    rw [BEq.trans (BEq.symm hk) hsk] at hkey
    cases hkey
  | none =>
    have hnone : ∀ k ∈ h.registry.slots.map Slot.key, (k == key') = false := by
      simpa using List.find?_eq_none.1 hf
    have hnone' : ∀ k ∈ (h.apply e).registry.slots.map Slot.key, (k == key') = false := by
      rw [← Registry.marks_keys] at hnone ⊢
      rcases (ho.happens e).asking hstaged with hm | ⟨d, y, k, hd, hy, hasks, hm⟩
      · rwa [hm]
      · rw [hm, Registry.ask_keys]
        split
        · exact hnone
        · obtain rfl := Option.some.inj (he.symm.trans hd)
          obtain rfl := Option.some.inj (hx.symm.trans hy)
          intro k' hk'
          rcases List.mem_append.1 hk' with hk' | hk'
          · exact hnone k' hk'
          · obtain rfl := List.mem_singleton.1 hk'
            refine Bool.eq_false_iff.2 fun hkk => ?_
            cases htask : x.task with
            | acquire k'' document =>
              rw [htask] at ht hasks
              obtain rfl : k' = k'' := hasks
              rw [BEq.trans (BEq.symm hkk) ht] at hkey
              cases hkey
            | release | releaseConnection =>
              rw [htask] at hasks
              exact hasks
            | shutdownAll | releaseSession | openEditor | closeEditor | shutdownLifecycle =>
              rw [htask] at ht
              exact ht
    refine List.find?_eq_none.2 fun t ht => ?_
    simpa using hnone' t.key (List.mem_map_of_mem ht)

end Host

end LanguageHost
