import LanguageHost.Proofs.Host.Groups
import LanguageHost.Proofs.Host.Teardown

/-! Shutdowns of the lifecycle that are given up before they are done. What their clears were to take away comes back
by itself, unless a gate had been handed on past an editor's session as they began. -/
namespace LanguageHost.Host

/-- Of a connection that has editors, the gate has not just been handed on. -/
def Unhanded (h : Host) : Prop :=
  ∀ (i : Nat) (s : Slot) v, h.registry.slots[i]? = some s → s.holder = some ⟨v, .granted⟩ →
    ∀ g, h.attachedTo ⟨i, g⟩ = 0

/-- The call may be given up: it opens or closes an editor, or is one of the shutdowns that are `given`. -/
def MayEnd (given : CallId → Prop) (h : Host) (c : CallId) : Prop :=
  ∀ x, h.call? c = some x → x.task.OfEditor ∨ x.task = .shutdownLifecycle ∧ given c

theorem mayEnd_shutdown {given : CallId → Prop} {h : Host} {c : CallId}
    (ht : (h.call? c).map Call.task = some .shutdownLifecycle) (hc : given c) : h.MayEnd given c := by
  intro x hx
  rw [hx] at ht
  exact .inr ⟨Option.some.inj ht, hc⟩

/-- The registry is used by the lifecycle only; calls for editors may be given up or crash, and so may the shutdowns
that are `given`. -/
def Uses (given : CallId → Prop) (h : Host) : Event → Prop
  | .call task => task.OfEditor ∨ task = .shutdownLifecycle
  | .session _ _ => False
  | .drop c => h.MayEnd given c
  | .crash i => ∀ s v, h.registry.slots[i]? = some s → s.holder = some v → h.MayEnd given v.call
  | _ => True

/-- A shutdown that is `given` begins where no gate has just been handed on that matters. -/
structure Permits (given : CallId → Prop) (h : Host) (e : Event) : Prop where
  uses : h.Uses given e
  unhanded : ∀ c, e = .begin c → given c → h.call? c = some ⟨.shutdownLifecycle, .fresh⟩ → h.Unhanded

def Throughout (P : Host → Event → Prop) (h : Host) : List Event → Prop
  | [] => True
  | e :: events => P h e ∧ (h.apply e).Throughout P events

/-- The references that the clears at a gate are to take away are on their way back, when all these clears are of
shutdowns that are `given`. -/
def Recoverable (given : CallId → Prop) (h : Host) : Prop :=
  ∀ (i : Nat) (s : Slot) k c, h.registry.slots[i]? = some s → s.Clears →
    (∀ v ∈ s.visits, v.request = .clear → given v.call) → s.Ready k c → h.Repaid none none ⟨i, k + 1⟩

variable {given : CallId → Prop} {h : Host} {K K' : EditorId → Option ServerKey} {c : CallId} {x : Call} {e : Event}
  {i j k : Nat} {s s' : Slot} {v : Visit} {d d' : Connection} {Q : Nat → Request → Prop}

section Abandoned
variable (hs : h.Settled True K) (hr : h.Recoverable given)
include hs hr

theorem Settled.abandon_shutdown (hx : h.call? c = some x) (ht : x.task = .shutdownLifecycle) (hc : given c) :
    (h.abandonSlots c).Books K (some c) ((releasing? x.progress).bind h.connectionOf?) [] := by
  refine (hs.books trivial).abandon hs.ordered hx ?_ (fun i s hslot hclears => ?_) fun i s hslot v hv hvc id hvr => ?_
  · unfold Call.owed?
    split
    · cases ht
    · rfl
  · have hl := hs.ordered.sound.lives i s hslot
    have hnumber := hs.ordered.sound.numbers i s hslot
    by_cases hstill : (s.abandon c).Clears
    · exact .inl hstill
    -- It was the only one to clear the slot.
    have hgiven (v : Visit) (hv : v ∈ s.visits) (hvr : v.request = .clear) : given v.call := by
      by_contra hno
      refine hstill ⟨v, ?_, hvr⟩
      rw [Slot.abandon_visits hl.valid, List.mem_filter, decide_eq_true_eq]
      exact ⟨hv, fun hvc => hno (hvc ▸ hc)⟩
    refine .inr fun k d hd => ?_
    have hrepaid := hr i s k d hslot hclears hgiven hd s hslot
    rw [← hnumber, hl.repays_iff hd] at hrepaid
    simp only [reduceCtorEq, if_false] at hrepaid
    have howners : h.owners none ⟨s.number, k + 1⟩ = h.attachedTo ⟨s.number, k + 1⟩ +
      h.freshReleases none ⟨s.number, k + 1⟩ := rfl
    omega
  · have hw := hs.ordered.waits c x (by simp) hx i s hslot v hv hvc
    rw [hvr] at hw
    cases hw with
    | returning _ ht' => cases ht.symm.trans ht'
    | session _ ht' =>
      rw [ht] at ht'
      exact ht'.elim

theorem Settled.permitted (he : h.Permits given e) : (h.apply e).Settled True (h.opened K e) := by
  have hbooks {c : CallId} (hend : h.MayEnd given c) (x : Call) (hx : h.call? c = some x) :
      (h.abandonSlots c).Books K (some c) ((releasing? x.progress).bind h.connectionOf?) [] := by
    rcases hend x hx with ht | ⟨ht, hc⟩
    · exact hs.abandon_books hx ht trivial
    · exact hs.abandon_shutdown hr hx ht hc
  have huses := he.uses
  cases e with
  | drop c => exact hs.drop fun _ => hbooks huses
  | crash i => exact hs.crashIn fun _ s v hslot hh => hbooks (huses s v hslot hh)
  | call task => exact hs.apply (.call task) fun _ => huses
  | session connection uri => exact huses.elim
  | begin | enter | launched | stopped | expire | tick => exact hs.apply _ fun _ => trivial

end Abandoned

/-- What a shutdown makes of a slot in an event: it leaves it alone, goes on as the holder of its gate, is taken out of
it, which must be `given`, or begins and so comes to clear it. -/
inductive Clearing (given : CallId → Prop) (h : Host) (c : CallId) (e : Event) (i : Nat) (s' : Slot) : Prop
  | stays (hs : h.registry.slots[i]? = some s')
  | goes {s : Slot} {v : Visit} {stage : Stage} {ans : Option Answer} (hs : h.registry.slots[i]? = some s)
    (hh : s.holder = some ⟨v, stage⟩) (hv : v.call = c) (hl : s.Leaves v (s', ans))
  | quits {s : Slot} (hs : h.registry.slots[i]? = some s) (hs' : s' = s.abandon c) (hc : given c)
  | comes {s : Slot} {now : Nat} (he : e = .begin c) (hx : h.call? c = some ⟨.shutdownLifecycle, .fresh⟩)
    (hs : h.registry.slots[i]? = some s) (hs' : s' = (s.arrive now ⟨c, .clear⟩).1)

section Clearing
variable (ho : h.Ordered none Q) (hx : h.call? c = some x) (ht : x.task = .shutdownLifecycle)
include ho hx ht

theorem stepSlot_clearing {step : Slot → Slot × Option Answer}
    (hmoves : ∀ (s : Slot) v stage, s.Lives → s.holder = some ⟨v, stage⟩ → s.Moves v (step s))
    (hactor : (h.registry.slots[j]?.bind Slot.holder).map (·.call) = some c)
    (hslot' : (h.stepSlot j step).registry.slots[i]? = some s') : Clearing given h c e i s' := by
  obtain ⟨⟨v, stage⟩, hholder, hvc⟩ := Option.map_eq_some_iff.1 hactor
  obtain ⟨t, hslot, hh⟩ := Option.bind_eq_some_iff.1 hholder
  obtain rfl : v.call = c := hvc
  have hm := hmoves t v stage (ho.sound.lives j t hslot) hh
  have hw := ho.waits v.call x (by simp) hx j t hslot v (by simp [Slot.visits, hh]) rfl
  unfold Host.stepSlot at hslot'
  simp only [hslot, settle, hh, Option.map_some] at hslot'
  generalize step t = out at hm hslot'
  obtain ⟨t', ans⟩ := out
  have hset (hset : (h.setSlot j t').registry.slots[i]? = some s') : Clearing given h v.call e i s' := by
    rcases setSlot_slots hslot hset with ⟨rfl, rfl⟩ | ⟨_, hsame⟩
    · exact .goes hslot hh rfl hm.leaves
    · exact .stays hsame
  cases ans with
  | none => exact hset hslot'
  | some a =>
    obtain ⟨waiting, closed, report, hp⟩ := hw.clears.resolve_right fun hno => hno false (by rw [ht]; trivial)
    have hprogress : (h.setSlot j t').progress? v.call = some (.clearing waiting closed report) := by
      rw [progress?, call?, setSlot_calls, ← hp]
      exact congrArg (Option.map Call.progress) hx
    rw [answered_registry _ _ hprogress] at hslot'
    exact hset hslot'

theorem apply_clearing (huses : h.Uses given e) (hactor : h.actor e = some c)
    (hslot' : (h.apply e).registry.slots[i]? = some s') : Clearing given h c e i s' := by
  have hgiven (hend : h.MayEnd given c) : given c := by
    rcases hend x hx with hno | ⟨_, hc⟩
    · rw [ht] at hno
      exact hno.elim
    · exact hc
  have hgate {j : Nat} (hg : gate? e = some j)
      (hholder : (h.registry.slots[j]?.bind Slot.holder).map (·.call) = some c) : Clearing given h c e i s' := by
    rcases h.apply_gate hg with hsame | ⟨step, hstep, _, hmoves⟩
    · rw [hsame] at hslot'
      exact .stays hslot'
    · rw [hstep] at hslot'
      exact stepSlot_clearing ho hx ht hmoves hholder hslot'
  cases e with
  | call | session | tick => cases hactor
  | begin d =>
    obtain rfl := Option.some.inj hactor
    by_cases hfresh : x.progress = .fresh
    · have hx₀ : h.call? d = some ⟨.shutdownLifecycle, .fresh⟩ := by rw [hx, ← ht, ← hfresh]
      rw [apply_begin hx₀, Host.begin, shutdownLifecycle_eq, shutdownAll_slots, drained_registry] at hslot'
      obtain ⟨s, hs, rfl⟩ := Option.map_eq_some_iff.1 hslot'
      exact .comes rfl hx₀ hs rfl
    · rw [apply_begun fun t hx' => hfresh (congrArg Call.progress (Option.some.inj (hx.symm.trans hx')))] at hslot'
      exact .stays hslot'
  | drop d =>
    obtain rfl := Option.some.inj hactor
    change (h.drop d).registry.slots[i]? = some s' at hslot'
    by_cases hp : ∃ r, x.progress = .ended r
    · obtain ⟨r, hp⟩ := hp
      rw [Host.drop, progress?, hx, Option.map_some, hp] at hslot'
      exact .stays hslot'
    · rw [drop_eq hx fun r hr => hp ⟨r, hr⟩] at hslot'
      change (h.interrupt d x.progress).registry.slots[i]? = some s' at hslot'
      rw [interrupt_slots] at hslot'
      obtain ⟨s, hs, rfl⟩ := Option.map_eq_some_iff.1 hslot'
      exact .quits hs rfl (hgiven huses)
  | crash j =>
    change (h.crashIn j).registry.slots[i]? = some s' at hslot'
    rcases h.crashIn_cases j with hsame | ⟨t, v, w, hslot, hwork, hcrash⟩
    · rw [hsame] at hslot'
      exact .stays hslot'
    · obtain ⟨stage, hh⟩ := Slot.holder_of_work hwork
      obtain rfl : v.call = c := by simpa [actor, hslot, hh] using hactor
      have hw := ho.waits v.call x (by simp) hx j t hslot v (Slot.mem_of_work hwork) rfl
      -- A crash under a call takes it out of all slots, as giving it up does.
      rw [hcrash, crash_slots h v.call hx hw.under_way.2] at hslot'
      obtain ⟨s, hs, rfl⟩ := Option.map_eq_some_iff.1 hslot'
      exact .quits hs rfl (hgiven (huses t _ hslot hh))
  | enter | launched | stopped | expire => exact hgate rfl hactor

end Clearing

section Step
variable (hs : h.Settled True K) (hstaged : h.Staged) (huses : h.Uses given e)
include hs

/-- Whoever is at a gate to clear the slot is a shutdown of the lifecycle that has begun. -/
theorem Settled.clearer (hslot : h.registry.slots[i]? = some s) (hv : v ∈ s.visits) (hvr : v.request = .clear) :
    ∃ x, h.call? v.call = some x ∧ x.task = .shutdownLifecycle ∧ x.progress ≠ .fresh := by
  obtain ⟨x, hx⟩ := Option.isSome_iff_exists.1 (hs.ordered.known i s hslot v hv)
  have hw := hs.ordered.waits v.call x (by simp) hx i s hslot v hv rfl
  have htask := (hs.books trivial).tasks v.call x hx
  refine ⟨x, hx, ?_, hw.under_way.1⟩
  rw [hvr] at hw
  cases hw with
  | clearing _ ht =>
    refine ht.resolve_left fun ht => ?_
    rw [ht] at htask
    exact htask

include hstaged huses

theorem Settled.clear_before (hs' : (h.apply e).Settled True K')
    (hslot' : (h.apply e).registry.slots[i]? = some s') (hv : v ∈ s'.visits) (hvr : v.request = .clear) :
    (∃ s : Slot, h.registry.slots[i]? = some s ∧ v ∈ s.visits) ∨
      (e = .begin v.call ∧ h.call? v.call = some ⟨.shutdownLifecycle, .fresh⟩ ∧ ∃ (s : Slot) (now : Nat),
        h.registry.slots[i]? = some s ∧ s' = (s.arrive now ⟨v.call, .clear⟩).1) := by
  have hh := hs.ordered.happens e
  obtain ⟨x', hx', ht', hp'⟩ := hs'.clearer hslot' hv hvr
  obtain ⟨x, hx, htask, hsame⟩ := (hh.call_back hstaged hx').resolve_right fun hno => hp' hno.2
  by_cases hactor : h.actor e = some v.call
  · cases apply_clearing hs.ordered hx (htask.symm.trans ht') huses hactor hslot' with
    | stays hslot => exact .inl ⟨s', hslot, hv⟩
    | @goes s u _ ans hslot hholder _ hl =>
      refine .inl ⟨s, hslot, ?_⟩
      have hvisits : s.visits = u :: s.queue := by simp [Slot.visits, hholder]
      rw [hvisits]
      cases hl with
      | waits hv' => exact hv' ▸ hv
      | answered hv' => exact List.mem_cons_of_mem _ (hv' ▸ hv)
    | @quits s hslot he =>
      refine .inl ⟨s, hslot, ?_⟩
      rw [he, Slot.abandon_visits (hs.ordered.sound.lives i s hslot).valid] at hv
      exact (List.mem_filter.1 hv).1
    | comes he hx₀ hslot hs₀ => exact .inr ⟨he, hx₀, _, _, hslot, hs₀⟩
  · -- Nobody else brings it there.
    obtain ⟨t, d, hd, _, hw⟩ := hh.works hstaged
    have hne : v.call ≠ d := by
      rintro rfl
      rcases hd with hd | ⟨_, hd⟩
      · exact hactor hd
      · cases hd.symm.trans hx
    rcases hw.slot_back hslot' with ⟨s, hslot, _⟩ | ⟨_, hlog⟩
    · obtain ⟨s'', hslot'', _, hspares⟩ := hw.slot hslot
      obtain rfl := Option.some.inj (hslot'.symm.trans hslot'')
      exact .inl ⟨s, hslot, (hspares.visits v hne).1 hv⟩
    · rw [(hs'.ordered.sound.lives i s' hslot').recalls.gate] at hv
      exact absurd (hlog _ (Slot.Log.came_of_mem_gate hv)) hne

/-- A clear that is no longer at the gate has been given up, or has left nothing ready. -/
theorem Settled.clear_after (hs' : (h.apply e).Settled True K') (hslot : h.registry.slots[i]? = some s)
    (hslot' : (h.apply e).registry.slots[i]? = some s') (hv : v ∈ s.visits) (hvr : v.request = .clear)
    (hgone : v ∉ s'.visits) (hready : s'.Ready k d) : given v.call := by
  have hh := hs.ordered.happens e
  obtain ⟨x, hx, ht, hp⟩ := hs.clearer hslot hv hvr
  have hl := hs.ordered.sound.lives i s hslot
  by_cases hactor : h.actor e = some v.call
  · cases apply_clearing hs.ordered hx ht huses hactor hslot' with
    | stays hsame =>
      obtain rfl := Option.some.inj (hslot.symm.trans hsame)
      exact absurd hv hgone
    | @goes s₀ u _ ans hslot₀ hholder huv hl' =>
      obtain rfl := Option.some.inj (hslot.symm.trans hslot₀)
      have hu : u ∈ s.visits := by simp [Slot.visits, hholder]
      obtain rfl := hl.valid.unique hu hv huv
      cases hl' with
      | waits hv' =>
        rw [hv'] at hgone
        exact absurd List.mem_cons_self hgone
      | answered _ hlog => exact absurd hready ((hs'.ordered.sound.lives i s' hslot').cleared_not_ready hlog hvr)
    | quits _ _ hc => exact hc
    | comes _ hx₀ =>
      obtain rfl := Option.some.inj (hx.symm.trans hx₀)
      exact absurd rfl hp
  · obtain ⟨s'', d', hslot'', hne, _, hspares⟩ := hh.spares hstaged (by rw [hx]; rfl) hactor hslot
    obtain rfl := Option.some.inj (hslot'.symm.trans hslot'')
    exact absurd ((hspares.visits v hne.symm).2 hv) hgone

end Step

/-- A gate with a ready connection that nobody owns but those who give it back. -/
theorem Settled.repays_unattended (hs : h.Settled True K) (hslot : h.registry.slots[i]? = some s)
    (hclears : ¬s.Clears) (hready : s.Ready k d) (hnobody : h.attachedTo ⟨i, k + 1⟩ = 0) :
    s.Repays ⟨i, k + 1⟩ (h.freshReleases none ⟨i, k + 1⟩) := by
  have hl := hs.ordered.sound.lives i s hslot
  obtain ⟨_, howned⟩ := (hs.books trivial).owned i s hslot k d hready.1 hready.2.1 hready.isLive
  rw [← hs.ordered.sound.numbers i s hslot] at hnobody ⊢
  rw [hl.repays_iff hready]
  simp only [owners, hnobody, Slot.launchers_outside (hl.valid.outside_of_ready hready), hclears, reduceCtorEq, if_false,
    List.not_mem_nil, or_false] at howned
  omega

theorem Settled.attached_unclear (hs : h.Settled True K) (hslot : h.registry.slots[i]? = some s)
    (hattached : 0 < h.attachedTo ⟨i, k⟩) : ¬s.Clears := by
  obtain ⟨⟨editor, a⟩, hmem, hbehind⟩ := List.countP_pos_iff.1 hattached
  cases a with
  | pending => simp [behind?] at hbehind
  | attached σ =>
    obtain ⟨y, t, k', key, hy, _, ht, _, ⟨_, hno⟩, _⟩ := (hs.books trivial).attached editor σ hmem
    have hyid : y.connection = ⟨i, k⟩ := by simpa [behind?, connectionOf?, hy] using hbehind
    rw [hyid] at ht
    obtain rfl := Option.some.inj (hslot.symm.trans ht)
    exact hno

/-- What is on its way back at a gate where only shutdowns that are `given` clear is so before the event. -/
theorem Recoverable.before (hr : h.Recoverable given) (hs : h.Settled True K) (hstaged : h.Staged)
    (he : h.Permits given e) (hs' : (h.apply e).Settled True K') (hslot' : (h.apply e).registry.slots[i]? = some s')
    (hclears' : s'.Clears) (hgiven' : ∀ v ∈ s'.visits, v.request = .clear → given v.call) (hready' : s'.Ready k d') :
    h.Repaid none none ⟨i, k + 1⟩ := by
  intro s hslot
  simp only [reduceCtorEq, if_false, Nat.add_zero]
  have hl := hs.ordered.sound.lives i s hslot
  have hgrows : s.Grows (fun _ => True) s' := by
    obtain ⟨_, _, _, _, hw⟩ := (hs.ordered.happens e).works hstaged
    obtain ⟨s'', hslot'', hg, _⟩ := hw.slot hslot
    obtain rfl := Option.some.inj (hslot'.symm.trans hslot'')
    exact hg.mono fun _ _ => trivial
  rcases hl.ready_before (hs'.ordered.sound.lives i s' hslot') hgrows hready' with ⟨d, hready⟩ | hnone
  · by_cases hclears : s.Clears
    · have hgiven (v : Visit) (hv : v ∈ s.visits) (hvr : v.request = .clear) : given v.call := by
        by_cases hstill : v ∈ s'.visits
        · exact hgiven' v hstill hvr
        · exact hs.clear_after hstaged he.uses hs' hslot hslot' hv hvr hstill hready'
      exact hr i s k d hslot hclears hgiven hready s hslot
    · -- The shutdown begins, and finds somebody at the gate that it has just been handed to.
      obtain ⟨w, hw, hwr⟩ := hclears'
      rcases hs.clear_before hstaged he.uses hs' hslot' hw hwr with ⟨t, ht, hold⟩ | ⟨hbegin, hx, t, now, ht, hcome⟩
      · obtain rfl := Option.some.inj (hslot.symm.trans ht)
        exact absurd ⟨w, hold, hwr⟩ hclears
      · obtain rfl := Option.some.inj (hslot.symm.trans ht)
        have hunhanded := he.unhanded w.call hbegin (hgiven' w hw hwr) hx
        cases hholder : s.holder with
        | none =>
          rw [hcome] at hready'
          exact absurd hready' (hl.arrive_not_ready hholder now w.call)
        | some holder =>
          obtain ⟨v, stage⟩ := holder
          have hwork := hl.valid.outside_of_ready hready
          cases stage with
          | granted => exact hs.repays_unattended hslot hclears hready (hunhanded i s v hslot hholder _)
          | launching | stopping => simp [Slot.work?, hholder] at hwork
  · rw [hs.ordered.sound.numbers i s hslot] at hnone
    simp [Slot.Repays, hnone]

/-- An event of such a run leaves whatever is to be cleared on its way back. -/
theorem Recoverable.apply (hr : h.Recoverable given) (hs : h.Settled True K) (hstaged : h.Staged)
    (he : h.Permits given e) (hs' : (h.apply e).Settled True K') : (h.apply e).Recoverable given := by
  intro i s' k d' hslot' hclears' hgiven' hready'
  have hrepaid := hr.before hs hstaged he hs' hslot' hclears' hgiven' hready'
  have hkept (c : CallId) (x : Call) (hdrop : e = .drop c) (hx : h.call? c = some x)
      (ht : x.task = .releaseConnection ⟨i, k + 1⟩) : ∃ r, x.progress = .ended r := by
    subst hdrop
    rcases he.uses x hx with hno | ⟨hno, _⟩
    · rw [ht] at hno
      exact hno.elim
    · cases ht.symm.trans hno
  rcases hrepaid.apply hs.ordered (hs.books trivial).tasks e hkept with ⟨s₀, hslot₀, hgone⟩ | hrepaid' | hattached
  · obtain rfl := Option.some.inj (hslot'.symm.trans hslot₀)
    rw [← hs'.ordered.sound.numbers i s' hslot'] at hgone
    exact absurd hready' ((hs'.ordered.sound.lives i s' hslot').gone_not_ready hgone)
  · exact hrepaid'
  · exact absurd hclears' (hs'.attached_unclear hslot' hattached)

section Run
variable {events : List Event}

theorem over_of_ended (results : List Result) (hcalls : h.calls.map Call.progress = results.map .ended) : h.Over := by
  intro c x hx
  have hp : x.progress ∈ results.map .ended := hcalls ▸ List.mem_map_of_mem (List.mem_of_getElem? hx)
  obtain ⟨r, _, hr⟩ := List.mem_map.1 hp
  exact .inl ⟨r, hr.symm⟩

theorem Settled.run_permitted (hs : h.Settled True K) (hstaged : h.Staged) (hr : h.Recoverable given)
    (he : h.Throughout (Permits given) events) : (h.run events).Settled True (h.lastOpened K events) := by
  induction events generalizing h K with
  | nil => exact hs
  | cons e events ih =>
    have hs' := hs.permitted hr he.1
    exact ih hs' ((hs.ordered.happens e).staged hstaged) (hr.apply hs hstaged he.1 hs') he.2

/-- The registry is used by a lifecycle only, any of whose shutdowns may be given up at any moment if it began where
the gate of no connection with editors had just been handed on. Whenever all that has begun is over, every live
connection has as many references as editors are attached by it, and there are such; and every attached editor has an
open session on the connection, ready, that serves the key it was last opened with. -/
theorem interrupted_balance {bounds : Bounds} (he : (Host.new bounds).Throughout (Permits given) events)
    (hover : ((Host.new bounds).run events).Over) :
    let h := (Host.new bounds).run events
    (∀ s ∈ h.registry.slots, ∀ c ∈ s.connections, c.isLive = true →
      c.status = .ready ∧ c.refs = h.attachedTo c.id ∧ 0 < c.refs) ∧
    ∀ e σ, h.attachment? e = some (.attached σ) →
      ∃ (y : Session) (key : ServerKey) (c : Connection),
        h.session? σ = some y ∧ y.closed = false ∧
        (Host.new bounds).lastOpened (fun _ => none) events e = some key ∧ h.registry.connection? key = some c ∧
        c.id = y.connection ∧ c.status = .ready := by
  intro h
  have hnothing : (Host.new bounds).Recoverable given := fun i s k c hs => by simp [Host.new, Registry.empty] at hs
  have hs : h.Settled True _ := (settled_new bounds).run_permitted (staged_new bounds) hnothing he
  have ho := hs.ordered
  have hb := hs.books trivial
  refine ⟨fun s hmem c hc hlive => ?_, fun e σ hattached => hb.attached_ready ho hattached⟩
  obtain ⟨i, hslot⟩ := List.mem_iff_getElem?.1 hmem
  obtain ⟨j, hj⟩ := List.mem_iff_getElem?.1 hc
  have hl := ho.sound.lives i s hslot
  have hvisits := hover.nobody ho hslot
  have hfits := hl.valid.table.fits j c hj
  cases hstatus : c.status with
  | starting =>
    simp only [hstatus, Status.Fits] at hfits
    obtain ⟨⟨v, w⟩, hw, _⟩ := Option.map_eq_some_iff.1 hfits.2.2
    have hv := Slot.mem_of_work hw
    simp [hvisits] at hv
  | ready =>
    simp only [hstatus, Status.Fits] at hfits
    have hready : s.Ready j c := ⟨hfits, hj, hstatus⟩
    rw [ho.sound.ids hslot hj]
    exact ⟨rfl, hb.refs_idle ho hslot hvisits hover.freshReleases_eq hready, (hl.valid.ready_process hready).1⟩
  | failed | shuttingDown | closed => simp [Connection.isLive, hstatus, Status.isLive] at hlive

/-- An editor is attached, and a server is being launched for another one, when the lifecycle begins to shut down. The
shutdown is given up, and the first editor opened again. -/
def givenUpEarly : List Event :=
  [.call (.openEditor (editorIn 0 "/p")), .begin ⟨0⟩, .launched 0 (.ok ⟨none, none⟩),
    .call (.openEditor (editorIn 1 "/q")), .begin ⟨1⟩, .call .shutdownLifecycle, .begin ⟨2⟩, .drop ⟨2⟩,
    .launched 1 (.ok ⟨none, none⟩), .stopped 1, .call (.openEditor (editorIn 0 "/p")), .begin ⟨3⟩,
    .launched 0 (.ok ⟨none, none⟩)]

theorem given_up_early :
    let h := (Host.new default).run givenUpEarly
    h.Over ∧ (h.registry.slots.flatMap Slot.connections).map Connection.refs = [0, 1, 0] ∧
      ∀ s ∈ h.registry.slots, ∀ c ∈ s.connections, c.isLive = true →
        c.status = .ready ∧ c.refs = h.attachedTo c.id ∧ 0 < c.refs := by
  intro h
  have hover : h.Over := over_of_ended [.done, .done, .dropped, .done] (by rfl)
  have hunhanded : ((Host.new default).run (givenUpEarly.take 6)).Unhanded := by
    intro i s v hs hh
    have hstages : ((Host.new default).run (givenUpEarly.take 6)).registry.slots.map
        (fun s => s.holder.map Holder.stage) = [none, some (.launching 0)] := by rfl
    have hstage : s.holder.map Holder.stage ∈ [none, some (Stage.launching 0)] :=
      hstages ▸ List.mem_map_of_mem (List.mem_of_getElem? hs)
    simp [hh] at hstage
  have hend : ((Host.new default).run (givenUpEarly.take 7)).MayEnd (· = ⟨2⟩) ⟨2⟩ := mayEnd_shutdown (by rfl) rfl
  have hearly {h : Host} {n : Nat} (hn : n ≠ 2) : h.Permits (· = ⟨2⟩) (.begin ⟨n⟩) := by
    refine ⟨trivial, fun c hc hgiven => ?_⟩
    obtain rfl := Event.begin.inj hc
    exact absurd (CallId.mk.inj hgiven) hn
  have he : (Host.new default).Throughout (Permits (· = ⟨2⟩)) givenUpEarly :=
    ⟨⟨.inl trivial, nofun⟩, hearly (by decide), ⟨trivial, nofun⟩, ⟨.inl trivial, nofun⟩, hearly (by decide),
      ⟨.inr rfl, nofun⟩, ⟨trivial, fun _ _ _ _ => hunhanded⟩, ⟨hend, nofun⟩, ⟨trivial, nofun⟩, ⟨trivial, nofun⟩,
      ⟨.inl trivial, nofun⟩, hearly (by decide), ⟨trivial, nofun⟩, trivial⟩
  exact ⟨hover, by rfl, (interrupted_balance he hover).1⟩

/-- Two editors are opened in one project, and the gate has just been handed on to the second, with the first attached,
when the lifecycle begins to shut down. The shutdown is given up. -/
def handedOn : List Event :=
  [.call (.openEditor (editorIn 0 "/p")), .begin ⟨0⟩, .call (.openEditor (editorIn 1 "/p")), .begin ⟨1⟩,
    .launched 0 (.ok ⟨none, none⟩), .call .shutdownLifecycle, .begin ⟨2⟩, .drop ⟨2⟩, .enter 0]

/-- Where the gate of an editor's connection had just been handed on, the reference of the editor is lost. -/
theorem handed_on_leaks :
    ¬∀ (bounds : Bounds) (events : List Event), (Host.new bounds).Throughout (Uses fun _ => True) events →
      ((Host.new bounds).run events).Over →
      ∀ s ∈ ((Host.new bounds).run events).registry.slots, ∀ c ∈ s.connections, c.isLive = true →
        c.refs = ((Host.new bounds).run events).attachedTo c.id := by
  intro hall
  have hend : ((Host.new default).run (handedOn.take 7)).MayEnd (fun _ => True) ⟨2⟩ := mayEnd_shutdown (by rfl) trivial
  have huses : (Host.new default).Throughout (Uses fun _ => True) handedOn :=
    ⟨.inl trivial, trivial, .inl trivial, trivial, trivial, .inr rfl, trivial, hend, trivial, trivial⟩
  have hover : ((Host.new default).run handedOn).Over := over_of_ended [.done, .done, .dropped] (by rfl)
  have hslots : (((Host.new default).run handedOn).registry.slots.flatMap Slot.connections).map
      (fun c => (c.isLive, c.refs, ((Host.new default).run handedOn).attachedTo c.id)) = [(true, 1, 0)] := by rfl
  have hlost : (true, 1, 0) ∈ (((Host.new default).run handedOn).registry.slots.flatMap Slot.connections).map
      fun c => (c.isLive, c.refs, ((Host.new default).run handedOn).attachedTo c.id) := by
    rw [hslots]
    exact List.mem_singleton_self _
  obtain ⟨c, hc, hboth⟩ := List.mem_map.1 hlost
  obtain ⟨s, hs, hc⟩ := List.mem_flatMap.1 hc
  obtain ⟨hlive, hrefs, hnobody⟩ : c.isLive = true ∧ c.refs = 1 ∧
      ((Host.new default).run handedOn).attachedTo c.id = 0 := by simpa using hboth
  have heq := hall default handedOn huses hover s hs c hc hlive
  omega

end Run

end LanguageHost.Host
