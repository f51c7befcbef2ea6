import LanguageHost.Proofs.Host.Deeds
import LanguageHost.Proofs.Host.Passes
import LanguageHost.Proofs.Registry.References

/-! References seen from the calls of the lifecycle: whoever is handed one gives it back, leaves that to the background,
or has an editor attached by it. -/
namespace LanguageHost.Host

/-- What was handed out of the connection has been given back, but for what is on its way at the gate, is left to calls
that have yet to begin, or is in the hand of the call in the air. -/
def Repaid (h : Host) (air : Option CallId) (hand : Option ConnectionId) (id : ConnectionId) : Prop :=
  ∀ s : Slot, h.registry.slots[id.slot]? = some s →
    s.Repays id (h.freshReleases air id + if hand = some id then 1 else 0)

/-- All is repaid, or an editor is attached by the connection. -/
def Requited (h : Host) (id : ConnectionId) : Prop := h.Repaid none none id ∨ 0 < h.attachedTo id

variable {h h' : Host} {air : Option CallId} {hand : Option ConnectionId} {id id' : ConnectionId} {c : CallId}
  {x : Call} {p : Progress} {i : Nat} {s s' : Slot} {r : Request} {o : Opening} {σ : SessionId} {a : Answer}
  {Q : Nat → Request → Prop} {actor : Option CallId} {task : Option Task}

theorem freshReleases_congr (hcalls : h'.calls = h.calls) (air : Option CallId) (id : ConnectionId) :
    h'.freshReleases air id = h.freshReleases air id := by
  have hcall (d : CallId) : h'.call? d = h.call? d := by rw [call?, call?, hcalls]
  simp only [freshReleases, hcalls, hcall]

theorem visit_hand (hr : ¬r.Acquires) : Answer.hand (h.visit c i r).2 = none := by
  cases hs : h.registry.slots[i]? with
  | none => simp [Host.visit, hs, Answer.hand]
  | some s =>
    rw [visit_eq h hs]
    exact s.arrive_hand h.now hr

namespace Repaid

theorem frame (hr : h.Repaid air hand id) (hregistry : h'.registry = h.registry) (hcalls : h'.calls = h.calls) :
    h'.Repaid air hand id := by
  unfold Repaid
  rw [hregistry, freshReleases_congr hcalls]
  exact hr

theorem takeOff (hr : h.Repaid none none id) (hx : h.call? c = some x) : h.Repaid (some c) x.owed? id := by
  intro s hs
  have hrepaid := hr s hs
  rw [freshReleases_takeOff hx id] at hrepaid
  exact hrepaid

theorem land (hr : h.Repaid (some c) none id) (hp : p ≠ .fresh) : (h.setProgress c p).Repaid none none id := by
  intro s hs
  rw [freshReleases_setProgress hp]
  exact hr s hs

theorem finish (hr : h.Repaid (some c) none id) (r : Result) : (h.finish c r).Repaid none none id := hr.land (by simp)

theorem other (hr : h.Repaid air (some id') id) (hne : id' ≠ id) : h.Repaid air none id := by
  intro s hs
  have hrepaid := hr s hs
  rw [if_neg fun he => hne (Option.some.inj he)] at hrepaid
  exact hrepaid

theorem spawn {task : Task} (hr : h.Repaid air (Call.owed? ⟨task, .fresh⟩) id)
    (hair : ∀ c, air = some c → (h.call? c).isSome) : (h.spawn task).Repaid air none id := by
  intro s hs
  rw [spawn_registry] at hs
  rw [freshReleases_spawn hair]
  exact hr s hs

theorem slot (hr : h.Repaid air hand id) (hcalls : h'.calls = h.calls) {hand' : Option ConnectionId}
    (hother : hand = some id → i = id.slot)
    (hslots : ∀ s', h'.registry.slots[id.slot]? = some s' → ∃ s : Slot, h.registry.slots[id.slot]? = some s ∧
      (i ≠ id.slot → s' = s) ∧ (i = id.slot → s.Repays id (h.freshReleases air id + if hand = some id then 1 else 0) →
        s'.Repays id (h.freshReleases air id + if hand' = some id then 1 else 0))) :
    h'.Repaid air hand' id := by
  intro s' hs'
  obtain ⟨s, hs, hne, he⟩ := hslots s' hs'
  rw [freshReleases_congr hcalls]
  by_cases hi : i = id.slot
  · exact he hi (hr s hs)
  · have hrepaid := hr s hs
    rw [if_neg fun hh => hi (hother hh)] at hrepaid
    rw [hne hi]
    unfold Slot.Repays at hrepaid ⊢
    omega

/-- The call in the air comes to a slot. It leaves there what it has in hand, and may be handed something. -/
theorem visit (hr : h.Repaid (some c) hand id) (hhand : hand = some id → i = id.slot ∧ r.returns id = true) :
    (h.visit c i r).1.Repaid (some c) (Answer.hand (h.visit c i r).2) id := by
  refine hr.slot (i := i) (visit_calls ..) (fun hh => (hhand hh).1) fun s' hs' => ?_
  rw [visit_slots, Option.map_eq_some_iff] at hs'
  obtain ⟨s, hs, rfl⟩ := hs'
  refine ⟨s, hs, fun hi => if_neg (Ne.symm hi), fun hi hrepaid => ?_⟩
  subst hi
  rw [if_pos rfl, visit_eq h hs]
  refine Slot.Repays.arrive (v := ⟨c, r⟩) ?_ h.now
  unfold Slot.Repays at hrepaid ⊢
  by_cases hh : hand = some id
  · rw [if_pos hh] at hrepaid
    rw [if_pos (hhand hh).2]
    exact hrepaid
  · rw [if_neg hh] at hrepaid
    omega

theorem openSlot (hr : h.Repaid air hand id) (key : ServerKey) :
    { h with registry := (h.registry.openSlot key).1 }.Repaid air hand id := by
  intro s hs
  unfold Registry.openSlot at hs
  split at hs
  · exact hr s hs
  · dsimp only at hs
    rw [List.getElem?_append] at hs
    split at hs
    · exact hr s hs
    · obtain ⟨_, rfl⟩ := List.getElem?_eq_some_iff.1 hs
      simp [Slot.Repays, Slot.turns, Slot.new, Tally.granted]

section Sessions

theorem release {y : Session} (hr : h.Repaid (some c) hand id) (hy : h.session? σ = some y) (hopen : y.closed = false)
    (hhand : hand = some id → y.connection = id) : (h.beginRelease c σ).1.Repaid (some c) none id := by
  have hclose : (h.closeSession σ).Repaid (some c) hand id := hr.frame rfl rfl
  have hvisit := hclose.visit (i := y.connection.slot) (r := .release (some y.connection)) fun hh => by
    obtain rfl := hhand hh
    exact ⟨rfl, decide_eq_true rfl⟩
  rw [visit_hand Request.release_not_acquires] at hvisit
  unfold Host.beginRelease
  rw [hy]
  simp only [hopen, Bool.false_eq_true, if_false]
  exact hvisit

theorem beginRelease (hr : h.Repaid (some c) none id) (σ : SessionId) :
    (h.beginRelease c σ).1.Repaid (some c) none id := by
  cases hy : h.session? σ with
  | none =>
    simp only [Host.beginRelease, hy]
    exact hr
  | some y =>
    cases hopen : y.closed with
    | true =>
      simp only [Host.beginRelease, hy, hopen, if_true]
      exact hr
    | false => exact hr.release hy hopen (by simp)

theorem released (hr : (h.beginRelease c σ).1.Repaid (some c) none id) (hp : p ≠ .fresh) :
    (match h.beginRelease c σ with
      | (h, some none) => h.setProgress c p
      | (h, _) => h.finish c .done).Repaid none none id := by
  split <;> rename_i he <;> rw [he] at hr
  · exact hr.land hp
  · exact hr.finish .done

end Sessions

section Open

theorem withdraw (hr : h.Repaid air hand id) (e : EditorId) (token : Nat) : (h.withdraw e token).Repaid air hand id :=
  hr.frame (withdraw_registry ..) (withdraw_calls ..)

/-- An open has its editor attached by what it has in hand, or gives that back. -/
theorem completeOpen (hr : h.Repaid (some c) (some id') id) (o : Opening) : (h.completeOpen c o id').Requited id := by
  have hadd : (h.addSession id' o.what.uri).1.Repaid (some c) (some id') id := hr.frame rfl rfl
  have hy : (h.addSession id' o.what.uri).1.session? ⟨h.sessions.length⟩ = some ⟨id', o.what.uri, false⟩ := by
    simp [session?, Host.addSession]
  have hdiscard {h₁ : Host} (hr₁ : h₁.Repaid (some c) (some id') id)
      (hy₁ : h₁.session? ⟨h.sessions.length⟩ = some ⟨id', o.what.uri, false⟩) :
      (match h₁.beginRelease c ⟨h.sessions.length⟩ with
        | (h₂, some none) => h₂.setProgress c (.discarding o.editor o.token ⟨h.sessions.length⟩)
        | (h₂, _) => h₂.finish c .done).Requited id :=
    .inl (Repaid.released (hr₁.release hy₁ rfl Option.some.inj) (by simp))
  unfold Host.completeOpen
  dsimp only
  split
  · split
    · split
      · have hdetach : ((h.addSession id' o.what.uri).1.detach o.editor).Repaid (some c) (some id') id :=
          hadd.frame rfl rfl
        exact hdiscard hdetach hy
      · by_cases hid : id' = id
        · refine .inr (attachedTo_pos (e := o.editor) (σ := ⟨h.sessions.length⟩) List.mem_cons_self ?_)
          rw [← hid]
          exact congrArg (Option.map Session.connection) hy
        · have hattach : ((h.addSession id' o.what.uri).1.attach o.editor
              (.attached ⟨h.sessions.length⟩)).Repaid (some c) none id := (hadd.other hid).frame rfl rfl
          exact .inl (hattach.finish .done)
    · exact hdiscard hadd hy
  · exact hdiscard hadd hy

theorem answerOpen (hr : h.Repaid (some c) (Answer.hand (some a)) id) (o : Opening) :
    (h.answerOpen c o a).Requited id := by
  cases a with
  | acquired id' => exact hr.completeOpen o
  | refused | released | cleared => exact .inl (Repaid.finish (hr.withdraw o.editor o.token) .done)

theorem acquireForOpen (hr : h.Repaid (some c) none id) (o : Opening) : (h.acquireForOpen c o).Requited id := by
  unfold Host.acquireForOpen
  split
  · exact .inl (Repaid.finish (hr.withdraw o.editor o.token) .done)
  · have hvisit : (h.visitToAcquire c o.what.key o.what.document).1.Repaid (some c)
        (Answer.hand (h.visitToAcquire c o.what.key o.what.document).2) id :=
      (hr.openSlot o.what.key).visit (by simp)
    split <;> rename_i he <;> rw [he] at hvisit
    · exact hvisit.answerOpen o
    · exact .inl (hvisit.land (by simp))

theorem openEditor (hr : h.Repaid (some c) none id) (e : Editor) : (h.openEditor c e).Requited id := by
  have htoken : ({ h with nextToken := h.nextToken + 1 } : Host).Repaid (some c) none id := hr.frame rfl rfl
  unfold Host.openEditor
  dsimp only
  split
  · rename_i what _
    have hattach : ({ h with nextToken := h.nextToken + 1 }.attach e.id (.pending h.nextToken false)).Repaid (some c)
        none id := htoken.frame rfl rfl
    unfold Host.beginOpen
    dsimp only
    split
    · rename_i σ _
      have hrelease := hattach.beginRelease σ
      split <;> rename_i he <;> rw [he] at hrelease
      · exact .inl (hrelease.land (by simp))
      · exact hrelease.acquireForOpen _
    · exact hattach.acquireForOpen _
  · exact .inl (htoken.finish .done)
  · exact .inl (htoken.finish .done)

end Open

section Calls

theorem closeEditor (hr : h.Repaid (some c) none id) (e : EditorId) : (h.closeEditor c e).Repaid none none id := by
  unfold Host.closeEditor
  split
  · exact hr.finish .done
  · have hattach (a : Attachment) : (h.attach e a).Repaid (some c) none id := hr.frame rfl rfl
    exact (hattach _).finish .done
  · rename_i σ _
    have hdetach : (h.detach e).Repaid (some c) none id := hr.frame rfl rfl
    exact Repaid.released (hdetach.beginRelease σ) (by simp)

theorem beginPlainRelease (hr : h.Repaid (some c) (some id') id) :
    (h.beginPlainRelease c (some id'.slot) (some id')).Repaid none none id := by
  have hvisit := hr.visit (i := id'.slot) (r := .release (some id')) fun hh => by
    obtain rfl := Option.some.inj hh
    exact ⟨rfl, decide_eq_true rfl⟩
  rw [visit_hand Request.release_not_acquires] at hvisit
  unfold Host.beginPlainRelease
  dsimp only
  split <;> rename_i he <;> rw [he] at hvisit
  · exact hvisit.finish .done
  · exact hvisit.land (by simp)

theorem clearSlots (hr : h.Repaid (some c) none id) (l : List Nat) :
    (h.clearSlots c l).1.Repaid (some c) none id := by
  induction l generalizing h with
  | nil => exact hr
  | cons i rest ih =>
    have hvisit := hr.visit (i := i) (r := .clear) (by simp)
    rw [visit_hand Request.clear_not_acquires] at hvisit
    rw [Host.clearSlots]
    split <;> rename_i he <;> rw [he] at hvisit
    · exact ih hvisit
    · exact ih hvisit

theorem shutdownAll (hr : h.Repaid (some c) none id) (report : Bool) :
    (h.shutdownAll c report).Repaid none none id := by
  have hcleared := hr.clearSlots (List.range h.registry.slots.length)
  unfold Host.shutdownAll
  split <;> rename_i he <;> rw [he] at hcleared
  · exact hcleared.finish _
  · exact hcleared.land (by simp)

theorem shutdownLifecycle (hr : h.Repaid (some c) none id) : (h.shutdownLifecycle c).Repaid none none id := by
  have hdrained : h.drained.Repaid (some c) none id :=
    hr.frame h.drained_registry (h.drained_passes none).1.calls
  exact hdrained.shutdownAll false

theorem begin (hr : h.Repaid none none id) {t : Task} (hx : h.call? c = some ⟨t, .fresh⟩) (ht : t.OfLifecycle) :
    (h.begin c t).Requited id := by
  have hair := hr.takeOff hx
  cases t with
  | releaseConnection id' => exact .inl (beginPlainRelease hair)
  | openEditor editor => exact openEditor hair editor
  | closeEditor e => exact .inl (closeEditor hair e)
  | shutdownLifecycle => exact .inl (shutdownLifecycle hair)
  | acquire | release | shutdownAll | releaseSession => exact ht.elim

end Calls

section Slot
variable {v : Visit} {stage : Stage} {ans : Option Answer} (hr : h.Repaid none none id)
  (hs : h.registry.slots[i]? = some s) (hh : s.holder = some ⟨v, stage⟩)
include hr hs hh

/-- The holder of a gate has done a step, and has in hand what that has handed it. -/
theorem step (hl : s.Leaves v (s', ans)) (hx : h.call? v.call = some x) (hw : h.Waits x i v.request) :
    (h.setSlot i s').Repaid (ans.map fun _ => v.call) (Answer.hand ans) id := by
  have hair : h.Repaid (ans.map fun _ => v.call) none id := by
    cases ans with
    | none => exact hr
    | some a =>
      have htakeOff := hr.takeOff hx
      rwa [Books.waiting_owed hw] at htakeOff
  refine hair.slot (i := i) (setSlot_calls ..) (by simp) fun t ht => ?_
  rcases setSlot_slots hs ht with ⟨rfl, rfl⟩ | ⟨hne, ht⟩
  · exact ⟨s, hs, fun hno => absurd rfl hno, fun _ hrepaid => hrepaid.leaves hh hl⟩
  · exact ⟨t, ht, fun _ => rfl, fun he => absurd he.symm hne⟩

theorem answered (hm : s.Moves v (s', some a)) (hx : h.call? v.call = some x) (hw : h.Waits x i v.request)
    (ht : x.task.OfLifecycle) : ((h.setSlot i s').answered v.call i a).Requited id := by
  have hstep := hr.step hs hh hm.leaves hx hw
  have hprogress : (h.setSlot i s').progress? v.call = some x.progress := by
    rw [progress?, call?, setSlot_calls]
    exact congrArg (Option.map Call.progress) hx
  have hempty (hno : ¬v.request.Acquires) : (h.setSlot i s').Repaid (some v.call) none id := by
    have hstep := hstep
    rw [hm.empty hno] at hstep
    exact hstep
  unfold Host.answered
  rw [hprogress]
  generalize v.request = r at hw hempty
  cases hw with
  | acquiring _ ht' | release _ ht' =>
    rw [ht'] at ht
    exact ht.elim
  | opening hp =>
    rw [hp]
    exact hstep.answerOpen _
  | returning hp =>
    rw [hp]
    exact .inl ((hempty Request.release_not_acquires).finish .done)
  | session hp =>
    have hback := hempty Request.release_not_acquires
    cases hprog : x.progress with
    | releasingSession => exact .inl (hback.finish _)
    | reopening o => exact hback.acquireForOpen o
    | discarding | closing => exact .inl (hback.finish .done)
    | fresh | acquiring | releasing | clearing | opening | ended => simp [hprog, releasing?] at hp
  | clearing hp =>
    have hback := hempty Request.clear_not_acquires
    rw [hp]
    dsimp only
    split
    · exact .inl (hback.finish _)
    · exact .inl (hback.land (by simp))

end Slot

section GivenUp
variable (hr : h.Repaid none none id) (ho : h.Ordered none Q) (hx : h.call? c = some x)
include hr ho hx

/-- A call is taken out of all slots. What it was giving back is left to a new call. -/
theorem interrupt (ht : x.task ≠ .releaseConnection id) :
    (h.interrupt c x.progress).Repaid (some c) none id := by
  obtain ⟨slots, woken, he, hslots⟩ := abandonSlots_eq h c
  have howed : x.owed? ≠ some id := by
    unfold Call.owed?
    split
    · intro hid
      obtain rfl := Option.some.inj hid
      exact absurd rfl ht
    · simp
  have hleft : (h.abandonSlots c).Repaid (some c) ((releasing? x.progress).bind h.connectionOf?) id := by
    intro s' hs'
    rw [he] at hs'
    rw [freshReleases_congr (h := h) (by rw [he])]
    obtain ⟨s, hs, rfl⟩ := Option.map_eq_some_iff.1 ((hslots id.slot).symm.trans hs')
    have hrepaid := hr s hs
    rw [freshReleases_takeOff hx id, if_neg howed] at hrepaid
    refine hrepaid.abandon (ho.sound.lives _ s hs).valid fun v hv hc hreturns => ?_
    -- What the call was giving back here is what its progress says.
    have hw := ho.waits c x (by simp) hx id.slot s hs v hv hc
    generalize v.request = q at hw hreturns
    cases hw with
    | acquiring | opening | release | clearing => cases hreturns
    | returning _ hreturning =>
      obtain rfl := of_decide_eq_true hreturns
      exact absurd hreturning ht
    | session hp _ hσ =>
      obtain rfl := of_decide_eq_true hreturns
      rw [hp, Option.bind_some, if_pos hσ]
      exact Nat.one_pos
  have hsessions : (h.abandonSlots c).session? = h.session? := by rw [he]; rfl
  unfold Host.interrupt
  dsimp only
  rw [hsessions]
  have hhand : (releasing? x.progress).bind h.connectionOf? =
      ((releasing? x.progress).bind h.session?).map Session.connection := by
    cases releasing? x.progress <;> rfl
  rw [hhand] at hleft
  cases hy : (releasing? x.progress).bind h.session? with
  | none =>
    rw [hy] at hleft
    exact hleft
  | some y =>
    rw [hy] at hleft
    refine Repaid.spawn hleft fun d hd => ?_
    obtain rfl := Option.some.inj hd
    rw [call?, he]
    exact Option.isSome_of_eq_some hx

theorem crash (hp : ∀ r, x.progress ≠ .ended r) (ht : x.task ≠ .releaseConnection id) :
    (h.crash c).Repaid none none id := by
  have hleft := hr.interrupt ho hx ht
  rw [Ordered.crash_eq hx hp]
  split
  · exact (hleft.withdraw _ _).finish .done
  · exact (hleft.withdraw _ _).finish .done
  · exact (hleft.withdraw _ _).finish .done
  · exact hleft.finish .done
  · exact hleft.finish .crashed

end GivenUp

end Repaid

/-- The connection was launched and is out of its slot's hands. -/
def Gone (h : Host) (id : ConnectionId) : Prop := ∃ s : Slot, h.registry.slots[id.slot]? = some s ∧ s.Gone id

theorem Gone.since (hg : h.Gone id) (hs : h.Since h') : h'.Gone id := by
  obtain ⟨s, hslot, hgone⟩ := hg
  obtain ⟨s', hslot', hgrows⟩ := hs.slots id.slot s hslot
  exact ⟨s', hslot', hgone.grows hgrows⟩

theorem Waits.under_way (hw : h.Waits x i r) : x.progress ≠ .fresh ∧ ∀ result, x.progress ≠ .ended result := by
  refine ⟨fun hp => ?_, fun result hp => ?_⟩ <;> cases hw <;> simp_all [releasing?]

theorem Ordered.inside_call (ho : h.Ordered none Q) (hin : h.Inside c) :
    ∃ x, h.call? c = some x ∧ ∀ r, x.progress ≠ .ended r := by
  obtain ⟨i, s, v, w, hs, hw, rfl⟩ := hin
  have hv := Slot.mem_of_work hw
  obtain ⟨x, hx⟩ := Option.isSome_iff_exists.1 (ho.known i s hs v hv)
  exact ⟨x, hx, (ho.waits v.call x (by simp) hx i s hs v hv rfl).under_way.2⟩

/-- A call crashes that was to give the reference back on behalf of nobody. It has taken the last one. -/
theorem Ordered.crash_gone (ho : h.Ordered none Q) (hx : h.call? c = some x) (hp : ∀ r, x.progress ≠ .ended r)
    (ht : x.task = .releaseConnection id) (hin : h.Inside c) : (h.crash c).Gone id := by
  obtain ⟨i, s, v, w, hs, hw, rfl⟩ := hin
  obtain ⟨rfl, hr, _⟩ := (ho.waits _ x (by simp) hx i s hs v (Slot.mem_of_work hw) rfl).returned ht
  refine ⟨s.abandon v.call, ?_, (ho.sound.lives _ s hs).abandon_gone hw hr⟩
  rw [crash_slots _ _ hx hp, hs]
  rfl

namespace Repaid

section Event
variable (hr : h.Repaid none none id) (ho : h.Ordered none Q)
  (htasks : ∀ c x, h.call? c = some x → x.task.OfLifecycle)
include hr ho htasks

theorem stepSlot (i : Nat) {step : Slot → Slot × Option Answer}
    (hidle : ∀ s : Slot, s.holder = none → step s = (s, none))
    (hstep : ∀ (s : Slot) v stage, s.Lives → s.holder = some ⟨v, stage⟩ → s.Moves v (step s)) :
    (h.stepSlot i step).Requited id := by
  unfold Host.stepSlot
  split
  · exact .inl hr
  · rename_i s hs
    cases hh : s.holder with
    | none =>
      rw [hidle s hh]
      have hregistry : (h.setSlot i s).registry = h.registry := by
        rw [setSlot_registry, Registry.setSlot_self hs]
      exact .inl (hr.frame hregistry (setSlot_calls ..))
    | some holder =>
      obtain ⟨v, stage⟩ := holder
      have hl := ho.sound.lives i s hs
      have hv : v ∈ s.visits := by simp [Slot.visits, hh]
      obtain ⟨x, hx⟩ := Option.isSome_iff_exists.1 (ho.known i s hs v hv)
      have hw := ho.waits v.call x (by simp) hx i s hs v hv rfl
      have hm := hstep s v stage hl hh
      generalize step s = out at hm
      obtain ⟨s', ans⟩ := out
      cases ans with
      | none => exact .inl (hr.step hs hh hm.leaves hx hw)
      | some a => exact hr.answered hs hh hm hx hw (htasks v.call x hx)

/-- Whatever happens, a reference that is handed out is repaid or has an editor attached, unless the connection is out
of all hands; but nobody may give up a call that is to give the reference back. -/
theorem apply (e : Event) (hkept : ∀ c x, e = .drop c → h.call? c = some x → x.task = .releaseConnection id →
      ∃ r, x.progress = .ended r) : (h.apply e).Gone id ∨ (h.apply e).Requited id := by
  have hgate {i : Nat} (hg : gate? e = some i) : (h.apply e).Requited id := by
    rcases h.apply_gate hg with hsame | ⟨step, hstep, hidle, hmoves⟩
    · rw [hsame]
      exact .inl hr
    · rw [hstep]
      exact hr.stepSlot ho htasks i hidle hmoves
  cases e with
  | call task =>
    have hmore : h.Repaid none (Call.owed? ⟨task, .fresh⟩) id := fun s hs => (hr s hs).trans (by simp)
    exact .inr (.inl (hmore.spawn (by simp)))
  | session connection uri =>
    have hadd : (h.addSession connection uri).1.Repaid none none id := hr.frame rfl rfl
    exact .inr (.inl hadd)
  | begin c =>
    by_cases hfresh : ∃ t, h.call? c = some ⟨t, .fresh⟩
    · obtain ⟨t, hx⟩ := hfresh
      rw [apply_begin hx]
      exact .inr (hr.begin hx (htasks c _ hx))
    · rw [apply_begun fun t hx => hfresh ⟨t, hx⟩]
      exact .inr (.inl hr)
  | enter i | launched i | stopped i | expire i => exact .inr (hgate rfl)
  | crash i =>
    show (h.crashIn i).Gone id ∨ (h.crashIn i).Requited id
    rcases h.crashIn_cases i with hsame | ⟨s, v, w, hslot, hw, hcrash⟩
    · rw [hsame]
      exact .inr (.inl hr)
    · have hin : h.Inside v.call := ⟨i, s, v, w, hslot, hw, rfl⟩
      obtain ⟨x, hx, hp⟩ := ho.inside_call hin
      rw [hcrash]
      -- One who was to give the reference back for nobody takes it along. It was the last one then.
      by_cases ht : x.task = .releaseConnection id
      · exact .inl (ho.crash_gone hx hp ht hin)
      · exact .inr (.inl (hr.crash ho hx hp ht))
  | drop c =>
    refine .inr (.inl ?_)
    show (h.drop c).Repaid none none id
    cases hx : h.call? c with
    | none =>
      rw [Host.drop, progress?, hx]
      exact hr
    | some x =>
      by_cases hp : ∃ r, x.progress = .ended r
      · obtain ⟨r, hp⟩ := hp
        have hprogress : h.progress? c = some (.ended r) := by rw [progress?, hx, Option.map_some, hp]
        rw [Host.drop, hprogress]
        exact hr
      · rw [drop_eq hx fun r hr => hp ⟨r, hr⟩]
        exact (hr.interrupt ho hx fun ht => hp (hkept c x rfl hx ht)).finish .dropped
  | tick n =>
    have htick : ({ h with now := h.now + n } : Host).Repaid none none id := hr.frame rfl rfl
    exact .inr (.inl htick)

end Event

end Repaid
end LanguageHost.Host
