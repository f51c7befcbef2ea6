import LanguageHost.Host.Event
import LanguageHost.Proofs.Registry.Slots
import LanguageHost.Proofs.Registry.Tally

/-! Where calls are: a call waits at a gate only as its progress says, and what it returns is what it
was answered there. One call at a time may be in the air, on its way from one wait to the next. -/
namespace LanguageHost

/-- What a call to acquire returns on an answer. -/
def Answer.result : Answer → Result
  | .acquired id => .connection id
  | .refused e => .failed e
  | .released | .cleared _ => .done

namespace Task

def Acquires (t : Task) : Prop := ∃ key document, t = .acquire key document

/-- The task is about sessions and asks for connections on their behalf. -/
def OfSession : Task → Prop
  | .openEditor _ | .closeEditor _ | .releaseSession _ => True
  | _ => False

/-- What a task asks of which slot. -/
inductive Asks (r : Registry) (i : Nat) : Task → Request → Prop
  | acquire {key document seen} (hi : r.slotIndex? key = some i) :
      Asks r i (.acquire key document) (.acquire key document seen)
  | release {key} (hi : r.slotIndex? key = some i) : Asks r i (.release key) (.release none)
  | releaseConnection {id} (hi : i = id.slot) : Asks r i (.releaseConnection id) (.release (some id))
  | shutdownAll : Asks r i .shutdownAll .clear
  | shutdownLifecycle : Asks r i .shutdownLifecycle .clear
  | session {task request} (ht : task.OfSession) : Asks r i task request

theorem OfSession.not_acquires {t : Task} (ht : t.OfSession) : ¬t.Acquires := by
  rintro ⟨key, document, rfl⟩
  exact ht

theorem Asks.clear {r : Registry} {i : Nat} {t : Task} (ht : t = .shutdownAll ∨ t = .shutdownLifecycle) :
    t.Asks r i .clear := by
  rcases ht with rfl | rfl
  · exact .shutdownAll
  · exact .shutdownLifecycle

theorem clears_not_acquires {t : Task} (ht : t = .shutdownAll ∨ t = .shutdownLifecycle) : ¬t.Acquires := by
  rintro ⟨key, document, rfl⟩
  rcases ht with ht | ht <;> cases ht

theorem Asks.mono {r r' : Registry} {i : Nat} {t : Task} {request : Request} (h : t.Asks r i request)
    (hr : ∀ key i, r.slotIndex? key = some i → r'.slotIndex? key = some i) : t.Asks r' i request := by
  cases h with
  | acquire hi => exact .acquire (hr _ _ hi)
  | release hi => exact .release (hr _ _ hi)
  | releaseConnection hi => exact .releaseConnection hi
  | shutdownAll => exact .shutdownAll
  | shutdownLifecycle => exact .shutdownLifecycle
  | session ht => exact .session ht

end Task

namespace Host

def connectionOf? (h : Host) (σ : SessionId) : Option ConnectionId := (h.session? σ).map Session.connection

/-- A call that has come so far may be in the slot with the request. -/
inductive Waits (h : Host) (x : Call) (i : Nat) : Request → Prop
  | acquiring {key document seen} (hp : x.progress = .acquiring) (ht : x.task = .acquire key document)
      (hi : h.registry.slotIndex? key = some i) : Waits h x i (.acquire key document seen)
  | opening {o seen} (hp : x.progress = .opening o) (ht : x.task.OfSession)
      (hi : h.registry.slotIndex? o.what.key = some i) : Waits h x i (.acquire o.what.key o.what.document seen)
  | release {key} (hp : x.progress = .releasing) (ht : x.task = .release key)
      (hi : h.registry.slotIndex? key = some i) : Waits h x i (.release none)
  | returning {id} (hp : x.progress = .releasing) (ht : x.task = .releaseConnection id) (hi : i = id.slot) :
    Waits h x i (.release (some id))
  | session {σ id} (hp : releasing? x.progress = some σ) (ht : x.task.OfSession) (hσ : h.connectionOf? σ = some id)
      (hi : i = id.slot) : Waits h x i (.release (some id))
  | clearing {waiting closed report} (hp : x.progress = .clearing waiting closed report)
      (ht : x.task = .shutdownAll ∨ x.task = .shutdownLifecycle) (hi : i ∈ waiting) : Waits h x i .clear

/-- The call that had the turn has a task that asks for it. -/
def Asked (h : Host) (i : Nat) (t : Turn) : Prop :=
  ∃ x, h.call? t.call = some x ∧ x.task.Asks h.registry i t.request

/-- A call has had this answer to its request, at some gate. -/
def Answered (h : Host) (c : CallId) (r : Request) (a : Answer) : Prop :=
  ∃ (i : Nat) (s : Slot) (t : Turn), h.registry.slots[i]? = some s ∧ t ∈ s.turns ∧ t.call = c ∧ t.request = r ∧
    t.answer = some a

/-- A call to acquire has returned what it was answered, or that its key is not valid. -/
structure Reports (h : Host) (c : CallId) (x : Call) : Prop where
  answered : ∀ key document, x.task = .acquire key document → ∀ r a, h.Answered c r a → x.progress = .ended a.result
  connection : ∀ key document, x.task = .acquire key document → ∀ id, x.progress = .ended (.connection id) →
    ∃ seen, h.Answered c (.acquire key document seen) (.acquired id)
  failed : ∀ key document, x.task = .acquire key document → ∀ e, x.progress = .ended (.failed e) →
    (key.isValid = false ∧ e = .invalidKey key.text) ∨
    ∃ seen, h.Answered c (.acquire key document seen) (.refused e)

/-- The registry is sound and every call is where it says, but for the one in the air, which is at
most where `Q` says. -/
structure Ordered (h : Host) (air : Option CallId) (Q : Nat → Request → Prop) : Prop where
  sound : h.registry.Sound
  known : ∀ (i : Nat) (s : Slot), h.registry.slots[i]? = some s → ∀ v ∈ s.visits, (h.call? v.call).isSome
  asked : ∀ (i : Nat) (s : Slot), h.registry.slots[i]? = some s → ∀ t ∈ s.turns, h.Asked i t
  waits : ∀ c x, some c ≠ air → h.call? c = some x →
    ∀ (i : Nat) (s : Slot), h.registry.slots[i]? = some s → ∀ v ∈ s.visits, v.call = c → h.Waits x i v.request
  reports : ∀ c x, some c ≠ air → h.call? c = some x → h.Reports c x
  here : ∀ (i : Nat) (s : Slot), h.registry.slots[i]? = some s → ∀ v ∈ s.visits, some v.call = air → Q i v.request

variable {h h' : Host} {c : CallId} {air : Option CallId} {Q P : Nat → Request → Prop} {x : Call}

/-- Connections of sessions stay what they are, and slots where they are. -/
structure Keeps (h h' : Host) : Prop where
  sessions : ∀ σ id, h.connectionOf? σ = some id → h'.connectionOf? σ = some id
  slots : ∀ key i, h.registry.slotIndex? key = some i → h'.registry.slotIndex? key = some i

theorem Waits.keeps {i : Nat} {r : Request} (hw : h.Waits x i r) (hk : h.Keeps h') : h'.Waits x i r := by
  cases hw with
  | acquiring hp ht hi => exact .acquiring hp ht (hk.slots _ _ hi)
  | opening hp ht hi => exact .opening hp ht (hk.slots _ _ hi)
  | release hp ht hi => exact .release hp ht (hk.slots _ _ hi)
  | returning hp ht hi => exact .returning hp ht hi
  | session hp ht hσ hi => exact .session hp ht (hk.sessions _ _ hσ) hi
  | clearing hp ht hi => exact .clearing hp ht hi

theorem Waits.asks {i : Nat} {r : Request} (hw : h.Waits x i r) : x.task.Asks h.registry i r := by
  cases hw with
  | acquiring hp ht hi => rw [ht]; exact .acquire hi
  | opening hp ht hi => exact .session ht
  | release hp ht hi => rw [ht]; exact .release hi
  | returning hp ht hi => rw [ht]; exact .releaseConnection hi
  | session hp ht hσ hi => exact .session ht
  | clearing hp ht hi => exact .clear ht

theorem Waits.once {i j : Nat} {r r' : Request} (hw : h.Waits x i r) (hw' : h.Waits x j r') (hr : r ≠ .clear) :
    i = j := by
  cases hw with
  | clearing => exact absurd rfl hr
  | acquiring hp ht hi | opening hp ht hi | release hp ht hi | returning hp ht hi | session hp ht hσ hi =>
    cases hw' <;> simp_all [releasing?]

theorem keeps_evolves (he : h.registry.Evolves c h'.registry)
    (hsessions : ∀ σ id, h.connectionOf? σ = some id → h'.connectionOf? σ = some id) : h.Keeps h' :=
  ⟨hsessions, fun _ _ hi => he.slotIndex? hi⟩

theorem Reports.congr {d : CallId} (hr : h.Reports d x) (ha : ∀ r a, h'.Answered d r a ↔ h.Answered d r a) :
    h'.Reports d x := by
  refine ⟨?_, ?_, ?_⟩
  · intro key document ht r a hra
    exact hr.answered key document ht r a ((ha r a).1 hra)
  · intro key document ht id hp
    obtain ⟨seen, hs⟩ := hr.connection key document ht id hp
    exact ⟨seen, (ha _ _).2 hs⟩
  · intro key document ht e hp
    rcases hr.failed key document ht e hp with hk | ⟨seen, hs⟩
    · exact .inl hk
    · exact .inr ⟨seen, (ha _ _).2 hs⟩

theorem reports_of_silent {d : CallId} (hs : x.task.Acquires → ∀ r a, ¬h.Answered d r a)
    (hp : ∀ id e, x.progress ≠ .ended (.connection id) ∧ x.progress ≠ .ended (.failed e)) : h.Reports d x := by
  refine ⟨?_, ?_, ?_⟩
  · exact fun key document ht r a hra => absurd hra (hs ⟨key, document, ht⟩ r a)
  · exact fun _ _ _ id he => absurd he (hp id .eof).1
  · exact fun _ _ _ e he => absurd he (hp default e).2

theorem Reports.silent {d : CallId} (hr : h.Reports d x) (hp : ∀ r, x.progress ≠ .ended r) :
    x.task.Acquires → ∀ r a, ¬h.Answered d r a := by
  rintro ⟨key, document, ht⟩ r a hra
  exact hp _ (hr.answered key document ht r a hra)

@[simp] theorem call?_setProgress (h : Host) (c : CallId) (p : Progress) (d : CallId) :
    (h.setProgress c p).call? d =
      if d = c then (h.call? d).map fun x => { x with progress := p } else h.call? d := by
  obtain ⟨m⟩ := c
  obtain ⟨k⟩ := d
  by_cases hk : k = m
  · simp [call?, setProgress, hk]
  · simp [call?, setProgress, hk, Ne.symm hk]

section Fields
variable (h : Host) (i : Nat) (s : Slot) (task : Task)

theorem wake_eq : ∃ woken, h.wake c = { h with woken := woken } := by
  unfold wake
  split
  · exact ⟨_, rfl⟩
  · exact ⟨_, rfl⟩

theorem setSlot_eq : ∃ woken, h.setSlot i s = { h with registry := h.registry.setSlot i s, woken := woken } := by
  unfold setSlot
  dsimp only
  split
  · split
    · exact ⟨_, rfl⟩
    · exact wake_eq _
  · exact ⟨_, rfl⟩

@[simp] theorem setSlot_registry : (h.setSlot i s).registry = h.registry.setSlot i s := by
  obtain ⟨woken, hw⟩ := setSlot_eq h i s
  rw [hw]

@[simp] theorem setSlot_calls : (h.setSlot i s).calls = h.calls := by
  obtain ⟨woken, hw⟩ := setSlot_eq h i s
  rw [hw]

@[simp] theorem setSlot_sessions : (h.setSlot i s).sessions = h.sessions := by
  obtain ⟨woken, hw⟩ := setSlot_eq h i s
  rw [hw]

@[simp] theorem setSlot_attachments : (h.setSlot i s).attachments = h.attachments := by
  obtain ⟨woken, hw⟩ := setSlot_eq h i s
  rw [hw]

@[simp] theorem setSlot_nextToken : (h.setSlot i s).nextToken = h.nextToken := by
  obtain ⟨woken, hw⟩ := setSlot_eq h i s
  rw [hw]

theorem spawn_eq : ∃ woken, h.spawn task = { h with calls := h.calls ++ [⟨task, .fresh⟩], woken := woken } :=
  wake_eq _

@[simp] theorem spawn_registry : (h.spawn task).registry = h.registry := by
  obtain ⟨woken, hw⟩ := spawn_eq h task
  rw [hw]

@[simp] theorem spawn_sessions : (h.spawn task).sessions = h.sessions := by
  obtain ⟨woken, hw⟩ := spawn_eq h task
  rw [hw]

@[simp] theorem spawn_attachments : (h.spawn task).attachments = h.attachments := by
  obtain ⟨woken, hw⟩ := spawn_eq h task
  rw [hw]

@[simp] theorem spawn_nextToken : (h.spawn task).nextToken = h.nextToken := by
  obtain ⟨woken, hw⟩ := spawn_eq h task
  rw [hw]

theorem call?_spawn (d : CallId) :
    (h.spawn task).call? d = if d.number = h.calls.length then some ⟨task, .fresh⟩ else h.call? d := by
  obtain ⟨woken, hw⟩ := spawn_eq h task
  have hcalls : (h.spawn task).calls = h.calls ++ [⟨task, .fresh⟩] := by rw [hw]
  rw [call?, call?, hcalls]
  split
  · rename_i hd
    simp [hd]
  · rename_i hd
    by_cases hlt : d.number < h.calls.length
    · rw [List.getElem?_append_left hlt]
    · rw [List.getElem?_eq_none (by simp; omega), List.getElem?_eq_none (by omega)]

theorem visit_eq {i : Nat} {s : Slot} (hs : h.registry.slots[i]? = some s) (c : CallId) (r : Request) :
    h.visit c i r = (h.setSlot i (s.arrive h.now ⟨c, r⟩).1, (s.arrive h.now ⟨c, r⟩).2) := by
  simp [visit, hs]

section Visit
variable (c : CallId) (r : Request)

@[simp] theorem visit_calls : (h.visit c i r).1.calls = h.calls := by
  unfold visit
  split
  · rfl
  · exact setSlot_calls ..

@[simp] theorem visit_sessions : (h.visit c i r).1.sessions = h.sessions := by
  unfold visit
  split
  · rfl
  · exact setSlot_sessions ..

@[simp] theorem visit_attachments : (h.visit c i r).1.attachments = h.attachments := by
  unfold visit
  split
  · rfl
  · exact setSlot_attachments ..

@[simp] theorem visit_nextToken : (h.visit c i r).1.nextToken = h.nextToken := by
  unfold visit
  split
  · rfl
  · exact setSlot_nextToken ..

end Visit

private theorem abandon_fold (c : CallId) (l : List Nat) (hl : l.Nodup) (h : Host) :
    ∃ slots woken, l.foldl (fun h i => match h.registry.slots[i]? with
        | some s => h.setSlot i (s.abandon c)
        | none => h) h = { h with registry := ⟨slots, h.registry.launches⟩, woken := woken } ∧
      ∀ j : Nat, slots[j]? = (h.registry.slots[j]?).map fun s => if j ∈ l then s.abandon c else s := by
  induction l generalizing h with
  | nil => exact ⟨h.registry.slots, h.woken, rfl, by simp⟩
  | cons i l ih =>
    obtain ⟨hi, hl⟩ := List.nodup_cons.1 hl
    rw [List.foldl_cons]
    cases hs : h.registry.slots[i]? with
    | none =>
      obtain ⟨slots, woken, he, hslots⟩ := ih hl h
      refine ⟨slots, woken, he, fun j => ?_⟩
      rw [hslots]
      by_cases hj : j = i
      · subst hj
        simp [hs]
      · simp [hj]
    | some s =>
      obtain ⟨w, hw⟩ := setSlot_eq h i (s.abandon c)
      have hnew : Registry.newLaunches s (s.abandon c) = [] := by
        rw [Registry.newLaunches, List.drop_eq_nil_of_le (Nat.le_of_eq (s.abandon_generation c))]
        rfl
      obtain ⟨slots, woken, he, hslots⟩ := ih hl (h.setSlot i (s.abandon c))
      refine ⟨slots, woken, he.trans ?_, fun j => ?_⟩
      · rw [hw]
        simp [Registry.setSlot_eq hs, hnew]
      · rw [hslots, setSlot_registry, Registry.setSlot_get hs]
        by_cases hj : j = i
        · subst hj
          simp [hs, hi]
        · simp [hj]

theorem abandonSlots_eq (c : CallId) : ∃ slots woken,
    h.abandonSlots c = { h with registry := ⟨slots, h.registry.launches⟩, woken := woken } ∧
      ∀ j : Nat, slots[j]? = (h.registry.slots[j]?).map (·.abandon c) := by
  obtain ⟨slots, woken, he, hslots⟩ := abandon_fold c _ List.nodup_range h
  refine ⟨slots, woken, he, fun j => ?_⟩
  rw [hslots]
  cases hs : h.registry.slots[j]? with
  | none => rfl
  | some s => simp [(List.getElem?_eq_some_iff.1 hs).1]

end Fields

section Back
variable {i : Nat} {s s' : Slot} {new : List Turn}

theorem setSlot_slots (hs : h.registry.slots[i]? = some s) {j : Nat} {t : Slot}
    (ht : (h.setSlot i s').registry.slots[j]? = some t) :
    (j = i ∧ t = s') ∨ (j ≠ i ∧ h.registry.slots[j]? = some t) := by
  rw [setSlot_registry, Registry.setSlot_get hs] at ht
  split at ht
  · exact .inl ⟨by assumption, (Option.some.inj ht).symm⟩
  · exact .inr ⟨by assumption, ht⟩

theorem setSlot_slot (hs : h.registry.slots[i]? = some s) (s' : Slot) :
    (h.setSlot i s').registry.slots[i]? = some s' := by
  rw [setSlot_registry, Registry.setSlot_get hs, if_pos rfl]

/-- What a call has been answered is what it had been, or was in one of the new turns. -/
theorem setSlot_answered (hs : h.registry.slots[i]? = some s) (hturns : s'.turns = new ++ s.turns) {d : CallId}
    {r : Request} {a : Answer} : (h.setSlot i s').Answered d r a ↔
      h.Answered d r a ∨ ∃ u ∈ new, u.call = d ∧ u.request = r ∧ u.answer = some a := by
  constructor
  · rintro ⟨j, t, u, ht, hu, hrest⟩
    rcases setSlot_slots hs ht with ⟨rfl, rfl⟩ | ⟨_, ht⟩
    · rw [hturns, List.mem_append] at hu
      exact hu.elim (fun hu => .inr ⟨u, hu, hrest⟩) fun hu => .inl ⟨_, s, u, hs, hu, hrest⟩
    · exact .inl ⟨j, t, u, ht, hu, hrest⟩
  · rintro (⟨j, t, u, ht, hu, hrest⟩ | ⟨u, hu, hrest⟩)
    · by_cases hj : j = i
      · subst hj
        obtain rfl := Option.some.inj (hs.symm.trans ht)
        exact ⟨j, s', u, setSlot_slot hs s', by rw [hturns]; exact List.mem_append_right _ hu, hrest⟩
      · exact ⟨j, t, u, by rw [setSlot_registry, Registry.setSlot_get hs, if_neg hj]; exact ht, hu, hrest⟩
    · exact ⟨i, s', u, setSlot_slot hs s', by rw [hturns]; exact List.mem_append_left _ hu, hrest⟩

end Back

namespace Ordered

theorem answered_evolves (he : h.registry.Evolves c h'.registry) {d : CallId} (hd : d ≠ c) (r : Request)
    (a : Answer) :
    h'.Answered d r a ↔ h.Answered d r a := by
  constructor
  · rintro ⟨i, s', t, hs', ht, hc, hr, ha⟩
    rcases he.back i s' hs' with ⟨s, hs, hch⟩ | ⟨_, _, hnone⟩
    · exact ⟨i, s, t, hs, (hch.turns t (by rw [hc]; exact hd)).1 ht, hc, hr, ha⟩
    · simp [hnone] at ht
  · rintro ⟨i, s, t, hs, ht, hc, hr, ha⟩
    obtain ⟨s', hs', hch⟩ := he.forth i s hs
    exact ⟨i, s', t, hs', (hch.turns t (by rw [hc]; exact hd)).2 ht, hc, hr, ha⟩

theorem evolve (ho : h.Ordered (some c) Q) (he : h.registry.Evolves c h'.registry) (hcalls : h'.calls = h.calls)
    (hsessions : ∀ σ id, h.connectionOf? σ = some id → h'.connectionOf? σ = some id) (hx : (h.call? c).isSome)
    (hasked : ∀ (i : Nat) (s : Slot), h'.registry.slots[i]? = some s → ∀ t ∈ s.turns, t.call = c → h'.Asked i t)
    (hhere : ∀ (i : Nat) (s : Slot), h'.registry.slots[i]? = some s → ∀ v ∈ s.visits, v.call = c → P i v.request) :
    h'.Ordered (some c) P := by
  have hcall (d : CallId) : h'.call? d = h.call? d := by rw [call?, call?, hcalls]
  have hk := keeps_evolves he hsessions
  have hne {d : CallId} (hd : some d ≠ some c) : d ≠ c := fun he => hd (congrArg some he)
  refine ⟨he.sound, ?_, ?_, ?_, ?_, fun i s hs v hv hc => hhere i s hs v hv (Option.some.inj hc)⟩
  · intro i s' hs' v hv
    rw [hcall]
    rcases he.back i s' hs' with ⟨s, hs, hch⟩ | ⟨_, hnone, _⟩
    · by_cases hvc : v.call = c
      · rwa [hvc]
      · exact ho.known i s hs v ((hch.visits v hvc).1 hv)
    · simp [hnone] at hv
  · intro i s' hs' t ht
    rcases he.back i s' hs' with ⟨s, hs, hch⟩ | ⟨_, _, hnone⟩
    · by_cases htc : t.call = c
      · exact hasked i s' hs' t ht htc
      · obtain ⟨x, hx, ha⟩ := ho.asked i s hs t ((hch.turns t htc).1 ht)
        exact ⟨x, by rw [hcall]; exact hx, ha.mono hk.slots⟩
    · simp [hnone] at ht
  · intro d y hd hy i s' hs' v hv hvd
    rw [hcall] at hy
    rcases he.back i s' hs' with ⟨s, hs, hch⟩ | ⟨_, hnone, _⟩
    · have hv' := (hch.visits v (by rw [hvd]; exact hne hd)).1 hv
      exact (ho.waits d y hd hy i s hs v hv' hvd).keeps hk
    · simp [hnone] at hv
  · intro d y hd hy
    rw [hcall] at hy
    exact (ho.reports d y hd hy).congr (answered_evolves he (hne hd))

theorem frame (ho : h.Ordered air Q) (hr : h'.registry = h.registry) (hcalls : h'.calls = h.calls)
    (hsessions : ∀ σ id, h.connectionOf? σ = some id → h'.connectionOf? σ = some id) : h'.Ordered air Q := by
  have hk : h.Keeps h' := ⟨hsessions, by rw [hr]; exact fun _ _ hi => hi⟩
  have hcall (d : CallId) : h'.call? d = h.call? d := by rw [call?, call?, hcalls]
  have ha (d : CallId) (r : Request) (a : Answer) : h'.Answered d r a ↔ h.Answered d r a := by
    rw [Answered, Answered, hr]
  refine ⟨hr ▸ ho.sound, ?_, ?_, ?_, ?_, by rw [hr]; exact ho.here⟩
  · simpa only [hr, hcall] using ho.known
  · simpa only [hr, hcall, Asked] using ho.asked
  · intro d y hd hy i s hs v hv hvd
    rw [hcall] at hy
    rw [hr] at hs
    exact (ho.waits d y hd hy i s hs v hv hvd).keeps hk
  · intro d y hd hy
    rw [hcall] at hy
    exact (ho.reports d y hd hy).congr (ha d)

theorem takeOff (ho : h.Ordered none Q) (hx : h.call? c = some x) : h.Ordered (some c) (h.Waits x) :=
  ⟨ho.sound, ho.known, ho.asked, fun d y _ => ho.waits d y (by simp), fun d y _ => ho.reports d y (by simp),
    fun i s hs v hv hc => ho.waits c x (by simp) hx i s hs v hv (Option.some.inj hc)⟩

theorem rest (ho : h.Ordered (some c) Q) (hx : h.call? c = some x) (hQ : ∀ i r, Q i r → h.Waits x i r)
    (hr : h.Reports c x) : h.Ordered none fun _ _ => False := by
  refine ⟨ho.sound, ho.known, ho.asked, ?_, ?_, by simp⟩
  · intro d y _ hy i s hs v hv hvd
    by_cases hd : d = c
    · subst hd
      obtain rfl := Option.some.inj (hx.symm.trans hy)
      exact hQ i v.request (ho.here i s hs v hv (congrArg some hvd))
    · exact ho.waits d y (fun he => hd (Option.some.inj he)) hy i s hs v hv hvd
  · intro d y _ hy
    by_cases hd : d = c
    · subst hd
      obtain rfl := Option.some.inj (hx.symm.trans hy)
      exact hr
    · exact ho.reports d y (fun he => hd (Option.some.inj he)) hy

theorem setProgress (ho : h.Ordered (some c) Q) (p : Progress) : (h.setProgress c p).Ordered (some c) Q := by
  have hsome (d : CallId) : ((h.setProgress c p).call? d).isSome = (h.call? d).isSome := by
    rw [call?_setProgress]
    split <;> simp
  have hother {d : CallId} (hd : some d ≠ some c) : (h.setProgress c p).call? d = h.call? d := by
    rw [call?_setProgress, if_neg fun he => hd (congrArg some he)]
  refine ⟨ho.sound, ?_, ?_, ?_, ?_, ho.here⟩
  · simp only [hsome]
    exact ho.known
  · intro i s hs t ht
    obtain ⟨y, hy, ha⟩ := ho.asked i s hs t ht
    rw [Asked, call?_setProgress]
    split
    · exact ⟨{ y with progress := p }, by rw [hy]; rfl, ha⟩
    · exact ⟨y, hy, ha⟩
  · intro d y hd hy i s hs v hv hvd
    rw [hother hd] at hy
    exact (ho.waits d y hd hy i s hs v hv hvd).keeps ⟨fun _ _ hσ => hσ, fun _ _ hi => hi⟩
  · intro d y hd hy
    rw [hother hd] at hy
    exact (ho.reports d y hd hy).congr fun _ _ => .rfl

theorem land (ho : h.Ordered (some c) Q) (hx : h.call? c = some x) {p : Progress}
    (hQ : ∀ i r, Q i r → h.Waits { x with progress := p } i r) (hr : h.Reports c { x with progress := p }) :
    (h.setProgress c p).Ordered none fun _ _ => False := by
  refine (ho.setProgress p).rest (x := { x with progress := p }) (by simp [hx]) ?_ (hr.congr fun _ _ => .rfl)
  exact fun i r hq => (hQ i r hq).keeps ⟨fun _ _ hσ => hσ, fun _ _ hi => hi⟩

theorem mono (ho : h.Ordered air Q) (hQ : ∀ i r, Q i r → P i r) : h.Ordered air P :=
  { ho with here := fun i s hs v hv hc => hQ i v.request (ho.here i s hs v hv hc) }

theorem spawn (ho : h.Ordered air Q) (task : Task) : (h.spawn task).Ordered air Q := by
  have hk : h.Keeps (h.spawn task) :=
    ⟨fun σ id hσ => by simpa [connectionOf?, session?] using hσ, fun key i hi => by simpa using hi⟩
  have ha (d : CallId) (r : Request) (a : Answer) : (h.spawn task).Answered d r a ↔ h.Answered d r a := by
    simp [Answered]
  have hnew {d : CallId} (hd : d.number = h.calls.length) : h.call? d = none := by
    rw [call?, List.getElem?_eq_none (by omega)]
  have hsome {d : CallId} (hd : (h.call? d).isSome) : ((h.spawn task).call? d).isSome := by
    rw [call?_spawn]
    split
    · rfl
    · exact hd
  refine ⟨by simpa using ho.sound, ?_, ?_, ?_, ?_, by simpa using ho.here⟩
  · intro i s hs v hv
    exact hsome (ho.known i s (by simpa using hs) v hv)
  · intro i s hs t ht
    obtain ⟨x, hx, hasks⟩ := ho.asked i s (by simpa using hs) t ht
    refine ⟨x, ?_, by simpa using hasks⟩
    rw [call?_spawn, if_neg]
    · exact hx
    · intro hn
      rw [hnew hn] at hx
      cases hx
  · intro d y hd hy i s hs v hv hvd
    rw [spawn_registry] at hs
    rw [call?_spawn] at hy
    split at hy
    · rename_i hn
      have := ho.known i s hs v hv
      simp [hvd, hnew hn] at this
    · exact (ho.waits d y hd hy i s hs v hv hvd).keeps hk
  · intro d y hd hy
    rw [call?_spawn] at hy
    split at hy
    · rename_i hn
      obtain rfl := Option.some.inj hy
      refine ⟨?_, by simp, by simp⟩
      rintro key document ht r a ⟨i, s, t, hs, hts, htd, _⟩
      rw [spawn_registry] at hs
      obtain ⟨x, hx, _⟩ := ho.asked i s hs t hts
      rw [htd, hnew hn] at hx
      cases hx
    · exact (ho.reports d y hd hy).congr (ha d)

/-- The call in the air puts a slot back. It asked for the turns that it had there. -/
theorem setSlot (ho : h.Ordered (some c) Q) (hx : h.call? c = some x) {i : Nat} {s s' : Slot} {new : List Turn}
    (hs : h.registry.slots[i]? = some s) (hch : s.Change c s') (hturns : s'.turns = new ++ s.turns)
    (hasks : ∀ u ∈ new, u.call = c → x.task.Asks h.registry i u.request) (hother : ∀ j r, j ≠ i → Q j r → P j r)
    (hhere : ∀ v ∈ s'.visits, v.call = c → P i v.request) : (h.setSlot i s').Ordered (some c) P := by
  have hev : h.registry.Evolves c (h.setSlot i s').registry := by
    rw [setSlot_registry]
    exact .setSlot ho.sound hs hch
  have hcall (d : CallId) : (h.setSlot i s').call? d = h.call? d := by rw [call?, setSlot_calls]; rfl
  have hold {j : Nat} {t : Slot} (ht : h.registry.slots[j]? = some t) {u : Turn} (hu : u ∈ t.turns) :
      (h.setSlot i s').Asked j u := by
    obtain ⟨y, hy, ha⟩ := ho.asked j t ht u hu
    exact ⟨y, (hcall _).trans hy, ha.mono fun _ _ => hev.slotIndex?⟩
  refine ho.evolve hev (setSlot_calls ..) (fun σ id hσ => by simpa [connectionOf?, session?] using hσ)
    (by rw [hx]; rfl) ?_ ?_
  · intro j t ht u hu huc
    rcases setSlot_slots hs ht with ⟨rfl, rfl⟩ | ⟨_, ht⟩
    · rw [hturns, List.mem_append] at hu
      rcases hu with hu | hu
      · exact ⟨x, by rw [hcall, huc]; exact hx, (hasks u hu huc).mono fun _ _ => hev.slotIndex?⟩
      · exact hold hs hu
    · exact hold ht hu
  · intro j t ht v hv hvc
    rcases setSlot_slots hs ht with ⟨rfl, rfl⟩ | ⟨hj, ht⟩
    · exact hhere v hv hvc
    · exact hother j v.request hj (ho.here j t ht v hv (congrArg some hvc))

/-- A call in the air comes to a slot where it is not. It is there from now on, or has its answer. -/
theorem visit (ho : h.Ordered (some c) Q) (hx : h.call? c = some x) {i : Nat} {s : Slot}
    (hs : h.registry.slots[i]? = some s) (hnot : ∀ r, ¬Q i r) {r : Request} (hr : x.task.Asks h.registry i r)
    (hasks : ∀ key document seen, r = .acquire key document seen → (s.key == key) = true ∧ seen = s.finished) :
    s.Admits ⟨c, r⟩ ∧
    match h.visit c i r with
    | (h', none) => h'.Ordered (some c) (fun j r' => Q j r' ∨ (j = i ∧ r' = r)) ∧
      (∀ r' b, h'.Answered c r' b → h.Answered c r' b) ∧
      ∃ s', h'.registry.slots[i]? = some s' ∧ s'.key = s.key ∧ s'.visits = s.visits ++ [⟨c, r⟩]
    | (h', some a) => h'.Ordered (some c) Q ∧ h'.Answered c r a ∧
      ∀ r' b, h'.Answered c r' b → h.Answered c r' b ∨ (r' = r ∧ b = a) := by
  have hl := ho.sound.lives i s hs
  have habsent : ∀ w ∈ s.visits, w.call ≠ c := fun w hw he => hnot _ (ho.here i s hs w hw (congrArg some he))
  have ha : s.Admits ⟨c, r⟩ := ⟨habsent, hasks⟩
  refine ⟨ha, ?_⟩
  have hch := hl.arrive ha h.now
  have hleaves := hl.valid.arrive_leaves ha h.now
  rw [visit_eq h hs]
  generalize s.arrive h.now ⟨c, r⟩ = out at hch hleaves
  obtain ⟨s', ans⟩ := out
  rcases hleaves with ⟨hnone, hvisits, hturns⟩ | ⟨e, a, hsome, hvisits, hturns⟩
  · obtain rfl : ans = none := hnone
    have hturns : s'.turns = [] ++ s.turns := hturns
    refine ⟨ho.setSlot hx hs hch hturns (by simp) (fun j r' _ hq => .inl hq) ?_, ?_, s', setSlot_slot hs s',
      hch.key, hvisits⟩
    · intro v hv hvc
      rw [hvisits, List.mem_append, List.mem_singleton] at hv
      rcases hv with hv | rfl
      · exact absurd hvc (habsent v hv)
      · exact .inr ⟨rfl, rfl⟩
    · intro r' b hb
      simpa [setSlot_answered hs hturns] using hb
  · obtain rfl : ans = some a := hsome
    have hturns : s'.turns = [⟨⟨c, r⟩, e, some a⟩] ++ s.turns := hturns
    refine ⟨ho.setSlot hx hs hch hturns (by simpa using hr) (fun j r' _ hq => hq) ?_, ?_, ?_⟩
    · intro v hv hvc
      rw [hvisits] at hv
      exact absurd hvc (habsent v hv)
    · exact (setSlot_answered hs hturns).2 (.inr ⟨_, List.mem_cons_self, rfl, rfl, rfl⟩)
    · intro r' b hb
      simpa [setSlot_answered hs hturns, eq_comm] using hb

/-- The holder of a gate does a step. It waits on, or is in the air with its answer. -/
theorem holder (ho : h.Ordered none Q) {i : Nat} {s s' : Slot} (hs : h.registry.slots[i]? = some s) {v : Visit}
    (hx : h.call? v.call = some x) {ans : Option Answer} (hch : s.Change v.call s') (hleaves : s.Leaves v (s', ans))
    (hv : v ∈ s.visits) (hvisits : s.visits = v :: s.queue) :
    h.Waits x i v.request ∧
    match ans with
    | none => (h.setSlot i s').Ordered none fun _ _ => False
    | some a => (h.setSlot i s').Ordered (some v.call) (fun j r => j ≠ i ∧ h.Waits x j r) ∧
      (h.setSlot i s').Answered v.call v.request a ∧
      ∀ r b, (h.setSlot i s').Answered v.call r b → h.Answered v.call r b ∨ (r = v.request ∧ b = a) := by
  have hw := ho.waits v.call x (by simp) hx i s hs v hv rfl
  refine ⟨hw, ?_⟩
  have hair := ho.takeOff hx
  cases hleaves with
  | waits hv' hl =>
    have hsame : s'.visits = s.visits := hv'.trans hvisits.symm
    have hturns : s'.turns = [] ++ s.turns := by rw [Slot.turns, hl]; rfl
    have hwaits : (h.setSlot i s').Ordered (some v.call) (h.Waits x) :=
      hair.setSlot hx hs hch hturns (by simp) (fun _ _ _ hq => hq) fun w hw' hwc =>
        hair.here i s hs w (hsame ▸ hw') (congrArg some hwc)
    have hkeeps : h.Keeps (h.setSlot i s') := by
      refine keeps_evolves (c := v.call) ?_ fun σ id hσ => by simpa [connectionOf?, session?] using hσ
      rw [setSlot_registry]
      exact .setSlot ho.sound hs hch
    refine hwaits.rest (x := x) (by rw [call?, setSlot_calls]; exact hx) (fun j r hq => hq.keeps hkeeps) ?_
    exact (ho.reports v.call x (by simp) hx).congr fun r b => by simp [setSlot_answered hs hturns]
  | @answered _ a e hv' hl =>
    have hturns : s'.turns = [⟨v, e, some a⟩] ++ s.turns := by rw [Slot.turns, hl]; rfl
    refine ⟨hair.setSlot hx hs hch hturns (by simpa using hw.asks) (fun _ _ hj hq => ⟨hj, hq⟩) ?_, ?_, ?_⟩
    · -- The calls at a gate are distinct, so the one that leaves is not among those that queue.
      intro w hw' hwc
      have hdistinct := (ho.sound.lives i s hs).valid.distinct
      rw [hvisits, List.map_cons, List.nodup_cons] at hdistinct
      exact absurd (List.mem_map.2 ⟨w, hv' ▸ hw', hwc⟩) hdistinct.1
    · exact (setSlot_answered hs hturns).2 (.inr ⟨_, List.mem_cons_self, rfl, rfl, rfl⟩)
    · intro r b hb
      simpa [setSlot_answered hs hturns, eq_comm] using hb

theorem abandon (ho : h.Ordered none Q) (hx : h.call? c = some x) :
    h.registry.Evolves c (h.abandonSlots c).registry ∧ (h.abandonSlots c).Ordered (some c) (fun _ _ => False) ∧
      ∀ r a, (h.abandonSlots c).Answered c r a → h.Answered c r a := by
  obtain ⟨slots, woken, he, hslots⟩ := abandonSlots_eq h c
  have hev : h.registry.Evolves c (h.abandonSlots c).registry := by
    rw [he]
    exact .abandon ho.sound hslots rfl
  have hget {j : Nat} {t : Slot} (ht : (h.abandonSlots c).registry.slots[j]? = some t) :
      ∃ s, h.registry.slots[j]? = some s ∧ s.abandon c = t := by
    rw [he] at ht
    simpa [hslots] using ht
  refine ⟨hev, (ho.takeOff hx).evolve hev (by rw [he]) ?_ (by rw [hx]; rfl) ?_ ?_, ?_⟩
  · rw [he]
    exact fun _ _ hσ => hσ
  · intro j t ht u hu huc
    obtain ⟨s, hs, rfl⟩ := hget ht
    have hx' : (h.abandonSlots c).call? u.call = some x := by
      rw [he, huc]
      exact hx
    rcases Slot.abandon_turns s c u hu with hu | ⟨_, hu⟩
    · obtain ⟨y, hy, hasks⟩ := ho.asked j s hs u hu
      rw [huc, hx] at hy
      obtain rfl := Option.some.inj hy
      exact ⟨x, hx', hasks.mono fun _ _ => hev.slotIndex?⟩
    · exact ⟨x, hx', (ho.waits c x (by simp) hx j s hs _ hu huc).asks.mono fun _ _ => hev.slotIndex?⟩
  · intro j t ht v hv hvc
    obtain ⟨s, hs, rfl⟩ := hget ht
    rw [Slot.abandon_visits (ho.sound.lives j s hs).valid] at hv
    simp [hvc] at hv
  · rintro r a ⟨j, t, u, ht, hu, huc, hur, hua⟩
    obtain ⟨s, hs, rfl⟩ := hget ht
    rcases Slot.abandon_turns s c u hu with hu | ⟨hnone, _⟩
    · exact ⟨j, s, u, hs, hu, huc, hur, hua⟩
    · simp [hnone] at hua

theorem acquire_answer (ho : h.Ordered air Q) {d : CallId} {key : ServerKey} {document : Option Path} {seen : Nat}
    {a : Answer} (ha : h.Answered d (.acquire key document seen) a) :
    (∃ id, a = .acquired id) ∨ ∃ e, a = .refused e := by
  obtain ⟨i, s, t, hs, ht, _, hr, hta⟩ := ha
  exact (ho.sound.lives i s hs).acquire_answer ht hr hta

end Ordered

/-- An acquire visits the slot of its key, which may be new, and has seen how many launches have finished. -/
theorem visitToAcquire_eq (hsound : h.registry.Sound) (c : CallId) (key : ServerKey) (document : Option Path) :
    ∃ (i : Nat) (s : Slot), (h.registry.openSlot key).1.slots[i]? = some s ∧ (s.key == key) = true ∧
      h.visitToAcquire c key document =
        { h with registry := (h.registry.openSlot key).1 }.visit c i (.acquire key document s.finished) := by
  obtain ⟨_, _, _, s, hs, hk⟩ := hsound.openSlot key
  refine ⟨(h.registry.openSlot key).2, s, hs, hk, ?_⟩
  simp only [visitToAcquire, hs, Option.map_some, Option.getD_some]

namespace Ordered

theorem openSlot (ho : h.Ordered (some c) fun _ _ => False) (hx : (h.call? c).isSome) (key : ServerKey) :
    { h with registry := (h.registry.openSlot key).1 }.Ordered (some c) (fun _ _ => False) ∧
      ∀ d r a, { h with registry := (h.registry.openSlot key).1 }.Answered d r a → h.Answered d r a := by
  have hev (d : CallId) : h.registry.Evolves d (h.registry.openSlot key).1 := .openSlot ho.sound key d
  have hnew := (ho.sound.openSlot key).2.2.1
  refine ⟨ho.evolve (hev c) rfl (fun _ _ hσ => hσ) hx ?_ ?_, ?_⟩
  · intro i s hs t ht _
    rcases hnew i s hs with hs | rfl
    · obtain ⟨y, hy, hasks⟩ := ho.asked i s hs t ht
      exact ⟨y, hy, hasks.mono fun _ _ => (hev c).slotIndex?⟩
    · simp [Slot.turns, Slot.new] at ht
  · intro i s hs v hv hvc
    rcases hnew i s hs with hs | rfl
    · exact ho.here i s hs v hv (congrArg some hvc)
    · simp [Slot.visits, Slot.new] at hv
  · rintro d r a ⟨i, s, t, hs, ht, hrest⟩
    rcases hnew i s hs with hs | rfl
    · exact ⟨i, s, t, hs, ht, hrest⟩
    · simp [Slot.turns, Slot.new] at ht

end Ordered

end Host

end LanguageHost
