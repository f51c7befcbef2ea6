import LanguageHost.Proofs.Host.Order
import LanguageHost.Proofs.Registry.Owners

/-! Who owns the references to connections while the registry is used by the lifecycle only: editors
by their sessions, calls that give a session back, and the call in the air. -/
namespace LanguageHost

/-- The connection that the call, as soon as it begins, gives a reference to back. -/
def Call.owed? : Call → Option ConnectionId
  | ⟨.releaseConnection id, .fresh⟩ => some id
  | _ => none

def Progress.opening? : Progress → Option Opening
  | .opening o | .reopening o _ => some o
  | _ => none

/-- What the lifecycle is asked to do, and what it leaves to be done in the background. -/
def Task.OfLifecycle : Task → Prop
  | .openEditor _ | .closeEditor _ | .shutdownLifecycle | .releaseConnection _ => True
  | _ => False

namespace Host

/-- The connection that the entry of an editor stands for a reference to. -/
def behind? (h : Host) : Attachment → Option ConnectionId
  | .attached σ => h.connectionOf? σ
  | .pending _ _ => none

/-- Attached editors whose session is on the connection. -/
def attachedTo (h : Host) (id : ConnectionId) : Nat := h.attachments.countP fun entry => h.behind? entry.2 = some id

/-- Calls, but for the one in the air, that have yet to begin to give a reference back. -/
def freshReleases (h : Host) (air : Option CallId) (id : ConnectionId) : Nat :=
  (List.range h.calls.length).countP fun n => air ≠ some ⟨n⟩ ∧ (h.call? ⟨n⟩).bind Call.owed? = some id

/-- Owners of references that are not at a gate. -/
def owners (h : Host) (air : Option CallId) (id : ConnectionId) : Nat := h.attachedTo id + h.freshReleases air id

def Made (h : Host) (id : ConnectionId) : Prop :=
  ∃ s : Slot, h.registry.slots[id.slot]? = some s ∧ id.generation ≤ s.generation

/-- The open under way has no entry of its own any more, which would make its session the editor's. -/
def Stale (h : Host) (c : CallId) : Prop :=
  ∀ x o, h.call? c = some x → x.progress = .opening o → ∀ b, (o.editor, .pending o.token b) ∉ h.attachments

/-- An acquire that has a clear behind it must not attach what it gets. -/
def Shadows (h : Host) (air : Option CallId) (v w : Visit) : Prop :=
  v.request.Acquires → w.request = .clear → some v.call ≠ air ∧ h.Stale v.call

/-- The session of an attached editor is not closed and is on the connection that serves its key. -/
def Holds (h : Host) (K : EditorId → Option ServerKey) (e : EditorId) (σ : SessionId) : Prop :=
  ∃ (x : Session) (s : Slot) (i : Nat) (key : ServerKey), h.session? σ = some x ∧ x.closed = false ∧
    h.registry.slots[x.connection.slot]? = some s ∧ x.connection.generation = i + 1 ∧ s.Serving i ∧
    K e = some key ∧ (s.key == key) = true

/-- The entry of an open stands for the key that its editor was last opened with. -/
def Tracks (h : Host) (K : EditorId → Option ServerKey) (o : Opening) : Prop :=
  o.token < h.nextToken ∧
    ∀ b, (o.editor, .pending o.token b) ∈ h.attachments → ∃ key, K o.editor = some key ∧ (key == o.what.key) = true

/-- The call is at the gate of the connection of the session. -/
def There (h : Host) (c : CallId) (σ : SessionId) : Prop :=
  ∃ (id : ConnectionId) (s : Slot), h.connectionOf? σ = some id ∧ h.registry.slots[id.slot]? = some s ∧
    ∃ v ∈ s.visits, v.call = c

/-- The books are in order: `K` tells the key each editor was last opened with, the call in the air has
a reference in `hand`, and a shutdown under way has still to visit the slots that are `due`. -/
structure Books (h : Host) (K : EditorId → Option ServerKey) (air : Option CallId) (hand : Option ConnectionId)
    (due : List Nat) : Prop where
  owned : ∀ (i : Nat) (s : Slot), h.registry.slots[i]? = some s → s.Owned (h.owners air) hand (i ∈ due)
  proper : ∀ (i : Nat) (s : Slot), h.registry.slots[i]? = some s → s.Proper
  shadowed : ∀ (i : Nat) (s : Slot), h.registry.slots[i]? = some s → s.visits.Pairwise (h.Shadows air)
  tasks : ∀ c x, h.call? c = some x → x.task.OfLifecycle
  fresh : ∀ c x id, h.call? c = some x → x.task = .releaseConnection id → h.Made id
  held : ∀ id, hand = some id → h.Made id
  attached : ∀ e σ, (e, .attached σ) ∈ h.attachments → h.Holds K e σ
  editors : (h.attachments.map Prod.fst).Nodup
  sessions : ∀ e e' σ, (e, .attached σ) ∈ h.attachments → (e', .attached σ) ∈ h.attachments → e = e'
  pending : ∀ e t b, (e, .pending t b) ∈ h.attachments → t < h.nextToken
  openings : ∀ c x o, h.call? c = some x → x.progress.opening? = some o → h.Tracks K o
  returning : ∀ c x σ, some c ≠ air → h.call? c = some x → releasing? x.progress = some σ → h.There c σ
  drained : due ≠ [] → h.attachments = []

variable {h h' : Host} {K K' : EditorId → Option ServerKey} {c : CallId} {air : Option CallId}
  {hand hand' : Option ConnectionId} {due due' : List Nat} {x : Call}

theorem attachment?_mem {e : EditorId} {a : Attachment} (ha : h.attachment? e = some a) :
    (e, a) ∈ h.attachments := by
  obtain ⟨l₁, l₂, he, _⟩ := List.lookup_eq_some_iff.1 ha
  rw [he]
  simp

theorem attachedTo_pos {e : EditorId} {σ : SessionId} (ha : (e, .attached σ) ∈ h.attachments) {id : ConnectionId}
    (hσ : h.connectionOf? σ = some id) : 0 < h.attachedTo id :=
  List.countP_pos_iff.2 ⟨_, ha, decide_eq_true hσ⟩

/-- All that the books are about but the registry, the call in the air and its hand. -/
structure Same (h h' : Host) : Prop where
  calls : h'.calls = h.calls
  sessions : h'.sessions = h.sessions
  attachments : h'.attachments = h.attachments
  nextToken : h'.nextToken = h.nextToken

theorem setSlot_same (h : Host) (i : Nat) (s : Slot) : h.Same (h.setSlot i s) :=
  ⟨setSlot_calls .., setSlot_sessions .., setSlot_attachments .., setSlot_nextToken ..⟩

namespace Books
variable {air' : Option CallId}

theorem open_session (hb : h.Books K air hand due) {e : EditorId} {σ : SessionId}
    (hm : (e, .attached σ) ∈ h.attachments) :
    ∃ y, h.session? σ = some y ∧ y.closed = false ∧ h.connectionOf? σ = some y.connection ∧
      ∀ e', (e', .attached σ) ∉ (h.detach e).attachments := by
  obtain ⟨y, _, _, _, hy, hopen, _⟩ := hb.attached e σ hm
  refine ⟨y, hy, hopen, by rw [connectionOf?, hy]; rfl, fun e' he => ?_⟩
  obtain ⟨he, hne⟩ := List.mem_filter.1 he
  exact (by simpa using hne : e' ≠ e) (hb.sessions e' e σ he hm)

/-- The registry changes, and with it who is in the air and has what in hand. -/
theorem evolve (hb : h.Books K air hand due) (hsame : h.Same h') (hair : ∀ c, some c ≠ air' → some c ≠ air)
    (hforth : ∀ (i : Nat) (s : Slot), h.registry.slots[i]? = some s → ∃ s' : Slot, h'.registry.slots[i]? = some s' ∧
      s'.key = s.key ∧ s.generation ≤ s'.generation ∧ (∀ v ∈ s.visits, some v.call ≠ air' → v ∈ s'.visits) ∧
      ∀ k, s.Serving k → 0 < h.attachedTo ⟨i, k + 1⟩ → s'.Serving k)
    (hnew : ∀ (i : Nat) (s : Slot), h'.registry.slots[i]? = some s →
      s.Owned (h.owners air') hand' (i ∈ due') ∧ s.Proper ∧ s.visits.Pairwise (h.Shadows air'))
    (hheld : ∀ id, hand' = some id → h'.Made id) (hdue : due' ≠ [] → due ≠ []) : h'.Books K air' hand' due' := by
  have hcall (d : CallId) : h'.call? d = h.call? d := by rw [call?, call?, hsame.calls]
  have hconn (σ : SessionId) : h'.connectionOf? σ = h.connectionOf? σ := by
    rw [connectionOf?, connectionOf?, session?, session?, hsame.sessions]
  have hown (id : ConnectionId) : h'.owners air' id = h.owners air' id := by
    have hbehind : h'.behind? = h.behind? := by
      funext a
      cases a <;> simp [behind?, hconn]
    simp only [owners, attachedTo, freshReleases, hsame.attachments, hsame.calls, hcall, hbehind]
  have hstale (d : CallId) : h'.Stale d ↔ h.Stale d := by simp only [Stale, hcall, hsame.attachments]
  have hmade {id : ConnectionId} (hm : h.Made id) : h'.Made id := by
    obtain ⟨s, hs, hle⟩ := hm
    obtain ⟨s', hs', _, hgen, _⟩ := hforth _ s hs
    exact ⟨s', hs', Nat.le_trans hle hgen⟩
  have hown' : h'.owners air' = h.owners air' := funext hown
  refine ⟨?_, ?_, ?_, ?_, ?_, hheld, ?_, ?_, ?_, ?_, ?_, ?_, ?_⟩
  · intro i s hs
    rw [hown']
    exact (hnew i s hs).1
  · exact fun i s hs => (hnew i s hs).2.1
  · intro i s hs
    exact (hnew i s hs).2.2.imp fun hvw hv hw => ⟨(hvw hv hw).1, (hstale _).2 (hvw hv hw).2⟩
  · simpa only [hcall] using hb.tasks
  · intro d y id hy ht
    exact hmade (hb.fresh d y id (by rwa [← hcall]) ht)
  · intro e σ ha
    rw [hsame.attachments] at ha
    obtain ⟨y, s, k, key, hy, hcl, hs, hgen, hserving, hkey⟩ := hb.attached e σ ha
    obtain ⟨s', hs', hk, _, _, hkeep⟩ := hforth _ s hs
    have hpos : 0 < h.attachedTo y.connection := attachedTo_pos ha (by rw [connectionOf?, hy]; rfl)
    have hid : y.connection = ⟨y.connection.slot, k + 1⟩ := by rw [← hgen]
    exact ⟨y, s', k, key, by rw [session?, hsame.sessions]; exact hy, hcl, hs', hgen,
      hkeep k hserving (hid ▸ hpos), by rw [hk]; exact hkey⟩
  · rw [hsame.attachments]
    exact hb.editors
  · rw [hsame.attachments]
    exact hb.sessions
  · rw [hsame.attachments, hsame.nextToken]
    exact hb.pending
  · intro d y o hy ho
    have := hb.openings d y o (by rwa [← hcall]) ho
    rwa [Tracks, hsame.attachments, hsame.nextToken]
  · intro d y σ hd hy hσ
    rw [hcall] at hy
    obtain ⟨id, s, hid, hs, v, hv, hvd⟩ := hb.returning d y σ (hair d hd) hy hσ
    obtain ⟨s', hs', _, _, hkeep, _⟩ := hforth _ s hs
    exact ⟨id, s', by rw [hconn]; exact hid, hs', v, hkeep v hv (by rw [hvd]; exact hd), hvd⟩
  · intro hd
    rw [hsame.attachments]
    exact hb.drained (hdue hd)

/-- Sessions are made, and others than those of attached editors closed; tokens are given out. -/
theorem frame (hb : h.Books K air hand due) (hregistry : h'.registry = h.registry) (hcalls : h'.calls = h.calls)
    (hattachments : h'.attachments = h.attachments) (htoken : h.nextToken ≤ h'.nextToken)
    (hk : ∀ σ id, h.connectionOf? σ = some id → h'.connectionOf? σ = some id)
    (hsessions : ∀ e σ, (e, .attached σ) ∈ h.attachments → h'.session? σ = h.session? σ) :
    h'.Books K air hand due := by
  have hcall (d : CallId) : h'.call? d = h.call? d := by rw [call?, call?, hcalls]
  have hattached (id : ConnectionId) : h'.attachedTo id = h.attachedTo id := by
    rw [attachedTo, attachedTo, hattachments]
    refine List.countP_congr fun entry he => ?_
    obtain ⟨e, a⟩ := entry
    cases a with
    | pending => rfl
    | attached σ => simp [behind?, connectionOf?, hsessions e σ he]
  have hown : h'.owners air = h.owners air := by
    funext id
    simp only [owners, hattached, freshReleases, hcalls, hcall]
  have hstale (d : CallId) : h'.Stale d ↔ h.Stale d := by simp only [Stale, hcall, hattachments]
  have hmade (id : ConnectionId) : h'.Made id ↔ h.Made id := by rw [Made, Made, hregistry]
  refine ⟨?_, ?_, ?_, ?_, ?_, ?_, ?_, ?_, ?_, ?_, ?_, ?_, ?_⟩
  · rw [hregistry, hown]
    exact hb.owned
  · rw [hregistry]
    exact hb.proper
  · rw [hregistry]
    exact fun i s hs => (hb.shadowed i s hs).imp fun hvw hv hw => ⟨(hvw hv hw).1, (hstale _).2 (hvw hv hw).2⟩
  · simpa only [hcall] using hb.tasks
  · exact fun d y id hy ht => (hmade id).2 (hb.fresh d y id (by rwa [← hcall]) ht)
  · exact fun id hid => (hmade id).2 (hb.held id hid)
  · intro e σ ha
    rw [hattachments] at ha
    obtain ⟨y, s, k, key, hy, hrest⟩ := hb.attached e σ ha
    exact ⟨y, s, k, key, by rw [hsessions e σ ha]; exact hy, by rw [hregistry]; exact hrest⟩
  · rw [hattachments]
    exact hb.editors
  · rw [hattachments]
    exact hb.sessions
  · intro e t b ha
    rw [hattachments] at ha
    exact Nat.lt_of_lt_of_le (hb.pending e t b ha) htoken
  · intro d y o hy ho
    obtain ⟨hlt, hkey⟩ := hb.openings d y o (by rwa [← hcall]) ho
    exact ⟨Nat.lt_of_lt_of_le hlt htoken, by rwa [hattachments]⟩
  · intro d y σ hd hy hσ
    rw [hcall] at hy
    obtain ⟨id, s, hid, hrest⟩ := hb.returning d y σ hd hy hσ
    exact ⟨id, s, hk σ id hid, by rw [hregistry]; exact hrest⟩
  · rw [hattachments]
    exact hb.drained

end Books

section Attachments
variable (he : (h.attachments.map Prod.fst).Nodup) (e : EditorId) (a : Attachment) (id : ConnectionId)

theorem detach_of_none (ha : h.attachment? e = none) : (h.detach e).attachments = h.attachments := by
  rw [detach, List.filter_eq_self]
  intro p hp
  have hne : e ≠ p.1 := by simpa using List.lookup_eq_none_iff.1 ha p hp
  simpa using hne.symm

include he in
theorem attachedTo_detach : (h.detach e).attachedTo id +
    (if (h.attachment? e).bind h.behind? = some id then 1 else 0) = h.attachedTo id := by
  cases ha : h.attachment? e with
  | none =>
    rw [attachedTo, detach_of_none e ha]
    simp only [Option.bind_none, reduceCtorEq, if_false, Nat.add_zero]
    rfl
  | some a =>
    have hcount := countP_without he (attachment?_mem ha) fun entry => decide (h.behind? entry.2 = some id)
    simp only [decide_eq_true_eq] at hcount
    exact hcount.symm

include he in
theorem attachedTo_attach :
    (h.attach e a).attachedTo id + (if (h.attachment? e).bind h.behind? = some id then 1 else 0) =
    h.attachedTo id + if h.behind? a = some id then 1 else 0 := by
  have hattach : (h.attach e a).attachedTo id =
      (h.detach e).attachedTo id + if h.behind? a = some id then 1 else 0 := by
    rw [attachedTo, attach, List.countP_cons]
    simp only [decide_eq_true_eq]
    rfl
  have hdetach := attachedTo_detach he e id
  omega

end Attachments

namespace Books
variable {e : EditorId} {a : Attachment} {σ : SessionId} {id : ConnectionId} {t : Nat} {b : Bool}

/-- The attachments change, and a reference may go to the hand or come from it. -/
theorem reattach (hb : h.Books K air hand []) (hregistry : h'.registry = h.registry) (hcalls : h'.calls = h.calls)
    (hsessions : h'.sessions = h.sessions) (htoken : h'.nextToken = h.nextToken)
    (hcount : ∀ id, h'.attachedTo id + (if hand' = some id then 1 else 0) =
      h.attachedTo id + if hand = some id then 1 else 0)
    (hattached : ∀ e σ, (e, .attached σ) ∈ h'.attachments → h.Holds K' e σ)
    (heditors : (h'.attachments.map Prod.fst).Nodup)
    (hsession : ∀ e e' σ, (e, .attached σ) ∈ h'.attachments → (e', .attached σ) ∈ h'.attachments → e = e')
    (hpending : ∀ e t b, (e, .pending t b) ∈ h'.attachments → t < h.nextToken)
    (hopenings : ∀ c x o, h.call? c = some x → x.progress.opening? = some o →
      ∀ b, (o.editor, .pending o.token b) ∈ h'.attachments →
        K' o.editor = K o.editor ∧ ∃ b', (o.editor, .pending o.token b') ∈ h.attachments)
    (hheld : ∀ id, hand' = some id → h.Made id) : h'.Books K' air hand' [] := by
  have hcall (d : CallId) : h'.call? d = h.call? d := by rw [call?, call?, hcalls]
  have hstale (d : CallId) (hd : h.Stale d) : h'.Stale d := by
    intro y o hy ho b hm
    rw [hcall] at hy
    obtain ⟨b', hb'⟩ := (hopenings d y o hy (by rw [ho]; rfl) b hm).2
    exact hd y o hy ho b' hb'
  have hown (id : ConnectionId) : h'.owners air id + (if hand' = some id then 1 else 0) =
      h.owners air id + if hand = some id then 1 else 0 := by
    have hfresh : h'.freshReleases air id = h.freshReleases air id := by simp only [freshReleases, hcalls, hcall]
    have := hcount id
    simp only [owners, hfresh]
    omega
  refine ⟨?_, ?_, ?_, ?_, ?_, ?_, ?_, heditors, hsession, ?_, ?_, ?_, by simp⟩
  · rw [hregistry]
    exact fun i s hs => (hb.owned i s hs).pass (fun hd => hd) hown
  · rw [hregistry]
    exact hb.proper
  · rw [hregistry]
    exact fun i s hs => (hb.shadowed i s hs).imp fun hvw hv hw => ⟨(hvw hv hw).1, hstale _ (hvw hv hw).2⟩
  · simpa only [hcall] using hb.tasks
  · simpa only [hcall, Made, hregistry] using hb.fresh
  · simpa only [Made, hregistry] using hheld
  · simpa only [Holds, session?, hsessions, hregistry] using hattached
  · rw [htoken]
    exact hpending
  · intro d y o hy ho
    rw [hcall] at hy
    obtain ⟨hlt, hkey⟩ := hb.openings d y o hy ho
    refine ⟨by rwa [htoken], fun b hm => ?_⟩
    obtain ⟨hK, b', hb'⟩ := hopenings d y o hy ho b hm
    rw [hK]
    exact hkey b' hb'
  · simpa only [hcall, There, connectionOf?, session?, hsessions, hregistry] using hb.returning

theorem holds_made {e : EditorId} {σ : SessionId} (hh : h.Holds K e σ) :
    ∃ id, h.connectionOf? σ = some id ∧ h.Made id := by
  obtain ⟨x, s, i, key, hx, _, hs, hgen, hserving, _⟩ := hh
  obtain ⟨⟨c, hc⟩, _⟩ := hserving
  refine ⟨x.connection, by rw [connectionOf?, hx]; rfl, s, hs, ?_⟩
  rw [hgen]
  exact (List.getElem?_eq_some_iff.1 hc.2.1).1

theorem behind_made (hb : h.Books K air hand due) (ha : (e, a) ∈ h.attachments) (hid : h.behind? a = some id) :
    h.Made id := by
  cases a with
  | pending => simp [behind?] at hid
  | attached σ =>
    obtain ⟨id', hid', hm⟩ := holds_made (hb.attached e σ ha)
    obtain rfl := Option.some.inj (hid.symm.trans hid')
    exact hm

theorem detach (hb : h.Books K air hand []) (e : EditorId)
    (hfree : hand = none ∨ (h.attachment? e).bind h.behind? = none) :
    (h.detach e).Books K air (hand.or ((h.attachment? e).bind h.behind?)) [] := by
  have hsub {p : EditorId × Attachment} (hp : p ∈ (h.detach e).attachments) : p ∈ h.attachments :=
    (List.mem_filter.1 hp).1
  refine hb.reattach rfl rfl rfl rfl ?_ ?_ ?_ ?_ ?_ ?_ ?_
  · intro id
    have hcount := attachedTo_detach hb.editors e id
    rcases hfree with hfree | hfree <;> simp only [hfree, Option.none_or, Option.or_none] at hcount ⊢ <;>
      simp at hcount ⊢ <;> omega
  · exact fun e' σ hm => hb.attached e' σ (hsub hm)
  · exact hb.editors.sublist (List.filter_sublist.map _)
  · exact fun e₁ e₂ σ h₁ h₂ => hb.sessions e₁ e₂ σ (hsub h₁) (hsub h₂)
  · exact fun e' t b hm => hb.pending e' t b (hsub hm)
  · exact fun c x o _ _ b hm => ⟨rfl, b, hsub hm⟩
  · intro id hid
    rcases Option.or_eq_some_iff.1 hid with hid | ⟨_, hid⟩
    · exact hb.held id hid
    · obtain ⟨a, ha, hid⟩ := Option.bind_eq_some_iff.1 hid
      exact hb.behind_made (attachment?_mem ha) hid

private theorem mem_attach {e : EditorId} {a : Attachment} {p : EditorId × Attachment}
    (hp : p ∈ (h.attach e a).attachments) :
    p = (e, a) ∨ (p ∈ h.attachments ∧ p.1 ≠ e) := by
  rcases List.mem_cons.1 hp with rfl | hp
  · exact .inl rfl
  · exact .inr (by simpa [Host.detach] using hp)

theorem attach_nodup (he : (h.attachments.map Prod.fst).Nodup) (e : EditorId) (a : Attachment) :
    ((h.attach e a).attachments.map Prod.fst).Nodup := by
  have hrest : ((h.detach e).attachments.map Prod.fst).Nodup := he.sublist (List.filter_sublist.map _)
  refine List.nodup_cons.2 ⟨?_, hrest⟩
  intro hm
  obtain ⟨p, hp, he⟩ := List.mem_map.1 hm
  have hne : p.1 ≠ e := by simpa using (List.mem_filter.1 hp).2
  exact hne he

/-- An open enters its editor as pending, or a close leaves word there; what the editor had is in hand. -/
theorem enterPending (hb : h.Books K air none []) (ht : t < h.nextToken) (hK : ∀ e', e' ≠ e → K' e' = K e')
    (hopen : ∀ c x o, h.call? c = some x → x.progress.opening? = some o → o.editor = e → o.token = t →
      K' e = K e ∧ ∃ b', (e, .pending t b') ∈ h.attachments) :
    (h.attach e (.pending t b)).Books K' air ((h.attachment? e).bind h.behind?) [] := by
  refine hb.reattach rfl rfl rfl rfl ?_ ?_ (attach_nodup hb.editors e _) ?_ ?_ ?_ ?_
  · intro id
    simpa [behind?] using attachedTo_attach hb.editors e (.pending t b) id
  · intro e' σ hm
    rcases mem_attach hm with he | ⟨hm, hne⟩
    · cases he
    · obtain ⟨x, s, i, key, hx, hcl, hs, hgen, hserving, hkey⟩ := hb.attached e' σ hm
      exact ⟨x, s, i, key, hx, hcl, hs, hgen, hserving, by rw [hK e' hne]; exact hkey⟩
  · intro e₁ e₂ σ h₁ h₂
    rcases mem_attach h₁ with he | ⟨h₁, _⟩
    · cases he
    rcases mem_attach h₂ with he | ⟨h₂, _⟩
    · cases he
    exact hb.sessions e₁ e₂ σ h₁ h₂
  · intro e' t' b' hm
    rcases mem_attach hm with he | ⟨hm, _⟩
    · cases he
      exact ht
    · exact hb.pending e' t' b' hm
  · intro d x o hd ho b' hm
    rcases mem_attach hm with he | ⟨hm, hne⟩
    · obtain ⟨he, ht, _⟩ : o.editor = e ∧ o.token = t ∧ b' = b := by simpa using he
      have hopened := hopen d x o hd ho he ht
      rw [he, ht]
      exact hopened
    · exact ⟨hK _ hne, b', hm⟩
  · intro id hid
    obtain ⟨a, ha, hid⟩ := Option.bind_eq_some_iff.1 hid
    exact hb.behind_made (attachment?_mem ha) hid

/-- The reference in hand becomes the editor's, whose open was under way. -/
theorem enterSession (hb : h.Books K air (some id) []) (ha : h.attachment? e = some (.pending t b))
    (hσ : h.connectionOf? σ = some id) (hh : h.Holds K e σ) (hnew : ∀ e', (e', .attached σ) ∉ h.attachments) :
    (h.attach e (.attached σ)).Books K air none [] := by
  refine hb.reattach rfl rfl rfl rfl ?_ ?_ (attach_nodup hb.editors e _) ?_ ?_ ?_ (by simp)
  · intro id'
    have hcount := attachedTo_attach hb.editors e (.attached σ) id'
    simpa [ha, behind?, hσ] using hcount
  · intro e' σ' hm
    rcases mem_attach hm with he | ⟨hm, _⟩
    · cases he
      exact hh
    · exact hb.attached e' σ' hm
  · intro e₁ e₂ σ' h₁ h₂
    rcases mem_attach h₁ with he₁ | ⟨h₁, _⟩ <;> rcases mem_attach h₂ with he₂ | ⟨h₂, _⟩
    · exact (congrArg Prod.fst he₁).trans (congrArg Prod.fst he₂).symm
    · cases he₁
      exact absurd h₂ (hnew e₂)
    · cases he₂
      exact absurd h₁ (hnew e₁)
    · exact hb.sessions e₁ e₂ σ' h₁ h₂
  · intro e' t' b' hm
    rcases mem_attach hm with he | ⟨hm, _⟩
    · cases he
    · exact hb.pending e' t' b' hm
  · intro d x o hd ho b' hm
    rcases mem_attach hm with he | ⟨hm, _⟩
    · cases he
    · exact ⟨rfl, b', hm⟩

end Books

section Calls
variable {id : ConnectionId} {p : Progress}

theorem freshReleases_takeOff (hx : h.call? c = some x) (id : ConnectionId) :
    h.freshReleases none id = h.freshReleases (some c) id + if x.owed? = some id then 1 else 0 := by
  have hmem : c.number ∈ List.range h.calls.length := List.mem_range.2 (List.getElem?_eq_some_iff.1 hx).1
  have hd : ((List.range h.calls.length).map fun n => n).Nodup := by simpa using List.nodup_range
  have hcount := countP_without hd hmem fun n =>
    decide (none ≠ some (⟨n⟩ : CallId) ∧ (h.call? ⟨n⟩).bind Call.owed? = some id)
  have howed : (h.call? ⟨c.number⟩).bind Call.owed? = x.owed? := by
    have : h.call? ⟨c.number⟩ = some x := hx
    rw [this]
    rfl
  rw [freshReleases, hcount, List.countP_filter, howed]
  simp only [ne_eq, reduceCtorEq, not_false_eq_true, true_and, decide_eq_true_eq]
  congr 1
  refine List.countP_congr fun n _ => ?_
  have hn : some c = some (⟨n⟩ : CallId) ↔ n = c.number := by
    obtain ⟨m⟩ := c
    simp [eq_comm]
  simp [hn, and_comm]

theorem freshReleases_setProgress (hp : p ≠ .fresh) (id : ConnectionId) :
    (h.setProgress c p).freshReleases none id = h.freshReleases (some c) id := by
  have hlen : (h.setProgress c p).calls.length = h.calls.length := List.length_modify ..
  rw [freshReleases, freshReleases, hlen]
  refine List.countP_congr fun n _ => ?_
  rw [call?_setProgress]
  by_cases hn : (⟨n⟩ : CallId) = c
  · rw [if_pos hn]
    cases hx : h.call? ⟨n⟩ with
    | none => simp
    | some y =>
      have howed : Call.owed? { y with progress := p } = none := by
        unfold Call.owed?
        split
        · rename_i he
          exact absurd (congrArg Call.progress he) hp
        · rfl
      simp [howed, hn]
  · rw [if_neg hn]
    simp [Ne.symm hn]

theorem freshReleases_spawn {air : Option CallId} (hair : ∀ c, air = some c → (h.call? c).isSome) (task : Task)
    (id : ConnectionId) :
    (h.spawn task).freshReleases air id =
      h.freshReleases air id + if Call.owed? ⟨task, .fresh⟩ = some id then 1 else 0 := by
  obtain ⟨woken, hw⟩ := spawn_eq h task
  have hlen : (h.spawn task).calls.length = h.calls.length + 1 := by rw [hw]; simp
  have hlast : air ≠ some ⟨h.calls.length⟩ := by
    intro he
    have := hair _ he
    simp [call?] at this
  have hnew : (h.spawn task).call? ⟨h.calls.length⟩ = some ⟨task, .fresh⟩ := by simp [call?_spawn]
  rw [freshReleases, freshReleases, hlen, List.range_succ, List.countP_append, List.countP_singleton, hnew]
  congr 1
  · refine List.countP_congr fun n hn => ?_
    rw [call?_spawn, if_neg (Nat.ne_of_lt (List.mem_range.1 hn))]
  · simp [hlast]

namespace Books

theorem takeOff (hb : h.Books K none none []) (hx : h.call? c = some x)
    (hout : ∀ (i : Nat) (s : Slot), h.registry.slots[i]? = some s → ∀ v ∈ s.visits, v.request.Acquires →
      v.call ≠ c) :
    h.Books K (some c) x.owed? [] := by
  refine { hb with owned := ?_, shadowed := ?_, held := ?_, returning := ?_ }
  · intro i s hs
    refine (hb.owned i s hs).pass (fun hd => hd) fun id => ?_
    have := freshReleases_takeOff hx id
    simp only [owners, this, reduceCtorEq, if_false]
    omega
  · intro i s hs
    refine (hb.shadowed i s hs).imp_of_mem fun hv _ hvw hacq hw => ⟨?_, (hvw hacq hw).2⟩
    exact fun he => hout i s hs _ hv hacq (Option.some.inj he)
  · intro id hid
    unfold Call.owed? at hid
    split at hid
    · obtain rfl := Option.some.inj hid
      exact hb.fresh c _ _ hx rfl
    · cases hid
  · exact fun d y σ _ => hb.returning d y σ (by simp)

theorem land (hb : h.Books K (some c) none []) (hx : h.call? c = some x) (hp : p ≠ .fresh)
    (hopen : ∀ o, p.opening? = some o → h.Tracks K o)
    (hreturn : ∀ σ, releasing? p = some σ → h.There c σ) : (h.setProgress c p).Books K none none [] := by
  have hcall (d : CallId) : (h.setProgress c p).call? d =
      if d = c then some { x with progress := p } else h.call? d := by
    rw [call?_setProgress]
    split
    · rename_i hd
      rw [hd, hx]
      rfl
    · rfl
  have hstale {d : CallId} (hd : d ≠ c) (hs : h.Stale d) : (h.setProgress c p).Stale d := by
    intro y o hy
    rw [hcall, if_neg hd] at hy
    exact hs y o hy
  have hown : (h.setProgress c p).owners none = h.owners (some c) :=
    funext fun id => congrArg (h.attachedTo id + ·) (freshReleases_setProgress hp id)
  refine ⟨?_, hb.proper, ?_, ?_, ?_, by simp, hb.attached, hb.editors, hb.sessions, hb.pending, ?_, ?_, by simp⟩
  · rw [hown]
    exact hb.owned
  · intro i s hs
    refine (hb.shadowed i s hs).imp fun hvw hv hw => ⟨by simp, ?_⟩
    obtain ⟨hne, hst⟩ := hvw hv hw
    exact hstale (fun he => hne (congrArg some he)) hst
  · intro d y hy
    rw [hcall] at hy
    split at hy
    · obtain rfl := Option.some.inj hy
      exact hb.tasks c x hx
    · exact hb.tasks d y hy
  · intro d y id hy ht
    rw [hcall] at hy
    split at hy
    · obtain rfl := Option.some.inj hy
      exact hb.fresh c x id hx ht
    · exact hb.fresh d y id hy ht
  · intro d y o hy ho
    rw [hcall] at hy
    split at hy
    · obtain rfl := Option.some.inj hy
      exact hopen o ho
    · exact hb.openings d y o hy ho
  · intro d y σ _ hy hσ
    rw [hcall] at hy
    split at hy
    · rename_i hd
      obtain rfl := Option.some.inj hy
      rw [hd]
      exact hreturn σ hσ
    · rename_i hd
      exact hb.returning d y σ (fun he => hd (Option.some.inj he)) hy hσ

theorem spawn {task : Task} (hb : h.Books K air (Call.owed? ⟨task, .fresh⟩) []) (ht : task.OfLifecycle)
    (hair : ∀ c, air = some c → (h.call? c).isSome)
    (hknown : ∀ (i : Nat) (s : Slot), h.registry.slots[i]? = some s →
      ∀ v ∈ s.visits, (h.call? v.call).isSome) : (h.spawn task).Books K air none [] := by
  have hold {d : CallId} (hd : (h.call? d).isSome) : (h.spawn task).call? d = h.call? d := by
    rw [call?_spawn, if_neg]
    intro he
    rw [call?, List.getElem?_eq_none (by omega)] at hd
    cases hd
  have hnew {d : CallId} {y : Call} (hy : (h.spawn task).call? d = some y) :
      y = ⟨task, .fresh⟩ ∨ h.call? d = some y := by
    rw [call?_spawn] at hy
    split at hy
    · exact .inl (Option.some.inj hy).symm
    · exact .inr hy
  have hmade {id : ConnectionId} : (h.spawn task).Made id ↔ h.Made id := by rw [Made, Made, spawn_registry]
  have hbehind : (h.spawn task).behind? = h.behind? := by
    funext a
    cases a <;> simp [behind?, connectionOf?, session?]
  refine ⟨?_, ?_, ?_, ?_, ?_, by simp, ?_, ?_, ?_, ?_, ?_, ?_, by simp⟩
  · rw [spawn_registry]
    intro i s hs
    -- What was in hand is owed by the new call, so the owners are as many as before.
    refine (hb.owned i s hs).pass (fun hd => hd) fun id => ?_
    simp only [owners, attachedTo, spawn_attachments, hbehind, freshReleases_spawn hair, reduceCtorEq, if_false]
    omega
  · rw [spawn_registry]
    exact hb.proper
  · rw [spawn_registry]
    intro i s hs
    refine (hb.shadowed i s hs).imp_of_mem fun hv _ hvw hacq hw => ⟨(hvw hacq hw).1, ?_⟩
    intro y o hy ho
    rw [hold (hknown i s hs _ hv)] at hy
    rw [spawn_attachments]
    exact (hvw hacq hw).2 y o hy ho
  · intro d y hy
    rcases hnew hy with rfl | hy
    · exact ht
    · exact hb.tasks d y hy
  · intro d y id hy hty
    rw [hmade]
    rcases hnew hy with rfl | hy
    · obtain rfl : task = .releaseConnection id := hty
      exact hb.held id rfl
    · exact hb.fresh d y id hy hty
  · rw [spawn_attachments]
    simpa only [Holds, session?, spawn_sessions, spawn_registry] using hb.attached
  · rw [spawn_attachments]
    exact hb.editors
  · rw [spawn_attachments]
    exact hb.sessions
  · rw [spawn_attachments, spawn_nextToken]
    exact hb.pending
  · intro d y o hy ho
    rw [Tracks, spawn_attachments, spawn_nextToken]
    rcases hnew hy with rfl | hy
    · cases ho
    · exact hb.openings d y o hy ho
  · intro d y σ hd hy hσ
    rcases hnew hy with rfl | hy
    · cases hσ
    · simpa [There, connectionOf?, session?] using hb.returning d y σ hd hy hσ

/-- A shutdown forgets all attachments. Their references are left to the clears that are due. -/
theorem drain (hb : h.Books K air none []) (hregistry : h'.registry = h.registry) (hcalls : h'.calls = h.calls)
    (htoken : h'.nextToken = h.nextToken) (hattachments : h'.attachments = [])
    (hk : ∀ σ id, h.connectionOf? σ = some id → h'.connectionOf? σ = some id)
    (hdue : ∀ i, i < h.registry.slots.length → i ∈ due) : h'.Books K air none due := by
  have hcall (d : CallId) : h'.call? d = h.call? d := by rw [call?, call?, hcalls]
  refine ⟨?_, ?_, ?_, ?_, ?_, by simp, ?_, ?_, ?_, ?_, ?_, ?_, fun _ => hattachments⟩
  · rw [hregistry]
    intro i s hs
    refine (hb.owned i s hs).lose (hdue i (List.getElem?_eq_some_iff.1 hs).1) fun id => ?_
    simp [owners, attachedTo, hattachments, freshReleases, hcalls, hcall]
  · rw [hregistry]
    exact hb.proper
  · rw [hregistry]
    refine fun i s hs => (hb.shadowed i s hs).imp fun hvw hv hw => ⟨(hvw hv hw).1, ?_⟩
    simp [Stale, hattachments]
  · simpa only [hcall] using hb.tasks
  · simpa only [hcall, Made, hregistry] using hb.fresh
  · simp [hattachments]
  · simp [hattachments]
  · simp [hattachments]
  · simp [hattachments]
  · intro d y o hy ho
    rw [hcall] at hy
    exact ⟨by rw [htoken]; exact (hb.openings d y o hy ho).1, by simp [hattachments]⟩
  · intro d y σ hd hy hσ
    rw [hcall] at hy
    obtain ⟨id, s, hid, hrest⟩ := hb.returning d y σ hd hy hσ
    exact ⟨id, s, hk σ id hid, by rw [hregistry]; exact hrest⟩

end Books

end Calls

end Host

end LanguageHost
