import LanguageHost.Proofs.Host.Drops
import LanguageHost.Proofs.Registry.Errands

/-! Which calls are sent to give a session back: between two waits a call closes at most one session,
and what it notes at the gate is the beginning of its errand. -/
namespace LanguageHost

/-- The record says that the call has come to give the connection back. -/
def Record.bringsBack (c : CallId) (id : ConnectionId) : Record → Bool
  | .came ⟨d, .release (some id')⟩ => d = c ∧ id' = id
  | _ => false

/-- The errand on which a call last came to give a connection back. -/
def Errand.of (c : CallId) (id : ConnectionId) (log : List Record) : Errand :=
  ⟨c, log.dropWhile fun r => !r.bringsBack c id⟩

namespace Errand
variable {c : CallId} {id : ConnectionId} {older newer : List Record} {t : Turn}

theorem of_came (c : CallId) (id : ConnectionId) (newer older : List Record) :
    Errand.of c id (newer ++ .came ⟨c, .release (some id)⟩ :: older) =
      ⟨c, .came ⟨c, .release (some id)⟩ :: older⟩ ∨ ∃ r ∈ newer, r.bringsBack c id = true := by
  by_cases hn : ∃ r ∈ newer, r.bringsBack c id = true
  · exact .inr hn
  · refine .inl (congrArg (Errand.mk c) ?_)
    rw [List.dropWhile_append_of_pos fun r hr => by simpa using fun hb => hn ⟨r, hr, hb⟩]
    simp [Record.bringsBack]

theorem of_open : (Errand.of c id (.came ⟨c, .release (some id)⟩ :: older)).Open
    (.came ⟨c, .release (some id)⟩ :: older) := by
  have hof := (of_came c id [] older).resolve_right (by simp)
  rw [List.nil_append] at hof
  rw [hof]
  exact open_before _

/-- A call that has come and had its turn is done, whatever else it has gone for. -/
theorem of_ends (ht : t.call = c) (hn : ∀ r ∈ newer, r.bringsBack c id = false) :
    (Errand.of c id (newer ++ .turn t :: .came ⟨c, .release (some id)⟩ :: older)).Ends
      (newer ++ .turn t :: .came ⟨c, .release (some id)⟩ :: older) (.turn t)
      (.came ⟨c, .release (some id)⟩ :: older) := by
  have hof := (of_came c id (newer ++ [.turn t]) older).resolve_right (by
    rintro ⟨r, hr, hb⟩
    rcases List.mem_append.1 hr with hr | hr
    · simp [hn r hr] at hb
    · simp [List.mem_singleton.1 hr, Record.bringsBack] at hb)
  rw [List.append_assoc, List.singleton_append] at hof
  have hmine : Record.call (.turn t) = c := ht
  rw [hof]
  exact ((open_before ⟨c, .came ⟨c, .release (some id)⟩ :: older⟩).ends hmine rfl).later newer

end Errand

namespace Host
variable {h h' h'' : Host} {c : CallId} {σ τ : SessionId} {id : ConnectionId} {ans : Option Answer} {x : Call}
  {p : Progress} {r : Result} {o : Opening}

def Closed (h : Host) (σ : SessionId) : Prop := ∃ y, h.session? σ = some y ∧ y.closed = true

/-- The call is in the middle of giving the session back. -/
def Carries (h : Host) (c : CallId) (σ : SessionId) : Prop := (h.progress? c).bind releasing? = some σ

theorem closed_congr (hs : h'.sessions = h.sessions) (σ : SessionId) : h'.Closed σ ↔ h.Closed σ := by
  rw [Closed, Closed, session?, session?, hs]

theorem closed_closeSession : (h.closeSession τ).Closed σ ↔ h.Closed σ ∨ (σ = τ ∧ (h.session? σ).isSome) := by
  have hnumber : τ.number = σ.number ↔ σ = τ := by
    obtain ⟨_⟩ := σ
    obtain ⟨_⟩ := τ
    simp [eq_comm]
  simp only [Closed, session?, Host.closeSession, List.getElem?_modify, hnumber]
  cases h.sessions[σ.number]? with
  | none => simp
  | some y => by_cases hτ : σ = τ <;> simp [hτ]

theorem closed_addSession (id : ConnectionId) (uri : String) : (h.addSession id uri).1.Closed σ ↔ h.Closed σ := by
  simp only [Closed, session?, Host.addSession, List.getElem?_append]
  split
  · exact .rfl
  · rename_i hlt
    rw [List.getElem?_eq_none (Nat.le_of_not_lt hlt), List.getElem?_singleton]
    split <;> simp

theorem progress?_self (h : Host) (c : CallId) (p : Progress) :
    (h.setProgress c p).progress? c = (h.progress? c).map fun _ => p := by
  simp only [progress?, call?_setProgress, if_true, Option.map_map]
  rfl

theorem carries_setProgress (hx : (h.call? c).isSome) : (h.setProgress c p).Carries c σ ↔ releasing? p = some σ := by
  obtain ⟨x, hx⟩ := Option.isSome_iff_exists.1 hx
  rw [Carries, progress?_setProgress hx, Option.bind_some]

theorem not_carries (hp : releasing? p = none) : ¬(h.setProgress c p).Carries c σ := by
  rw [Carries, progress?_self]
  cases h.progress? c with
  | none => simp
  | some q => simp [hp]

/-- What becomes of a session while a call is on its way from one wait to the next. -/
inductive Sends (h h' : Host) (c : CallId) (σ : SessionId) : Prop
  | stays (hkeep : h'.Closed σ → h.Closed σ) (hp : ¬h'.Carries c σ)
  | carries {id : ConnectionId} (hopen : ¬h.Closed σ) (hclosed : h'.Closed σ) (hid : h'.connectionOf? σ = some id)
    (hp : h'.Carries c σ)
    (hlog : ∀ s : Slot, h'.registry.slots[id.slot]? = some s → (Errand.of c id s.log).Open s.log)
  | done {id : ConnectionId} {t : Turn} {older : List Record} {s : Slot} (hopen : ¬h.Closed σ)
    (hclosed : h'.Closed σ) (hid : h'.connectionOf? σ = some id) (hp : ¬h'.Carries c σ)
    (hs : h'.registry.slots[id.slot]? = some s) (hends : (Errand.of c id s.log).Ends s.log (.turn t) older)
    (hr : t.request = .release (some id)) (ha : t.answer ≠ none)

theorem Sends.of_closed (h₁ : h'.Sends h'' c σ) (hiff : h'.Closed σ ↔ h.Closed σ) : h.Sends h'' c σ := by
  cases h₁ with
  | stays hkeep hp => exact .stays (fun hc => hiff.1 (hkeep hc)) hp
  | carries hopen hclosed hid hp hlog => exact .carries (fun hc => hopen (hiff.2 hc)) hclosed hid hp hlog
  | done hopen hclosed hid hp hs hends hr ha => exact .done (fun hc => hopen (hiff.2 hc)) hclosed hid hp hs hends hr ha

theorem sends_landing (hs : h'.sessions = h.sessions) (hp : releasing? p = none) : h.Sends (h'.setProgress c p) c σ :=
  .stays (fun hc => (closed_congr hs σ).1 hc) (not_carries hp)

/-- A session has been closed, and the call has come to the slot of its connection. -/
structure Sent (h h' : Host) (c : CallId) (σ : SessionId) (id : ConnectionId) (ans : Option Answer) : Prop where
  fresh : ¬h.Closed σ
  connection : h.connectionOf? σ = some id
  calls : h'.calls = h.calls
  sessions : h'.sessions = (h.closeSession σ).sessions
  attachments : h'.attachments = h.attachments
  slots : ∀ (i : Nat) (s' : Slot), h'.registry.slots[i]? = some s' → ∃ s : Slot, h.registry.slots[i]? = some s ∧
    (i ≠ id.slot → s' = s) ∧
    (i = id.slot → ∃ e, s'.log = (ans.toList.map fun a => .turn ⟨⟨c, .release (some id)⟩, e, some a⟩) ++
      .came ⟨c, .release (some id)⟩ :: s.log)
  there : ans ≠ none → (h'.registry.slots[id.slot]?).isSome

theorem beginRelease_cases (h : Host) (c : CallId) (σ : SessionId) :
    h.beginRelease c σ = (h, none) ∨
      ∃ id h' ans, h.beginRelease c σ = (h', some ans) ∧ h.Sent h' c σ id ans := by
  unfold beginRelease
  cases hy : h.session? σ with
  | none => exact .inl rfl
  | some y =>
    dsimp only
    split
    · exact .inl rfl
    · rename_i hopen
      refine .inr ⟨y.connection, _, _, rfl, ?_, by simp [connectionOf?, hy], by simp [Host.closeSession], by simp,
        by simp [Host.closeSession], fun i s' hs' => ?_, fun hne => ?_⟩
      · rintro ⟨y', hy', hclosed⟩
        obtain rfl := Option.some.inj (hy.symm.trans hy')
        exact hopen hclosed
      · rw [visit_slots, Option.map_eq_some_iff] at hs'
        obtain ⟨s, hs, rfl⟩ := hs'
        refine ⟨s, hs, fun hne => if_neg hne, ?_⟩
        rintro rfl
        rw [if_pos rfl, visit_eq _ hs]
        exact (s.arrive_goes (h.closeSession σ).now ⟨c, .release (some y.connection)⟩).log
      · rw [visit_slots, Option.isSome_map]
        cases hs : (h.closeSession σ).registry.slots[y.connection.slot]? with
        | none => simp [visit, hs] at hne
        | some s => rfl

namespace Sent
variable (hs : h.Sent h' c σ id ans)
include hs

theorem closed : h'.Closed τ ↔ h.Closed τ ∨ τ = σ := by
  rw [closed_congr hs.sessions, closed_closeSession]
  refine or_congr .rfl ⟨And.left, fun he => ⟨he, ?_⟩⟩
  subst he
  have := hs.connection
  rw [connectionOf?, Option.map_eq_some_iff] at this
  obtain ⟨y, hy, _⟩ := this
  simp [hy]

theorem connectionOf?_eq : h'.connectionOf? τ = h.connectionOf? τ := by
  rw [connectionOf?, session?, hs.sessions]
  exact connectionOf?_closeSession h σ τ

theorem call?_eq : h'.call? c = h.call? c := by rw [call?, call?, hs.calls]

theorem logs {s : Slot} (hslot : h'.registry.slots[id.slot]? = some s) : ∃ older e,
    s.log = (ans.toList.map fun a => .turn ⟨⟨c, .release (some id)⟩, e, some a⟩) ++
      .came ⟨c, .release (some id)⟩ :: older := by
  obtain ⟨s₀, _, _, hlog⟩ := hs.slots _ s hslot
  exact ⟨s₀.log, hlog rfl⟩

theorem waits (hx : (h.call? c).isSome) (hans : ans = none) (hp : releasing? p = some σ) (τ : SessionId) :
    h.Sends (h'.setProgress c p) c τ := by
  subst hans
  have hx' : (h'.call? c).isSome := by rwa [hs.call?_eq]
  by_cases he : τ = σ
  · subst he
    refine .carries hs.fresh (hs.closed.2 (.inr rfl)) (hs.connectionOf?_eq.trans hs.connection)
      ((carries_setProgress hx').2 hp) fun s hslot => ?_
    obtain ⟨older, e, hlog⟩ := hs.logs hslot
    rw [hlog]
    exact Errand.of_open
  · refine .stays (fun hc => (hs.closed.1 hc).resolve_right he) fun hc => he ?_
    exact Option.some.inj (((carries_setProgress hx').1 hc).symm.trans hp)

theorem goes_on {a : Answer} (hans : ans = some a) (hkeep : ∀ τ, h''.Closed τ → h'.Closed τ) (hclosed : h''.Closed σ)
    (hid : h''.connectionOf? σ = some id) (hp : ∀ τ, ¬h''.Carries c τ)
    (hslots : ∀ s : Slot, h'.registry.slots[id.slot]? = some s → ∃ s' newer, h''.registry.slots[id.slot]? = some s' ∧
      s'.log = newer ++ s.log ∧ ∀ r ∈ newer, r.bringsBack c id = false) (τ : SessionId) : h.Sends h'' c τ := by
  subst hans
  by_cases he : τ = σ
  · subst he
    obtain ⟨s, hslot⟩ := Option.isSome_iff_exists.1 (hs.there (by simp))
    obtain ⟨older, e, hlog⟩ := hs.logs hslot
    obtain ⟨s', newer, hslot', hlog', hnewer⟩ := hslots s hslot
    have hall : s'.log = newer ++ .turn ⟨⟨c, .release (some id)⟩, e, some a⟩ ::
        .came ⟨c, .release (some id)⟩ :: older := by
      rw [hlog', hlog]
      rfl
    have hends : (Errand.of c id s'.log).Ends s'.log (.turn ⟨⟨c, .release (some id)⟩, e, some a⟩)
        (.came ⟨c, .release (some id)⟩ :: older) := by
      rw [hall]
      exact Errand.of_ends rfl hnewer
    exact .done hs.fresh hclosed hid (hp τ) hslot' hends rfl (by simp)
  · exact .stays (fun hc => (hs.closed.1 (hkeep τ hc)).resolve_right he) (hp τ)

theorem finishes {a : Answer} (hans : ans = some a) (r : Result) (τ : SessionId) :
    h.Sends (h'.finish c r) c τ := by
  refine hs.goes_on hans ?_ ?_ ?_ ?_ ?_ τ
  · exact fun _ hc => hc
  · exact hs.closed.2 (.inr rfl)
  · exact hs.connectionOf?_eq.trans hs.connection
  · exact fun _ => not_carries rfl
  · exact fun s hslot => ⟨s, [], hslot, rfl, by simp⟩

end Sent

theorem discard_sends (hx : (h.call? c).isSome) (hp : releasing? p = some σ) (τ : SessionId) :
    h.Sends (match h.beginRelease c σ with
      | (h, some none) => h.setProgress c p
      | (h, _) => h.finish c .done) c τ := by
  rcases h.beginRelease_cases c σ with he | ⟨id, h', ans, he, hs⟩
  · rw [he]
    exact sends_landing rfl rfl
  · rw [he]
    cases ans with
    | none => exact hs.waits hx rfl hp τ
    | some a => exact hs.finishes rfl .done τ

theorem releaseSession_sends (hx : (h.call? c).isSome) (σ τ : SessionId) : h.Sends (h.releaseSession c σ) c τ := by
  unfold releaseSession
  rcases h.beginRelease_cases c σ with he | ⟨id, h', ans, he, hs⟩
  · rw [he]
    exact sends_landing rfl rfl
  · rw [he]
    cases ans with
    | none => exact hs.waits hx rfl rfl τ
    | some a => exact hs.finishes rfl _ τ

/-- A call that releases a session leaves it closed, and says that it did so only if it was not before. -/
theorem releaseSession_closes (hσ : (h.session? σ).isSome) : (h.releaseSession c σ).Closed σ := by
  unfold releaseSession
  rcases h.beginRelease_cases c σ with he | ⟨id, h', ans, he, hs⟩
  · rw [he]
    obtain ⟨y, hy⟩ := Option.isSome_iff_exists.1 hσ
    refine ⟨y, hy, ?_⟩
    unfold beginRelease at he
    rw [hy] at he
    dsimp only at he
    split at he
    · assumption
    · cases (Prod.mk.inj he).2
  · rw [he]
    cases ans <;> exact hs.closed.2 (.inr rfl)

theorem releaseSession_true (hp : (h.releaseSession c σ).progress? c = some (.ended (.released true))) :
    ¬h.Closed σ ∧ (h.releaseSession c σ).Closed σ := by
  unfold releaseSession at hp ⊢
  rcases h.beginRelease_cases c σ with he | ⟨id, h', ans, he, hs⟩
  · rw [he] at hp
    simp only [finish, progress?_self, Option.map_eq_some_iff] at hp
    obtain ⟨_, _, hr⟩ := hp
    cases hr
  · rw [he]
    cases ans <;> exact ⟨hs.fresh, hs.closed.2 (.inr rfl)⟩

theorem visitToAcquire_fields (h : Host) (c : CallId) (key : ServerKey) (document : Option Path) :
    (h.visitToAcquire c key document).1.sessions = h.sessions ∧
    (h.visitToAcquire c key document).1.attachments = h.attachments ∧
    (h.visitToAcquire c key document).1.calls = h.calls :=
  ⟨visit_sessions .., visit_attachments .., visit_calls ..⟩

theorem completeOpen_sends (hx : (h.call? c).isSome) (o : Opening) (id : ConnectionId) (τ : SessionId) :
    h.Sends (h.completeOpen c o id) c τ := by
  have hadd := closed_addSession (h := h) (σ := τ) id o.what.uri
  have hdiscard (h₁ : Host) (hcalls : h₁.calls = h.calls)
      (hsessions : h₁.sessions = (h.addSession id o.what.uri).1.sessions) {σ : SessionId} :
      h.Sends (match h₁.beginRelease c σ with
        | (h, some none) => h.setProgress c (.discarding o.editor o.token σ)
        | (h, _) => h.finish c .done) c τ := by
    have hx₁ : (h₁.call? c).isSome := by rwa [call?, hcalls]
    exact (discard_sends (p := .discarding o.editor o.token σ) hx₁ rfl τ).of_closed
      ((closed_congr hsessions τ).trans hadd)
  unfold completeOpen
  dsimp only
  split
  · split
    · split
      · exact hdiscard ((h.addSession id o.what.uri).1.detach o.editor) rfl rfl
      · exact .stays (fun hc => hadd.1 hc) (not_carries rfl)
    · exact hdiscard (h.addSession id o.what.uri).1 rfl rfl
  · exact hdiscard (h.addSession id o.what.uri).1 rfl rfl

theorem answerOpen_sends (hx : (h.call? c).isSome) (o : Opening) (a : Answer) (τ : SessionId) :
    h.Sends (h.answerOpen c o a) c τ := by
  cases a with
  | acquired id => exact completeOpen_sends hx o id τ
  | refused | released | cleared => exact sends_landing (withdraw_sessions ..) rfl

theorem acquireForOpen_sends (hx : (h.call? c).isSome) (o : Opening) (τ : SessionId) :
    h.Sends (h.acquireForOpen c o) c τ := by
  obtain ⟨hsessions, _, hcalls⟩ := h.visitToAcquire_fields c o.what.key o.what.document
  unfold acquireForOpen
  split
  · exact sends_landing (withdraw_sessions ..) rfl
  · split
    · rename_i h₁ a he
      rw [he] at hsessions hcalls
      exact (answerOpen_sends (by rwa [call?, hcalls]) o a τ).of_closed (closed_congr hsessions τ)
    · rename_i h₁ he
      rw [he] at hsessions
      exact sends_landing hsessions rfl

/-- What is noted in a slot by the way brings no session back. -/
def Notes (h h' : Host) (c : CallId) : Prop :=
  ∀ (j : Nat) (s : Slot), h.registry.slots[j]? = some s → ∃ s' newer,
    h'.registry.slots[j]? = some s' ∧ s'.log = newer ++ s.log ∧ ∀ r ∈ newer, ∀ id, r.bringsBack c id = false

/-- A call goes on and has no session to give back. -/
structure Onward (h h' : Host) (c : CallId) : Prop where
  closed : ∀ τ, h'.Closed τ ↔ h.Closed τ
  carries : ∀ τ, ¬h'.Carries c τ
  connection : ∀ τ id, h.connectionOf? τ = some id → h'.connectionOf? τ = some id
  notes : h.Notes h' c

theorem Notes.of_registry (hr : h'.registry = h.registry) : h.Notes h' c :=
  fun _ s hs => ⟨s, [], by rwa [hr], rfl, by simp⟩

theorem visitToAcquire_notes (h : Host) (c : CallId) (key : ServerKey) (document : Option Path) :
    h.Notes (h.visitToAcquire c key document).1 c := by
  intro j s hs
  unfold visitToAcquire
  dsimp only
  have hs₁ : (h.registry.openSlot key).1.slots[j]? = some s := by
    unfold Registry.openSlot
    split
    · exact hs
    · exact (List.getElem?_append_left (List.getElem?_eq_some_iff.1 hs).1).trans hs
  rw [visit_slots, hs₁, Option.map_some]
  split
  · generalize Option.getD _ 0 = seen
    obtain ⟨e, he⟩ := (s.arrive_goes h.now ⟨c, .acquire key document seen⟩).log
    have hnote : (s.note (.came ⟨c, .acquire key document seen⟩)).log =
        [.came ⟨c, .acquire key document seen⟩] ++ s.log := rfl
    rw [hnote, ← List.append_assoc] at he
    refine ⟨_, _, rfl, he, fun r hr id => ?_⟩
    rw [List.mem_append, List.mem_map, List.mem_singleton] at hr
    rcases hr with ⟨a, _, rfl⟩ | rfl <;> rfl
  · exact ⟨s, [], rfl, rfl, by simp⟩

namespace Onward
variable {h₁ : Host} (hsessions : h₁.sessions = h.sessions) (hnotes : h.Notes h₁ c)
include hsessions hnotes

theorem landed (hp : releasing? p = none) : h.Onward (h₁.setProgress c p) c := by
  refine ⟨closed_congr hsessions, fun _ => not_carries hp, fun τ id hid => ?_, hnotes⟩
  rw [← hid]
  show h₁.connectionOf? τ = h.connectionOf? τ
  rw [connectionOf?, connectionOf?, session?, session?, hsessions]

theorem withdrawn (e : EditorId) (token : Nat) (r : Result) : h.Onward ((h₁.withdraw e token).finish c r) c := by
  refine landed ((withdraw_sessions ..).trans hsessions) (fun j s hs => ?_) rfl
  rw [withdraw_registry]
  exact hnotes j s hs

theorem attached (ha : h₁.attachment? o.editor = some (.pending o.token false)) (id : ConnectionId) :
    h.Onward (h₁.answerOpen c o (.acquired id)) c := by
  have hattach : h₁.answerOpen c o (.acquired id) =
      ((h₁.addSession id o.what.uri).1.attach o.editor (.attached ⟨h₁.sessions.length⟩)).finish c .done := by
    unfold answerOpen completeOpen
    have : (h₁.addSession id o.what.uri).1.attachment? o.editor = some (.pending o.token false) := ha
    dsimp only
    rw [this]
    simp [Host.addSession]
  rw [hattach]
  refine ⟨fun τ => (closed_addSession id o.what.uri).trans (closed_congr hsessions τ), fun _ => not_carries rfl,
    fun τ id' hid => ?_, hnotes⟩
  rw [connectionOf?, session?, ← hsessions, Option.map_eq_some_iff] at hid
  obtain ⟨y, hy, rfl⟩ := hid
  have hy' : (h₁.addSession id o.what.uri).1.session? τ = some y :=
    (List.getElem?_append_left (List.getElem?_eq_some_iff.1 hy).1).trans hy
  exact Option.map_eq_some_iff.2 ⟨y, hy', rfl⟩

end Onward

/-- An open whose own entry is there discards nothing, and comes to the gate for nothing but to acquire. -/
theorem acquireForOpen_onward (ha : h.attachment? o.editor = some (.pending o.token false)) :
    h.Onward (h.acquireForOpen c o) c := by
  obtain ⟨hsessions, hattachments, _⟩ := h.visitToAcquire_fields c o.what.key o.what.document
  have hnotes := h.visitToAcquire_notes c o.what.key o.what.document
  unfold acquireForOpen
  split
  · exact .withdrawn rfl (.of_registry rfl) ..
  · split
    · rename_i h₁ a he
      rw [he] at hsessions hattachments hnotes
      cases a with
      | acquired id =>
        refine .attached hsessions hnotes ?_ id
        rw [attachment?, hattachments]
        exact ha
      | refused | released | cleared => exact .withdrawn hsessions hnotes ..
    · rename_i h₁ he
      rw [he] at hsessions hnotes
      exact .landed hsessions hnotes rfl

theorem attachment?_attach (h : Host) (e : EditorId) (a : Attachment) : (h.attach e a).attachment? e = some a := by
  simp [attachment?, attach]

theorem beginOpen_sends (hx : (h.call? c).isSome) (o : Opening) (τ : SessionId) : h.Sends (h.beginOpen c o) c τ := by
  have hown := attachment?_attach h o.editor (.pending o.token false)
  have hquiet {h₁ : Host} (hsessions : h₁.sessions = h.sessions)
      (ha : h₁.attachment? o.editor = some (.pending o.token false)) : h.Sends (h₁.acquireForOpen c o) c τ := by
    have honward := acquireForOpen_onward (c := c) ha
    exact .stays (fun hc => (closed_congr hsessions τ).1 ((honward.closed τ).1 hc)) (honward.carries τ)
  unfold beginOpen
  dsimp only
  split
  · rename_i σ _
    rcases (h.attach o.editor (.pending o.token false)).beginRelease_cases c σ with he | ⟨id, h', ans, he, hs⟩
    · rw [he]
      exact hquiet rfl hown
    · rw [he]
      cases ans with
      | none => exact (hs.waits hx rfl rfl τ).of_closed .rfl
      | some a =>
        have ha : h'.attachment? o.editor = some (.pending o.token false) := by
          rw [attachment?, hs.attachments]
          exact hown
        have honward := acquireForOpen_onward (c := c) ha
        refine (hs.goes_on rfl (fun τ => (honward.closed τ).1) ((honward.closed σ).2 (hs.closed.2 (.inr rfl)))
          (honward.connection _ _ (hs.connectionOf?_eq.trans hs.connection)) honward.carries (fun s hslot => ?_)
          τ).of_closed .rfl
        obtain ⟨s', newer, hs', hlog, hnewer⟩ := honward.notes _ s hslot
        exact ⟨s', newer, hs', hlog, fun r hr => hnewer r hr id⟩
  · exact hquiet rfl hown

theorem openEditor_sends (hx : (h.call? c).isSome) (e : Editor) (τ : SessionId) : h.Sends (h.openEditor c e) c τ := by
  unfold openEditor
  dsimp only
  split
  · exact (beginOpen_sends (h := { h with nextToken := h.nextToken + 1 }) hx _ τ).of_closed .rfl
  · exact sends_landing rfl rfl
  · exact sends_landing rfl rfl

theorem closeEditor_sends (hx : (h.call? c).isSome) (e : EditorId) (τ : SessionId) :
    h.Sends (h.closeEditor c e) c τ := by
  unfold closeEditor
  split
  · exact sends_landing rfl rfl
  · exact sends_landing rfl rfl
  · rename_i σ _
    exact (discard_sends (h := h.detach e) (p := .closing σ) hx rfl τ).of_closed .rfl

theorem clearSlots_sessions (h : Host) (c : CallId) (l : List Nat) : (h.clearSlots c l).1.sessions = h.sessions := by
  induction l generalizing h with
  | nil => rfl
  | cons i rest ih =>
    have hfirst : (h.clearSlots c (i :: rest)).1 = ((h.visit c i .clear).1.clearSlots c rest).1 := by
      rw [clearSlots]
      split <;> rename_i he <;> rw [he]
    rw [hfirst, ih, visit_sessions]

theorem shutdownAll_lands (h : Host) (c : CallId) (report : Bool) :
    ∃ (h' : Host) (p : Progress), h.shutdownAll c report = h'.setProgress c p ∧ h'.sessions = h.sessions ∧
      releasing? p = none := by
  have hsessions := h.clearSlots_sessions c (List.range h.registry.slots.length)
  unfold shutdownAll
  split <;> rename_i he <;> rw [he] at hsessions
  · exact ⟨_, _, rfl, hsessions, rfl⟩
  · exact ⟨_, _, rfl, hsessions, rfl⟩

theorem shutdownAll_sends (h : Host) (c : CallId) (report : Bool) (τ : SessionId) :
    h.Sends (h.shutdownAll c report) c τ := by
  obtain ⟨h', p, he, hsessions, hp⟩ := h.shutdownAll_lands c report
  rw [he]
  exact sends_landing hsessions hp

theorem shutdownLifecycle_not_carries : ¬(h.shutdownLifecycle c).Carries c σ := by
  obtain ⟨h', p, he, _, hp⟩ := h.drained.shutdownAll_lands c false
  rw [shutdownLifecycle_eq, he]
  exact not_carries hp

theorem beginPlainRelease_sends (h : Host) (c : CallId) (i : Option Nat) (expected : Option ConnectionId)
    (τ : SessionId) : h.Sends (h.beginPlainRelease c i expected) c τ := by
  unfold beginPlainRelease
  split
  · exact sends_landing rfl rfl
  · rename_i i
    have hsessions := h.visit_sessions i c (.release expected)
    split <;> rename_i he <;> rw [he] at hsessions
    · exact sends_landing hsessions rfl
    · exact sends_landing hsessions rfl

theorem acquire_sends (h : Host) (c : CallId) (key : ServerKey) (document : Option Path) (τ : SessionId) :
    h.Sends (h.acquire c key document) c τ := by
  obtain ⟨hsessions, _⟩ := h.visitToAcquire_fields c key document
  unfold acquire
  split
  · exact sends_landing rfl rfl
  · split <;> rename_i he <;> rw [he] at hsessions
    · exact sends_landing hsessions rfl
    · exact sends_landing hsessions rfl
    · exact sends_landing hsessions rfl

/-- A call begins, other than to shut the lifecycle down. -/
theorem begin_sends (hx : (h.call? c).isSome) {t : Task} (ht : t ≠ .shutdownLifecycle) (τ : SessionId) :
    h.Sends (h.begin c t) c τ := by
  cases t with
  | acquire key document => exact acquire_sends h c key document τ
  | release key => exact beginPlainRelease_sends h c (h.registry.slotIndex? key) none τ
  | releaseConnection id => exact beginPlainRelease_sends h c (some id.slot) (some id) τ
  | shutdownAll => exact shutdownAll_sends h c true τ
  | releaseSession σ => exact releaseSession_sends hx σ τ
  | openEditor e => exact openEditor_sends hx e τ
  | closeEditor e => exact closeEditor_sends hx e τ
  | shutdownLifecycle => exact absurd rfl ht

theorem answered_sends (hx : (h.call? c).isSome) (i : Nat) (a : Answer) (τ : SessionId) :
    h.Sends (h.answered c i a) c τ := by
  unfold answered
  split
  · rename_i hp
    split
    · exact sends_landing rfl rfl
    · exact sends_landing rfl rfl
    · exact .stays id (by simp [Carries, hp, releasing?])
  · exact sends_landing rfl rfl
  · exact sends_landing rfl rfl
  · dsimp only
    split
    · unfold finishClear
      exact sends_landing rfl rfl
    · exact sends_landing rfl rfl
  · exact acquireForOpen_sends hx _ τ
  · exact answerOpen_sends hx _ a τ
  · exact sends_landing rfl rfl
  · exact sends_landing rfl rfl
  · rename_i hcases
    refine .stays id fun hc => ?_
    cases hp : h.progress? c with
    | none => simp [Carries, hp] at hc
    | some p => cases p <;> simp_all [Carries, releasing?]

section Calls

theorem setProgress_length (h : Host) (c : CallId) (p : Progress) : (h.setProgress c p).calls.length = h.calls.length :=
  List.length_modify ..

theorem discard_length (h : Host) (c : CallId) (σ : SessionId) (p : Progress) :
    (match h.beginRelease c σ with
      | (h, some none) => h.setProgress c p
      | (h, _) => h.finish c .done).calls.length = h.calls.length := by
  rcases h.beginRelease_cases c σ with he | ⟨id, h', ans, he, hs⟩
  · rw [he]
    exact setProgress_length ..
  · rw [he]
    cases ans <;> exact (setProgress_length ..).trans (congrArg List.length hs.calls)

theorem answerOpen_length (h : Host) (c : CallId) (o : Opening) (a : Answer) :
    (h.answerOpen c o a).calls.length = h.calls.length := by
  have hwithdraw : ((h.withdraw o.editor o.token).finish c .done).calls.length = h.calls.length :=
    (setProgress_length ..).trans (congrArg List.length (withdraw_calls ..))
  cases a with
  | acquired id =>
    show (h.completeOpen c o id).calls.length = _
    unfold completeOpen
    dsimp only
    split
    · split
      · split
        · exact discard_length ((h.addSession id o.what.uri).1.detach o.editor) c _ _
        · exact setProgress_length ..
      · exact discard_length (h.addSession id o.what.uri).1 c _ _
    · exact discard_length (h.addSession id o.what.uri).1 c _ _
  | refused | released | cleared => exact hwithdraw

theorem acquireForOpen_length (h : Host) (c : CallId) (o : Opening) :
    (h.acquireForOpen c o).calls.length = h.calls.length := by
  obtain ⟨_, _, hcalls⟩ := h.visitToAcquire_fields c o.what.key o.what.document
  unfold acquireForOpen
  split
  · exact (setProgress_length ..).trans (congrArg List.length (withdraw_calls ..))
  · split <;> rename_i he <;> rw [he] at hcalls
    · exact (answerOpen_length ..).trans (congrArg List.length hcalls)
    · exact (setProgress_length ..).trans (congrArg List.length hcalls)

theorem answered_length (h : Host) (c : CallId) (i : Nat) (a : Answer) :
    (h.answered c i a).calls.length = h.calls.length := by
  unfold answered
  split
  · split
    · exact setProgress_length ..
    · exact setProgress_length ..
    · rfl
  · exact setProgress_length ..
  · exact setProgress_length ..
  · dsimp only
    split
    · exact setProgress_length ..
    · exact setProgress_length ..
  · exact acquireForOpen_length ..
  · exact answerOpen_length ..
  · exact setProgress_length ..
  · exact setProgress_length ..
  · rfl

end Calls

end Host
end LanguageHost
