import LanguageHost.Proofs.Host.Errands

/-! What a call does at the gates, seen from what the lifecycle keeps: entries and tokens stay, sessions
keep their connections, and who has acquired what changes by the answers to requests to acquire only. -/
namespace LanguageHost.Host
variable {h h' h'' : Host} {c d : CallId} {σ τ : SessionId} {id : ConnectionId} {busy : Option CallId} {x : Call}
  {i : Nat} {s s' : Slot}

/-- The call has been answered with this connection when it asked for one. -/
def Acquired (h : Host) (c : CallId) (id : ConnectionId) : Prop :=
  ∃ key document seen, h.Answered c (.acquire key document seen) (.acquired id)

/-- Nothing has changed that the lifecycle keeps, but that sessions may have been closed, and that one call may
have acquired something. -/
structure Passes (h : Host) (busy : Option CallId) (h' : Host) : Prop where
  attachments : h'.attachments = h.attachments
  calls : h'.calls = h.calls
  nextToken : h'.nextToken = h.nextToken
  length : h'.sessions.length = h.sessions.length
  connections : ∀ σ, h'.connectionOf? σ = h.connectionOf? σ
  closed : ∀ σ, h.Closed σ → h'.Closed σ
  acquired : ∀ c id, busy ≠ some c → (h'.Acquired c id ↔ h.Acquired c id)

theorem acquired_congr (hr : h'.registry = h.registry) : h'.Acquired c id ↔ h.Acquired c id := by
  simp only [Acquired, Answered, hr]

namespace Passes

theorem refl (h : Host) (busy : Option CallId) : h.Passes busy h :=
  ⟨rfl, rfl, rfl, rfl, fun _ => rfl, fun _ hc => hc, fun _ _ _ => .rfl⟩

theorem trans (hp : h.Passes busy h') (hp' : h'.Passes busy h'') : h.Passes busy h'' :=
  ⟨hp'.attachments.trans hp.attachments, hp'.calls.trans hp.calls, hp'.nextToken.trans hp.nextToken,
    hp'.length.trans hp.length, fun σ => (hp'.connections σ).trans (hp.connections σ),
    fun σ hc => hp'.closed σ (hp.closed σ hc),
    fun c id hne => (hp'.acquired c id hne).trans (hp.acquired c id hne)⟩

theorem of_registry (hattachments : h'.attachments = h.attachments) (hcalls : h'.calls = h.calls)
    (htoken : h'.nextToken = h.nextToken) (hsessions : h'.sessions = h.sessions)
    (hacquired : ∀ c id, busy ≠ some c → (h'.Acquired c id ↔ h.Acquired c id)) : h.Passes busy h' :=
  ⟨hattachments, hcalls, htoken, by rw [hsessions], connectionOf?_congr hsessions,
    fun σ => (closed_congr hsessions σ).2, hacquired⟩

theorem attachment? (hp : h.Passes busy h') (e : EditorId) : h'.attachment? e = h.attachment? e := by
  rw [Host.attachment?, hp.attachments, Host.attachment?]

theorem call? (hp : h.Passes busy h') (c : CallId) : h'.call? c = h.call? c := by rw [Host.call?, hp.calls, Host.call?]

theorem session? (hp : h.Passes busy h') (σ : SessionId) : (h'.session? σ).isSome = (h.session? σ).isSome := by
  have he := congrArg Option.isSome (hp.connections σ)
  simpa [connectionOf?] using he

theorem closeSession (h : Host) (σ : SessionId) (busy : Option CallId) : h.Passes busy (h.closeSession σ) :=
  ⟨rfl, rfl, rfl, by simp [Host.closeSession], fun τ => connectionOf?_closeSession h σ τ,
    fun _ hc => closed_closeSession.2 (.inl hc), fun _ _ _ => acquired_congr rfl⟩

end Passes

theorem setSlot_logged (hs : h.registry.slots[i]? = some s) {v : Visit} {ans : Option Answer} {older : List Record}
    {e : Ending} (hlog : s'.log = (ans.toList.map fun a => .turn ⟨v, e, some a⟩) ++ older)
    (hold : older.filterMap Record.turn? = s.turns) {q : Request} {a : Answer} : (h.setSlot i s').Answered d q a ↔
      h.Answered d q a ∨ d = v.call ∧ q = v.request ∧ ans = some a := by
  have hturns : s'.turns = (ans.toList.map fun a => ⟨v, e, some a⟩) ++ s.turns := by
    rw [Slot.turns, hlog, List.filterMap_append, hold]
    cases ans <;> rfl
  rw [setSlot_answered hs hturns]
  refine or_congr .rfl ⟨?_, ?_⟩
  · rintro ⟨u, hu, rfl, rfl, ha⟩
    obtain ⟨b, hb, rfl⟩ := List.mem_map.1 hu
    exact ⟨rfl, rfl, (Option.mem_toList.1 hb).trans ha⟩
  · rintro ⟨rfl, rfl, rfl⟩
    exact ⟨⟨v, e, some a⟩, by simp, rfl, rfl, rfl⟩

theorem goes_answered (hs : h.registry.slots[i]? = some s) {v : Visit} {r : Slot × Option Answer} (hg : s.Goes v r)
    {q : Request} {a : Answer} : (h.setSlot i r.1).Answered d q a ↔
      h.Answered d q a ∨ d = v.call ∧ q = v.request ∧ r.2 = some a := by
  obtain ⟨e, hlog⟩ := hg.log
  exact setSlot_logged hs hlog rfl

theorem visit_answered (h : Host) (c : CallId) (i : Nat) (r : Request) {q : Request} {a : Answer} :
    (h.visit c i r).1.Answered d q a ↔ h.Answered d q a ∨ d = c ∧ q = r ∧ (h.visit c i r).2 = some a := by
  cases hs : h.registry.slots[i]? with
  | none => simp [visit, hs]
  | some s =>
    rw [visit_eq h hs]
    obtain ⟨e, hlog⟩ := (s.arrive_goes h.now ⟨c, r⟩).log
    exact setSlot_logged hs (v := ⟨c, r⟩) hlog rfl

theorem openSlot_answered (h : Host) (key : ServerKey) {q : Request} {a : Answer} :
    ({ h with registry := (h.registry.openSlot key).1 } : Host).Answered d q a ↔ h.Answered d q a := by
  unfold Registry.openSlot
  split
  · exact .rfl
  · constructor
    · rintro ⟨i, s, t, hs, ht, hrest⟩
      rw [List.getElem?_append] at hs
      split at hs
      · exact ⟨i, s, t, hs, ht, hrest⟩
      · obtain ⟨_, rfl⟩ := List.getElem?_eq_some_iff.1 hs
        simp [Slot.turns, Slot.new] at ht
    · rintro ⟨i, s, t, hs, ht, hrest⟩
      exact ⟨i, s, t, (List.getElem?_append_left (List.getElem?_eq_some_iff.1 hs).1).trans hs, ht, hrest⟩

private theorem acquired_or {ans : Option Answer} {r : Request}
    (hans : ∀ q a, h'.Answered d q a ↔ h.Answered d q a ∨ d = c ∧ q = r ∧ ans = some a) :
    h'.Acquired d id ↔ h.Acquired d id ∨ d = c ∧ r.Acquires ∧ ans = some (.acquired id) := by
  constructor
  · rintro ⟨key, document, seen, ha⟩
    refine ((hans _ _).1 ha).imp (fun ha => ⟨key, document, seen, ha⟩) ?_
    rintro ⟨hd, rfl, ha⟩
    exact ⟨hd, ⟨key, document, seen, rfl⟩, ha⟩
  · rintro (⟨key, document, seen, ha⟩ | ⟨hd, ⟨key, document, seen, rfl⟩, ha⟩)
    · exact ⟨key, document, seen, (hans _ _).2 (.inl ha)⟩
    · exact ⟨key, document, seen, (hans _ _).2 (.inr ⟨hd, rfl, ha⟩)⟩

theorem goes_acquired (hs : h.registry.slots[i]? = some s) {v : Visit} {r : Slot × Option Answer} (hg : s.Goes v r) :
    (h.setSlot i r.1).Acquired d id ↔
      h.Acquired d id ∨ d = v.call ∧ v.request.Acquires ∧ r.2 = some (.acquired id) :=
  acquired_or fun _ _ => goes_answered hs hg

theorem goes_passes (hs : h.registry.slots[i]? = some s) {v : Visit} {r : Slot × Option Answer} (hg : s.Goes v r)
    (hr : ∀ id, v.request.Acquires → r.2 = some (.acquired id) → busy = some v.call) :
    h.Passes busy (h.setSlot i r.1) := by
  refine .of_registry (setSlot_attachments ..) (setSlot_calls ..) (setSlot_nextToken ..) (setSlot_sessions ..)
    fun d id hd => ?_
  refine (goes_acquired hs hg).trans (or_iff_left ?_)
  rintro ⟨rfl, hq, ha⟩
  exact hd (hr id hq ha)

theorem visit_acquired (h : Host) (c : CallId) (i : Nat) (r : Request) : (h.visit c i r).1.Acquired d id ↔
    h.Acquired d id ∨ d = c ∧ r.Acquires ∧ (h.visit c i r).2 = some (.acquired id) :=
  acquired_or fun _ _ => visit_answered ..

theorem visit_passes (h : Host) (c : CallId) (i : Nat) {r : Request} (hr : ¬r.Acquires) (busy : Option CallId) :
    h.Passes busy (h.visit c i r).1 :=
  .of_registry (visit_attachments ..) (visit_calls ..) (visit_nextToken ..) (visit_sessions ..)
    fun _ _ _ => (visit_acquired ..).trans (or_iff_left fun ha => hr ha.2.1)

theorem visitToAcquire_acquired (h : Host) (c : CallId) (key : ServerKey) (document : Option Path) :
    (h.visitToAcquire c key document).1.Acquired d id ↔
      h.Acquired d id ∨ d = c ∧ (h.visitToAcquire c key document).2 = some (.acquired id) := by
  have hopen : ({ h with registry := (h.registry.openSlot key).1 } : Host).Acquired d id ↔ h.Acquired d id := by
    simp only [Acquired, openSlot_answered]
  unfold visitToAcquire
  dsimp only
  rw [visit_acquired, hopen]
  refine or_congr .rfl (and_congr_right fun _ => and_iff_right ⟨_, _, _, rfl⟩)

theorem visitToAcquire_passes (h : Host) (c : CallId) (key : ServerKey) (document : Option Path) :
    h.Passes (some c) (h.visitToAcquire c key document).1 := by
  obtain ⟨hsessions, hattachments, hcalls⟩ := h.visitToAcquire_fields c key document
  refine .of_registry hattachments hcalls ?_ hsessions fun d id hd => ?_
  · exact visit_nextToken ..
  · exact (visitToAcquire_acquired ..).trans (or_iff_left fun ha => hd (congrArg some ha.1.symm))

theorem beginRelease_passes (h : Host) (c : CallId) (σ : SessionId) (busy : Option CallId) :
    h.Passes busy (h.beginRelease c σ).1 := by
  unfold beginRelease
  split
  · exact .refl h busy
  · split
    · exact .refl h busy
    · exact (Passes.closeSession h σ busy).trans (visit_passes _ c _ Request.release_not_acquires busy)

/-- Whoever begins to give a session back leaves it closed, and no other. -/
theorem beginRelease_closed (h : Host) (c : CallId) (σ : SessionId) :
    (h.beginRelease c σ).1.Closed τ ↔ h.Closed τ ∨ τ = σ ∧ (h.session? σ).isSome := by
  unfold beginRelease
  cases hy : h.session? σ with
  | none => simp
  | some y =>
    dsimp only
    split
    · rename_i hclosed
      exact (or_iff_left_of_imp fun ⟨he, _⟩ => ⟨y, he ▸ hy, hclosed⟩).symm
    · refine (closed_congr (visit_sessions ..) τ).trans (closed_closeSession.trans (or_congr .rfl ?_))
      refine and_congr_right fun he => ?_
      rw [he, hy]

theorem clearSlots_passes (h : Host) (c : CallId) (l : List Nat) (busy : Option CallId) :
    h.Passes busy (h.clearSlots c l).1 := by
  induction l generalizing h with
  | nil => exact .refl h busy
  | cons i rest ih =>
    have hv := h.visit_passes c i (r := .clear) Request.clear_not_acquires busy
    rw [clearSlots]
    split <;> rename_i he <;> rw [he] at hv
    · exact hv.trans (ih _)
    · exact hv.trans (ih _)

theorem abandonSlots_passes (h : Host) (c : CallId) (busy : Option CallId) : h.Passes busy (h.abandonSlots c) := by
  obtain ⟨slots, woken, he, hslots⟩ := abandonSlots_eq h c
  rw [he]
  refine .of_registry rfl rfl rfl rfl fun d id _ => ?_
  constructor
  · rintro ⟨key, document, seen, i, s', t, hs', ht, hc, hr, ha⟩
    rw [hslots, Option.map_eq_some_iff] at hs'
    obtain ⟨s, hs, rfl⟩ := hs'
    refine ⟨key, document, seen, i, s, t, hs, Slot.mem_turns.2 ?_, hc, hr, ha⟩
    rw [Slot.mem_turns] at ht
    rcases s.abandon_log c with hlog | ⟨r, hlog, hrec⟩ <;> rw [hlog] at ht
    · exact ht
    · refine (List.mem_cons.1 ht).resolve_left ?_
      rintro rfl
      rcases hrec with he | ⟨v, _, _, he⟩ <;> cases he
      cases ha
  · rintro ⟨key, document, seen, i, s, t, hs, ht, hrest⟩
    have hs' : slots[i]? = some (s.abandon c) := by rw [hslots, hs]; rfl
    refine ⟨key, document, seen, i, s.abandon c, t, hs', Slot.mem_turns.2 ?_, hrest⟩
    obtain ⟨newer, hlog, _⟩ := (s.abandon_grows c).log
    rw [hlog]
    exact List.mem_append_right _ (Slot.mem_turns.1 ht)

/-- Every attached session is closed when the attachments are drained, and no other. -/
theorem drained_passes (h : Host) (busy : Option CallId) :
    ({ h with attachments := [] } : Host).Passes busy h.drained ∧
      ∀ e σ, h.attachment? e = some (.attached σ) → (h.session? σ).isSome → h.drained.Closed σ := by
  have hfold (f : Host → EditorId × Attachment → Host)
      (hattached : ∀ h₁ e σ, f h₁ (e, .attached σ) = h₁.closeSession σ)
      (hpending : ∀ h₁ e token close, f h₁ (e, .pending token close) = h₁)
      (l : List (EditorId × Attachment)) (h₁ : Host) :
      h₁.Passes busy (l.foldl f h₁) ∧
      ∀ e σ, (e, .attached σ) ∈ l → (h₁.session? σ).isSome → (l.foldl f h₁).Closed σ := by
    induction l generalizing h₁ with
    | nil => exact ⟨.refl h₁ busy, by simp⟩
    | cons entry l ih =>
      rw [List.foldl_cons]
      obtain ⟨hp, hclosed⟩ := ih (f h₁ entry)
      have hfirst : h₁.Passes busy (f h₁ entry) := by
        obtain ⟨e, ⟨token, close⟩ | σ⟩ := entry
        · rw [hpending]
          exact .refl h₁ busy
        · rw [hattached]
          exact .closeSession h₁ σ busy
      refine ⟨hfirst.trans hp, fun e σ hm hsome => ?_⟩
      rcases List.mem_cons.1 hm with rfl | hm
      · refine hp.closed σ ?_
        rw [hattached]
        exact closed_closeSession.2 (.inr ⟨rfl, hsome⟩)
      · exact hclosed e σ hm (by rwa [hfirst.session? σ])
  obtain ⟨f, hdrained, hattached, hpending⟩ : ∃ f : Host → EditorId × Attachment → Host,
      h.drained = h.attachments.foldl f { h with attachments := [] } ∧
      (∀ h₁ e σ, f h₁ (e, .attached σ) = h₁.closeSession σ) ∧ ∀ h₁ e token close, f h₁ (e, .pending token close) = h₁ :=
    ⟨_, rfl, fun _ _ _ => rfl, fun _ _ _ _ => rfl⟩
  rw [hdrained]
  obtain ⟨hp, hclosed⟩ := hfold f hattached hpending h.attachments { h with attachments := [] }
  exact ⟨hp, fun e σ ha hsome => hclosed e σ (attachment?_mem ha) hsome⟩

theorem shutdownLifecycle_attachments (h : Host) (c : CallId) : (h.shutdownLifecycle c).attachments = [] := by
  have hcleared := h.drained.clearSlots_passes c (List.range h.drained.registry.slots.length) none
  have hgone := hcleared.attachments.trans (h.drained_passes none).1.attachments
  rw [shutdownLifecycle_eq]
  unfold shutdownAll
  split <;> rename_i he <;> rw [he] at hgone <;> exact hgone

end LanguageHost.Host
