import LanguageHost.Proofs.Host.Converges
import LanguageHost.Proofs.Host.Standing

/-! What a step of an open makes of the entries of the editors, by the answer that the open has been given. -/
namespace LanguageHost.Host
variable {h h' h₁ h₂ : Host} {c d : CallId} {x : Call} {e : EditorId} {o : Opening} {σ : SessionId} {id : ConnectionId}
  {ans : Option Answer} {q : Request} {a : Answer} {p : Progress} {Q : Nat → Request → Prop} {g : Doings}
  {actor : Option CallId} {task : Option Task} {t : Task}

/-- The editor's entry is that of the open with the token, told of a close or not. -/
def Entered (h : Host) (e : EditorId) (token : Nat) : Prop := ∃ b, h.attachment? e = some (.pending token b)

/-- The entry of the open with the token has gone, if it was there, and no other. -/
structure Without (h : Host) (e : EditorId) (token : Nat) (h' : Host) : Prop where
  others : ∀ e', e' ≠ e → h'.attachment? e' = h.attachment? e'
  own : h.Entered e token → h'.attachment? e = none
  stale : ¬h.Entered e token → h'.attachment? e = h.attachment? e

/-- All that an open has been answered between two states, when it asked for a connection. -/
def Learns (h : Host) (c : CallId) (ans : Option Answer) (h' : Host) : Prop :=
  ∀ q a, q.Acquires → h'.Answered c q a → h.Answered c q a ∨ ans = some a

/-- The open may come by the connection: its key is valid, and the connection is in the slot of that. -/
def Suits (h : Host) (o : Opening) (id : ConnectionId) : Prop :=
  o.what.key.isValid = true ∧ ∃ s : Slot, h.registry.slots[id.slot]? = some s ∧ (s.key == o.what.key) = true

theorem Suits.later (hid : h.Suits o id) (hw : Works t c h h') : h'.Suits o id := by
  obtain ⟨hvalid, s, hs, hkey⟩ := hid
  obtain ⟨s', hs', hgrows, -⟩ := hw.slot hs
  exact ⟨hvalid, s', hs', by rwa [hgrows.key]⟩

/-- How a step of an open comes out. It waits on; or it ends without a connection, and its entry goes; or it has a
connection and attaches its editor, or gives the connection back. -/
inductive Comes (h : Host) (c : CallId) (o : Opening) : Option Answer → Host → Prop
  | waits {h' : Host} (hentries : ∀ e, h'.attachment? e = h.attachment? e)
      (hp : (∃ σ, h'.progress? c = some (.reopening o σ)) ∨
        h'.progress? c = some (.opening o) ∧ o.what.key.isValid = true) : Comes h c o none h'
  | fails {h' : Host} {ans : Option Answer} (hans : ∀ id, ans ≠ some (.acquired id))
      (hentries : h.Without o.editor o.token h')
      (hp : h'.progress? c = some (.ended .done)) : Comes h c o ans h'
  | attaches {h' : Host} {σ : SessionId} {id : ConnectionId} (hid : h'.Suits o id)
      (hown : h.attachment? o.editor = some (.pending o.token false))
      (hentries : ∀ e, h'.attachment? e = if e = o.editor then some (.attached σ) else h.attachment? e)
      (hp : h'.progress? c = some (.ended .done)) : Comes h c o (some (.acquired id)) h'
  | discards {h' : Host} {σ : SessionId} {id : ConnectionId} (hid : h'.Suits o id)
      (hσ : h'.connectionOf? σ = some id) (hentries : h.Without o.editor o.token h')
      (hp : h'.progress? c = some (.ended .done) ∨ h'.progress? c = some (.discarding o.editor o.token σ)) :
      Comes h c o (some (.acquired id)) h'

namespace Without
variable {token : Nat}

theorem since (hw : h₁.Without e token h') (hentries : ∀ e, h₁.attachment? e = h.attachment? e) :
    h.Without e token h' := by
  have hentered : h₁.Entered e token ↔ h.Entered e token := by simp only [Entered, hentries]
  exact ⟨fun e' he => (hw.others e' he).trans (hentries e'), fun he => hw.own (hentered.2 he),
    fun he => (hw.stale (mt hentered.1 he)).trans (hentries e)⟩

theorem congr (hw : h.Without e token h₁) (hentries : ∀ e, h'.attachment? e = h₁.attachment? e) :
    h.Without e token h' :=
  ⟨fun e' he => (hentries e').trans (hw.others e' he), fun he => (hentries e).trans (hw.own he),
    fun he => (hentries e).trans (hw.stale he)⟩

theorem of_not (hno : ¬h.Entered e token) (hentries : ∀ e, h'.attachment? e = h.attachment? e) :
    h.Without e token h' :=
  ⟨fun e' _ => hentries e', fun he => absurd he hno, fun _ => hentries e⟩

theorem same (hw : h.Without e token h') (hno : ¬h.Entered e token) (e' : EditorId) :
    h'.attachment? e' = h.attachment? e' := by
  by_cases he : e' = e
  · exact he ▸ hw.stale hno
  · exact hw.others e' he

theorem detach (he : h.Entered e token) : h.Without e token (h.detach e) :=
  ⟨fun e' hne => by rw [attachment?_detach, if_neg hne], fun _ => by rw [attachment?_detach, if_pos rfl],
    fun hno => absurd he hno⟩

theorem withdraw (h : Host) (e : EditorId) (token : Nat) : h.Without e token (h.withdraw e token) := by
  unfold Host.withdraw
  split
  · rename_i t b he
    split
    · rename_i ht
      exact detach ⟨b, ht ▸ he⟩
    · rename_i ht
      refine of_not ?_ fun _ => rfl
      rintro ⟨b', hb'⟩
      cases he.symm.trans hb'
      exact ht rfl
  · rename_i hno
    refine of_not ?_ fun _ => rfl
    rintro ⟨b, hb⟩
    exact hno _ _ hb

end Without

namespace Learns

theorem refl (h : Host) (c : CallId) (ans : Option Answer) : h.Learns c ans h := fun _ _ _ ha => .inl ha

theorem trans (hl : h.Learns c none h₁) (hl' : h₁.Learns c ans h') : h.Learns c ans h' := by
  intro q a hq ha
  rcases hl' q a hq ha with ha | ha
  · exact .inl ((hl q a hq ha).resolve_right nofun)
  · exact .inr ha

theorem then_nothing (hl : h.Learns c ans h₁) (hl' : h₁.Learns c none h') : h.Learns c ans h' :=
  fun q a hq ha => hl q a hq ((hl' q a hq ha).resolve_right nofun)

theorem of_registry (hr : h'.registry = h.registry) : h.Learns c none h' := by
  rintro q a - ⟨i, s, t, hs, hrest⟩
  exact .inl ⟨i, s, t, by rwa [← hr], hrest⟩

theorem visit (h : Host) (c : CallId) (i : Nat) (r : Request) : h.Learns c (h.visit c i r).2 (h.visit c i r).1 :=
  fun _ _ _ ha => ((visit_answered h c i r).1 ha).imp_right fun ha => ha.2.2

theorem visitToAcquire (h : Host) (c : CallId) (key : ServerKey) (document : Option Path) :
    h.Learns c (h.visitToAcquire c key document).2 (h.visitToAcquire c key document).1 :=
  trans (fun _ _ _ ha => .inl ((openSlot_answered h key).1 ha)) (visit _ c _ _)

theorem beginRelease (h : Host) (c : CallId) (σ : SessionId) : h.Learns c none (h.beginRelease c σ).1 := by
  unfold Host.beginRelease
  split
  · exact refl h c none
  · split
    · exact refl h c none
    · intro q a hq ha
      refine .inl (((visit_answered ..).1 ha).resolve_right fun ⟨_, hr, _⟩ => ?_)
      exact Request.release_not_acquires (hr ▸ hq)

end Learns

/-- A call gives a session back, and waits for that at the stage or is done. -/
structure Discards (h : Host) (c : CallId) (p : Progress) (h' : Host) : Prop where
  progress : h'.progress? c = some (.ended .done) ∨ h'.progress? c = some p
  entries : ∀ e, h'.attachment? e = h.attachment? e
  connections : ∀ σ, h'.connectionOf? σ = h.connectionOf? σ
  suits : ∀ o id, h.Suits o id → h'.Suits o id
  learns : h.Learns c none h'

section Pieces
variable (hx : h.call? c = some x)
include hx

theorem discard_progress (p : Progress) (σ : SessionId) : h.Discards c p (match h.beginRelease c σ with
    | (h, some none) => h.setProgress c p
    | (h, _) => h.finish c .done) := by
  have hpass := h.beginRelease_passes c σ none
  have hlearns := Learns.beginRelease h c σ
  have hwork : Works (.closeEditor default) c h (h.beginRelease c σ).1 := Works.refl.beginRelease (.inl trivial)
  have hx' : (h.beginRelease c σ).1.call? c = some x := (hpass.call? c).trans hx
  have hattach := hpass.attachment?
  have hconnections := hpass.connections
  generalize h.beginRelease c σ = out at hx' hattach hconnections hlearns hwork
  obtain ⟨h₁, ans⟩ := out
  have hsuits (o : Opening) (id : ConnectionId) (hid : h.Suits o id) : h₁.Suits o id := hid.later hwork
  split
  · rename_i he
    cases he
    exact ⟨.inr (progress?_setProgress hx' p), hattach, hconnections, hsuits, hlearns.then_nothing (.of_registry rfl)⟩
  · rename_i he
    cases he
    exact ⟨.inl (progress?_setProgress hx' _), hattach, hconnections, hsuits, hlearns.then_nothing (.of_registry rfl)⟩

theorem completeOpen_comes (hid : h.Suits o id) :
    h.Comes c o (some (.acquired id)) (h.completeOpen c o id) ∧ h.Learns c none (h.completeOpen c o id) := by
  have hnew : (h.addSession id o.what.uri).1.connectionOf? ⟨h.sessions.length⟩ = some id := by
    rw [connectionOf?, session?, addSession, List.getElem?_concat_length, Option.map_some]
  have hdiscards (h₁ : Host) (hx₁ : h₁.call? c = some x) (hregistry : h₁.registry = h.registry)
      (hw : h.Without o.editor o.token h₁) {σ : SessionId} (hσ : h₁.connectionOf? σ = some id) :
      let h' := match h₁.beginRelease c σ with
        | (h, some none) => h.setProgress c (.discarding o.editor o.token σ)
        | (h, _) => h.finish c .done
      h.Comes c o (some (.acquired id)) h' ∧ h.Learns c none h' := by
    have hd := discard_progress hx₁ (.discarding o.editor o.token σ) σ
    have hid₁ : h₁.Suits o id := by rwa [Suits, hregistry]
    exact ⟨.discards (hd.suits o id hid₁) ((hd.connections σ).trans hσ) (hw.congr hd.entries) hd.progress,
      (Learns.of_registry hregistry).trans hd.learns⟩
  have hadd (hno : ¬h.Entered o.editor o.token) : h.Without o.editor o.token (h.addSession id o.what.uri).1 :=
    .of_not hno fun _ => rfl
  unfold Host.completeOpen
  dsimp only
  split
  · rename_i token close he
    replace he : h.attachment? o.editor = some (.pending token close) := he
    split
    · rename_i ht
      subst ht
      split
      · refine hdiscards ((h.addSession id o.what.uri).1.detach o.editor) hx rfl ?_ hnew
        exact (Without.detach (h := (h.addSession id o.what.uri).1) ⟨close, he⟩).since fun _ => rfl
      · rename_i hclose
        obtain rfl : close = false := by simpa using hclose
        have hentries := attachment?_attach_of (h.addSession id o.what.uri).1 o.editor (.attached ⟨h.sessions.length⟩)
        exact ⟨.attaches hid he hentries (progress?_setProgress (x := x) hx _), .of_registry rfl⟩
    · rename_i ht
      refine hdiscards (h.addSession id o.what.uri).1 hx rfl (hadd ?_) hnew
      rintro ⟨b, hb⟩
      cases he.symm.trans hb
      exact ht rfl
  · rename_i hno
    refine hdiscards (h.addSession id o.what.uri).1 hx rfl (hadd ?_) hnew
    rintro ⟨b, hb⟩
    exact hno _ _ hb

theorem withdrawn_fails (o : Opening) (ans : Option Answer) (hans : ∀ id, ans ≠ some (.acquired id)) :
    h.Comes c o ans ((h.withdraw o.editor o.token).finish c .done) ∧
      h.Learns c none ((h.withdraw o.editor o.token).finish c .done) := by
  have hx' : (h.withdraw o.editor o.token).call? c = some x := by rw [call?, withdraw_calls]; exact hx
  exact ⟨.fails hans ((Without.withdraw h o.editor o.token).congr fun _ => rfl) (progress?_setProgress hx' _),
    .of_registry (withdraw_registry ..)⟩

theorem answerOpen_comes (hid : ∀ id, a = .acquired id → h.Suits o id) :
    h.Comes c o (some a) (h.answerOpen c o a) ∧ h.Learns c none (h.answerOpen c o a) := by
  cases a with
  | acquired id => exact completeOpen_comes hx (hid id rfl)
  | refused | released | cleared => exact withdrawn_fails hx o _ (by simp)

end Pieces

theorem Comes.since (hc : h₁.Comes c o ans h') (hentries : ∀ e, h₁.attachment? e = h.attachment? e) :
    h.Comes c o ans h' := by
  cases hc with
  | waits hsame hp => exact .waits (fun e => (hsame e).trans (hentries e)) hp
  | fails hans hw hp => exact .fails hans (hw.since hentries) hp
  | attaches hid hown hsame hp => exact .attaches hid (by rwa [← hentries]) (fun e => by rw [hsame, hentries]) hp
  | discards hid hσ hw hp => exact .discards hid hσ (hw.since hentries) hp

theorem visitToAcquire_suits (hn : h.registry.Numbered) (hvalid : o.what.key.isValid = true) (c : CallId)
    (id : ConnectionId) (ha : (h.visitToAcquire c o.what.key o.what.document).2 = some (.acquired id)) :
    (h.visitToAcquire c o.what.key o.what.document).1.Suits o id := by
  obtain ⟨s, hs, hkey⟩ := Registry.Sound.openSlot_get h.registry o.what.key
  have hopen : ({ h with registry := (h.registry.openSlot o.what.key).1 } : Host).registry.Numbered := hn.openSlot _
  have hslot : id.slot = (h.registry.openSlot o.what.key).2 := (visit_numbered hopen ..).2 id ha
  have hsuits : ({ h with registry := (h.registry.openSlot o.what.key).1 } : Host).Suits o id :=
    ⟨hvalid, s, hslot ▸ hs, hkey⟩
  exact hsuits.later (t := .shutdownAll) (Works.refl.visit _ _)

theorem acquireForOpen_comes (hn : h.registry.Numbered) (hx : h.call? c = some x) (o : Opening) :
    ∃ ans, h.Comes c o ans (h.acquireForOpen c o) ∧ h.Learns c ans (h.acquireForOpen c o) := by
  unfold Host.acquireForOpen
  split
  · obtain ⟨hcomes, hlearns⟩ := withdrawn_fails hx o none nofun
    exact ⟨none, hcomes, hlearns⟩
  · rename_i hvalid
    have hpass := h.visitToAcquire_passes c o.what.key o.what.document
    have hlearns := Learns.visitToAcquire h c o.what.key o.what.document
    have hx' : (h.visitToAcquire c o.what.key o.what.document).1.call? c = some x := (hpass.call? c).trans hx
    have hattach := hpass.attachment?
    replace hvalid : o.what.key.isValid = true := by simpa using hvalid
    have hsuits := visitToAcquire_suits hn hvalid c
    split
    · rename_i a he
      rw [he] at hx' hattach hlearns hsuits
      obtain ⟨hcomes, hquiet⟩ := answerOpen_comes hx' fun id ha => hsuits id (congrArg some ha)
      exact ⟨some a, hcomes.since hattach, hlearns.then_nothing hquiet⟩
    · rename_i he
      rw [he] at hx' hattach hlearns
      exact ⟨none, .waits hattach (.inr ⟨progress?_setProgress hx' _, hvalid⟩), hlearns.then_nothing (.of_registry rfl)⟩

/-- The state in which the open of an eligible editor has its entry, and its token is spent. -/
def entering (h : Host) (o : Opening) : Host :=
  { h with nextToken := h.nextToken + 1 }.attach o.editor (.pending o.token false)

theorem entering_attachment? (h : Host) (o : Opening) (e : EditorId) :
    (h.entering o).attachment? e = if e = o.editor then some (.pending o.token false) else h.attachment? e :=
  attachment?_attach_of _ o.editor _ e

theorem entering_entered (h : Host) (o : Opening) : (h.entering o).Entered o.editor o.token :=
  ⟨false, by rw [entering_attachment?, if_pos rfl]⟩

theorem openEditor_comes {editor : Editor} {what : Resolved} (hn : h.registry.Numbered) (hx : h.call? c = some x)
    (hr : editor.resolve = .eligible what) : let o : Opening := ⟨editor.id, h.nextToken, what⟩
    ∃ ans, (h.entering o).Comes c o ans (h.openEditor c editor) ∧ h.Learns c ans (h.openEditor c editor) := by
  intro o
  have hx₀ : (h.entering o).call? c = some x := hx
  have hgo {h₁ : Host} (hn₁ : h₁.registry.Numbered) (hx₁ : h₁.call? c = some x)
      (hentries : ∀ e, h₁.attachment? e = (h.entering o).attachment? e) (hlearns : h.Learns c none h₁) :
      ∃ ans, (h.entering o).Comes c o ans (h₁.acquireForOpen c o) ∧ h.Learns c ans (h₁.acquireForOpen c o) := by
    obtain ⟨ans, hcomes, hlearns'⟩ := acquireForOpen_comes hn₁ hx₁ o
    exact ⟨ans, hcomes.since hentries, hlearns.trans hlearns'⟩
  have hquiet : h.Learns c none (h.entering o) := .of_registry rfl
  rw [Host.openEditor, hr]
  show ∃ ans, (h.entering o).Comes c o ans ({ h with nextToken := h.nextToken + 1 }.beginOpen c o) ∧
    h.Learns c ans ({ h with nextToken := h.nextToken + 1 }.beginOpen c o)
  unfold Host.beginOpen
  dsimp only
  split
  · rename_i σ _
    have hpass := (h.entering o).beginRelease_passes c σ none
    have hlearns := hquiet.trans (Learns.beginRelease (h.entering o) c σ)
    have hx' : ((h.entering o).beginRelease c σ).1.call? c = some x := (hpass.call? c).trans hx₀
    have hattach := hpass.attachment?
    have hn₁ := beginRelease_numbered (h := h.entering o) hn c σ
    split
    · rename_i he
      rw [entering, he] at hx' hattach hlearns
      exact ⟨none, .waits hattach (.inl ⟨σ, progress?_setProgress hx' _⟩), hlearns.then_nothing (.of_registry rfl)⟩
    · rename_i he
      rw [entering, he] at hx' hattach hlearns hn₁
      exact hgo hn₁ hx' hattach hlearns
  · exact hgo hn hx₀ (fun _ => rfl) hquiet

/-- A call that comes from the one stage to the other is no open on its way to a connection, and has not just begun
to give one back that it did not want. -/
structure Aside (p p' : Progress) : Prop where
  before : p.opening? = none
  after : p'.opening? = none
  discarding : ∀ e token σ, p' = .discarding e token σ → p = p'

/-- What an event does to the entries of the editors, and by what open, close or shutdown. -/
inductive Moves (h : Host) : Option CallId → Option Task → Host → Prop
  | still {h' : Host} {actor : Option CallId} {task : Option Task} (hentries : ∀ e, h'.attachment? e = h.attachment? e)
      (htask : ∀ editor what, task = some (.openEditor editor) → editor.resolve ≠ .eligible what)
      (hcalls : ∀ c x, actor = some c → h.call? c = some x → ∃ p, h'.progress? c = some p ∧ Aside x.progress p) :
      Moves h actor task h'
  | opens {h' : Host} {c : CallId} {editor : Editor} {what : Resolved} {ans : Option Answer}
      (hx : h.call? c = some ⟨.openEditor editor, .fresh⟩) (hr : editor.resolve = .eligible what)
      (hc : (h.entering ⟨editor.id, h.nextToken, what⟩).Comes c ⟨editor.id, h.nextToken, what⟩ ans h')
      (hl : h.Learns c ans h') : Moves h (some c) (some (.openEditor editor)) h'
  | goes {h' : Host} {c : CallId} {x : Call} {o : Opening} {ans : Option Answer} (hx : h.call? c = some x)
      (ho : x.progress.opening? = some o) (hc : h.Comes c o ans h') (hl : h.Learns c ans h') : Moves h (some c) none h'
  | dropped {h' : Host} {c : CallId} {x : Call} {o : Opening} (hx : h.call? c = some x)
      (ho : x.progress.opening? = some o) (hentries : ∀ e, h'.attachment? e = h.attachment? e)
      (hp : h'.progress? c = some (.ended .dropped)) : Moves h (some c) none h'
  | closes {h' : Host} {c : CallId} {e : EditorId} (hx : h.call? c = some ⟨.closeEditor e, .fresh⟩)
      (hothers : ∀ e', e' ≠ e → h'.attachment? e' = h.attachment? e')
      (hown : (h.attachment? e = none ∨ ∃ σ, h.attachment? e = some (.attached σ)) ∧ h'.attachment? e = none ∨
        ∃ token b, h.attachment? e = some (.pending token b) ∧ h'.attachment? e = some (.pending token true)) :
      Moves h (some c) (some (.closeEditor e)) h'
  | drains {h' : Host} {c : CallId} (hx : h.call? c = some ⟨.shutdownLifecycle, .fresh⟩)
      (hentries : ∀ e, h'.attachment? e = none) : Moves h (some c) (some .shutdownLifecycle) h'

section Events
variable {i : Nat} {s s' : Slot} {v : Visit}

/-- A close takes a session out of the entry, or leaves word there. -/
theorem closeEditor_entries (hx : h.call? c = some x) (e : EditorId) :
    (∀ e', e' ≠ e → (h.closeEditor c e).attachment? e' = h.attachment? e') ∧
      ((h.attachment? e = none ∨ ∃ σ, h.attachment? e = some (.attached σ)) ∧ (h.closeEditor c e).attachment? e = none ∨
        ∃ token b, h.attachment? e = some (.pending token b) ∧
          (h.closeEditor c e).attachment? e = some (.pending token true)) := by
  unfold Host.closeEditor
  split
  · rename_i he
    exact ⟨fun _ _ => rfl, .inl ⟨.inl he, he⟩⟩
  · rename_i token b he
    have hattach (e' : EditorId) := attachment?_attach_of h e (.pending token true) e'
    refine ⟨fun e' hne => ?_, .inr ⟨token, b, he, ?_⟩⟩
    · exact (hattach e').trans (if_neg hne)
    · exact (hattach e).trans (if_pos rfl)
  · rename_i σ he
    have hentries := (discard_progress (h := h.detach e) (c := c) hx (.closing σ) σ).entries
    refine ⟨fun e' hne => ?_, .inl ⟨.inr ⟨σ, he⟩, ?_⟩⟩
    · exact (hentries e').trans (by rw [attachment?_detach, if_neg hne])
    · exact (hentries e).trans (by rw [attachment?_detach, if_pos rfl])

theorem shutdownLifecycle_moves (hx : h.call? c = some ⟨.shutdownLifecycle, .fresh⟩) :
    h.Moves (some c) (some .shutdownLifecycle) (h.shutdownLifecycle c) := by
  refine .drains hx fun e => ?_
  rw [attachment?, shutdownLifecycle_attachments]
  rfl

theorem begin_moves (hn : h.registry.Numbered) (hs : h.Staged) (hx : h.call? c = some ⟨t, .fresh⟩) :
    h.Moves (some c) (some t) (h.begin c t) := by
  have haside (hno : ¬t.OfEditors) : h.Moves (some c) (some t) (h.begin c t) := by
    have hw := Works.refl.begin (h := h) (c := c) (t := t)
    refine .still (fun e => ?_) (fun editor what he => ?_) fun d y hd hy => ?_
    · rw [attachment?, (hw.aside hno).1, attachment?]
    · obtain rfl := Option.some.inj he
      exact absurd trivial hno
    · obtain rfl := Option.some.inj hd
      obtain rfl := Option.some.inj (hx.symm.trans hy)
      obtain ⟨x', hx', ht, _⟩ := hw.call hx
      have hreaches := hw.staged hx rfl hs c x' hx'
      have hopens (editor : Editor) (he : x'.task = .openEditor editor) : False := by
        have htask : t = .openEditor editor := ht.symm.trans he
        exact hno (by rw [htask]; trivial)
      refine ⟨x'.progress, by rw [progress?, hx', Option.map_some], rfl, ?_, fun e token σ hp => ?_⟩
      · refine Option.eq_none_iff_forall_ne_some.2 fun o ho => ?_
        obtain ⟨editor, he, _⟩ := hreaches.opening ho
        exact hopens editor he
      · rw [hp] at hreaches
        obtain ⟨editor, he⟩ := hreaches.discarding_open
        exact (hopens editor he).elim
  cases t with
  | openEditor editor =>
    cases hr : editor.resolve with
    | eligible what =>
      obtain ⟨ans, hcomes, hlearns⟩ := openEditor_comes hn hx hr
      exact .opens hx hr hcomes hlearns
    | ineligible | crashed =>
      refine .still (fun e => ?_) (fun editor' what he => ?_) fun d y hd hy => ?_
      · rw [Host.begin, Host.openEditor, hr]
        rfl
      · obtain rfl := Task.openEditor.inj (Option.some.inj he)
        rw [hr]
        exact Resolution.noConfusion
      · obtain rfl := Option.some.inj hd
        obtain rfl := Option.some.inj (hx.symm.trans hy)
        refine ⟨.ended .done, ?_, rfl, rfl, by simp⟩
        rw [Host.begin, Host.openEditor, hr]
        exact progress?_setProgress (h := { h with nextToken := h.nextToken + 1 }) hx (.ended .done)
  | closeEditor e =>
    obtain ⟨hothers, hown⟩ := closeEditor_entries hx e
    exact .closes hx hothers hown
  | shutdownLifecycle => exact shutdownLifecycle_moves hx
  | acquire | release | releaseConnection | shutdownAll | releaseSession => exact haside fun hno => hno

theorem answered_aside (hx : h.call? c = some x) (ho : x.progress.opening? = none) (i : Nat) (a : Answer) :
    (h.answered c i a).attachments = h.attachments ∧
      ∃ p, (h.answered c i a).progress? c = some p ∧ Aside x.progress p := by
  obtain ⟨task, p⟩ := x
  have hprogress : h.progress? c = some p := congrArg (Option.map Call.progress) hx
  have hset {p' : Progress} (hp : p'.opening? = none) (hno : ∀ e token σ, p' ≠ .discarding e token σ) :
      (h.setProgress c p').attachments = h.attachments ∧
        ∃ p'', (h.setProgress c p').progress? c = some p'' ∧ Aside p p'' :=
    ⟨rfl, p', progress?_setProgress hx p', ho, hp, fun e token σ he => absurd he (hno e token σ)⟩
  have hsame : h.attachments = h.attachments ∧ ∃ p', h.progress? c = some p' ∧ Aside p p' :=
    ⟨rfl, p, hprogress, ho, ho, fun _ _ _ _ => rfl⟩
  unfold answered
  rw [hprogress]
  cases p with
  | reopening | opening => simp [Progress.opening?] at ho
  | acquiring => cases a <;> first | exact hset rfl (by simp) | exact hsame
  | clearing waiting closed report =>
    dsimp only
    split <;> exact hset rfl (by simp)
  | releasing | releasingSession | discarding | closing => exact hset rfl (by simp)
  | fresh | ended => exact hsame

theorem Progress.opening?_eq_some (hp : p.opening? = some o) : p = .opening o ∨ ∃ σ, p = .reopening o σ := by
  cases p with
  | opening => exact .inl (congrArg _ (Option.some.inj hp))
  | reopening _ σ => exact .inr ⟨σ, by rw [Option.some.inj hp]⟩
  | fresh | acquiring | releasing | releasingSession | clearing | discarding | closing | ended => cases hp

/-- The key of an open that waits for a connection is valid. -/
def Asking (h : Host) : Prop :=
  ∀ c x o, h.call? c = some x → x.progress = .opening o → o.what.key.isValid = true

theorem moves_of_quiet (hvalid : h.Asking) (hentries : ∀ e, h'.attachment? e = h.attachment? e)
    (hactor : ∀ c x, actor = some c → h.call? c = some x → h'.progress? c = some x.progress ∧ h.Learns c none h') :
    h.Moves actor none h' := by
  by_cases hopen : ∃ c x o, actor = some c ∧ h.call? c = some x ∧ x.progress.opening? = some o
  · obtain ⟨c, x, o, rfl, hx, ho⟩ := hopen
    obtain ⟨hp, hlearns⟩ := hactor c x rfl hx
    refine .goes hx ho (.waits hentries ?_) hlearns
    rcases Progress.opening?_eq_some ho with he | ⟨σ, he⟩
    · exact .inr ⟨he ▸ hp, hvalid c x o hx he⟩
    · exact .inl ⟨σ, he ▸ hp⟩
  · refine .still hentries (fun _ _ ht => by cases ht) fun c x hc hx => ?_
    have hnone : x.progress.opening? = none :=
      Option.eq_none_iff_forall_ne_some.2 fun o ho => hopen ⟨c, x, o, hc, hx, ho⟩
    exact ⟨x.progress, (hactor c x hc hx).1, hnone, hnone, fun _ _ _ _ => rfl⟩

theorem Ordered.given (ho : h.Ordered none Q) (hslot : h.registry.slots[i]? = some s) (hl : s.Lives)
    (hg : s.Goes v (s', ans)) (hm : s' = s ∨ s.Step v.call s') :
    (h.setSlot i s').registry.Numbered ∧ ∀ id, ans = some (.acquired id) → id.slot = i := by
  have hchange := hl.change_of_step hm
  refine ⟨?_, fun id hid => ?_⟩
  · rw [setSlot_registry]
    exact ho.sound.numbered.setSlot hslot hchange.number hchange.lives.numbered
  · subst hid
    rw [(hg.fits hchange.lives).2 id rfl, hchange.number, ho.sound.numbers i s hslot]

theorem answered_suits (hslot : h.registry.slots[i]? = some s) (hg : s.Goes v (s', ans)) (hid : id.slot = i)
    (hvalid : o.what.key.isValid = true) (hp : x.progress = .opening o) (hw : h.Waits x i v.request) :
    (h.setSlot i s').Suits o id := by
  refine ⟨hvalid, s', hid ▸ setSlot_slot hslot s', ?_⟩
  rw [hg.key]
  generalize v.request = r at hw
  cases hw with
  | opening hp' _ hi =>
    obtain rfl := Progress.opening.inj (hp.symm.trans hp')
    obtain ⟨u, hu, hkey⟩ := Registry.Sound.slotIndex?_slot hi
    rwa [Option.some.inj (hslot.symm.trans hu)]
  | acquiring hp' | release hp' | returning hp' | clearing hp' => cases hp.symm.trans hp'
  | session hp' =>
    rw [hp] at hp'
    cases hp'

theorem answered_moves (hn : (h.setSlot i s').registry.Numbered)
    (hvalid : h.Asking) (hslot : h.registry.slots[i]? = some s) (hg : s.Goes v (s', some a))
    (hgiven : ∀ id, a = .acquired id → id.slot = i) (hx : h.call? v.call = some x) (hw : h.Waits x i v.request) :
    h.Moves (some v.call) none ((h.setSlot i s').answered v.call i a) := by
  have hx' : (h.setSlot i s').call? v.call = some x := by rwa [call?, setSlot_calls]
  have hprogress : (h.setSlot i s').progress? v.call = some x.progress := congrArg (Option.map Call.progress) hx'
  have hentries (e : EditorId) : (h.setSlot i s').attachment? e = h.attachment? e := by
    rw [attachment?, setSlot_attachments, attachment?]
  cases ho : x.progress.opening? with
  | none =>
    obtain ⟨hattachments, hafter⟩ := answered_aside hx' ho i a
    refine .still (fun e => ?_) (fun _ _ ht => by cases ht) fun c y hc hy => ?_
    · rw [attachment?, hattachments, setSlot_attachments, attachment?]
    · obtain rfl := Option.some.inj hc
      obtain rfl := Option.some.inj (hy.symm.trans hx)
      exact hafter
  | some o =>
    rcases Progress.opening?_eq_some ho with hp | ⟨σ, hp⟩
    · have hlearns : h.Learns v.call (some a) (h.setSlot i s') := fun _ _ _ ha =>
        ((goes_answered hslot hg).1 ha).imp_right fun ha => ha.2.2
      obtain ⟨hcomes, hquiet⟩ := answerOpen_comes hx' fun id ha =>
        answered_suits hslot hg (hgiven id ha) (hvalid v.call x o hx hp) hp hw
      have he : (h.setSlot i s').answered v.call i a = (h.setSlot i s').answerOpen v.call o a := by
        simp only [answered, hprogress, hp]
      rw [he]
      exact .goes hx ho (hcomes.since hentries) (hlearns.then_nothing hquiet)
    · -- What the open waited for is the slot of its prior session, where it asked for no connection.
      have hlearns : h.Learns v.call none (h.setSlot i s') := by
        intro q b hq ha
        refine .inl (((goes_answered hslot hg).1 ha).resolve_right ?_)
        rintro ⟨-, rfl, -⟩
        generalize v.request = r at hw hq
        cases hw with
        | session => exact Request.release_not_acquires hq
        | acquiring hp' | opening hp' | release hp' | returning hp' | clearing hp' => cases hp.symm.trans hp'
      obtain ⟨ans, hcomes, hlearns'⟩ := acquireForOpen_comes hn hx' o
      have he : (h.setSlot i s').answered v.call i a = (h.setSlot i s').acquireForOpen v.call o := by
        simp only [answered, hprogress, hp]
      rw [he]
      exact .goes hx ho (hcomes.since hentries) (hlearns.trans hlearns')

theorem interrupt_answered (h : Host) (c : CallId) (p : Progress) (ha : (h.interrupt c p).Answered d q a) :
    h.Answered d q a := by
  obtain ⟨i, s', u, hs', hu, hc, hq, ha⟩ := ha
  rw [interrupt_slots, Option.map_eq_some_iff] at hs'
  obtain ⟨s, hs, rfl⟩ := hs'
  rcases Slot.abandon_turns s c u hu with hu | ⟨hnone, _⟩
  · exact ⟨i, s, u, hs, hu, hc, hq, ha⟩
  · cases hnone.symm.trans ha

theorem ends_aside {r : Result} (hx : h.call? c = some x) (hx₁ : h₁.call? c = some x)
    (hsame : ∀ e, h₁.attachment? e = h.attachment? e) (ho : x.progress.opening? = none) :
    h.Moves (some c) none (h₁.finish c r) := by
  refine .still hsame (fun _ _ ht => by cases ht) fun d y hd hy => ?_
  obtain rfl := Option.some.inj hd
  obtain rfl := Option.some.inj (hy.symm.trans hx)
  exact ⟨.ended r, progress?_setProgress hx₁ _, ho, rfl, by simp⟩

theorem crash_withdraws (hx : h.call? c = some x) (ho : x.progress.opening? = some o) :
    h.Without o.editor o.token (h.crash c) ∧ (h.crash c).progress? c = some (.ended .done) ∧
      h.Learns c none (h.crash c) := by
  obtain ⟨task, p⟩ := x
  have hp (r : Result) : p ≠ .ended r := by
    rintro rfl
    cases ho
  have hx' : ((h.interrupt c p).withdraw o.editor o.token).call? c = some ⟨task, p⟩ := by
    rw [call?, withdraw_calls]
    exact interrupt_call? hx c p
  have he : h.crash c = ((h.interrupt c p).withdraw o.editor o.token).finish c .done := by
    rw [Ordered.crash_eq hx hp]
    rcases Progress.opening?_eq_some ho with rfl | ⟨σ, rfl⟩ <;> rfl
  have hlearns : h.Learns c none (h.interrupt c p) := fun _ _ _ ha => .inl (interrupt_answered h c p ha)
  have hw := (Without.withdraw (h.interrupt c p) o.editor o.token).since (interrupt_attachment? h c p)
  rw [he]
  exact ⟨hw.congr fun _ => rfl, progress?_setProgress hx' _, hlearns.then_nothing (.of_registry (withdraw_registry ..))⟩

theorem crash_moves (hf : h.Follows none none g) (hx : h.call? c = some x) (hp : ∀ r, x.progress ≠ .ended r) :
    h.Moves (some c) none (h.crash c) := by
  cases ho : x.progress.opening? with
  | some o =>
    obtain ⟨hw, hdone, hlearns⟩ := crash_withdraws hx ho
    exact .goes hx ho (.fails (by simp) hw hdone) hlearns
  | none =>
    have hx' := interrupt_call? hx c x.progress
    have hentries := interrupt_attachment? h c x.progress
    rw [Ordered.crash_eq hx hp]
    split
    · rename_i hprog
      rw [hprog] at ho
      cases ho
    · rename_i hprog
      rw [hprog] at ho
      cases ho
    · rename_i e token σ hprog
      -- The entry of an open that gives its session back has gone before.
      have hgone := ((hf.stands c x nofun hx).discarding e token σ hprog).2
      have hw := (Without.withdraw (h.interrupt c x.progress) e token).since hentries
      refine ends_aside hx ?_ (hw.same fun ⟨b, hb⟩ => hgone b hb) ho
      rw [call?, withdraw_calls]
      exact hx'
    · exact ends_aside hx hx' hentries ho
    · exact ends_aside hx hx' hentries ho

/-- All that happens to the entries is the doing of opens, closes and shutdowns. -/
theorem Happens.moves (hh : h.Happens actor task h') (horder : h.Ordered none Q) (hs : h.Staged)
    (hf : h.Follows none none g) (hvalid : h.Asking) : h.Moves actor task h' := by
  cases hh with
  | calm now woken =>
    refine moves_of_quiet hvalid (fun _ => rfl) fun c x _ hx => ⟨?_, .of_registry rfl⟩
    exact congrArg (Option.map Call.progress) hx
  | made t =>
    refine moves_of_quiet hvalid (fun e => ?_) fun _ _ hc => by cases hc
    rw [attachment?, spawn_attachments, attachment?]
  | wrapped id uri => exact moves_of_quiet hvalid (fun _ => rfl) fun _ _ hc => by cases hc
  | begins hx => exact begin_moves horder.sound.numbered hs hx
  | @waits i s v stage s' x hslot _ _ hg _ _ _ =>
    refine moves_of_quiet hvalid (fun e => by rw [attachment?, setSlot_attachments, attachment?]) fun c y _ hy => ?_
    refine ⟨?_, fun q a _ ha => .inl (((goes_answered hslot hg).1 ha).resolve_right (by simp))⟩
    rw [progress?, call?, setSlot_calls]
    exact congrArg (Option.map Call.progress) hy
  | @answered i s v stage s' a x hslot hl _ hg hm hx hw =>
    obtain ⟨hn, hgiven⟩ := horder.given hslot hl hg hm
    exact answered_moves hn hvalid hslot hg (fun id hid => hgiven id (congrArg some hid)) hx hw
  | @dropped c x hx hp =>
    have hentries (e : EditorId) : ((h.interrupt c x.progress).finish c .dropped).attachment? e = h.attachment? e :=
      interrupt_attachment? h c x.progress e
    cases ho : x.progress.opening? with
    | some o =>
      exact .dropped hx ho hentries (progress?_setProgress (interrupt_call? hx c x.progress) _)
    | none => exact ends_aside hx (interrupt_call? hx c x.progress) (interrupt_attachment? h c x.progress) ho
  | crashed hx hp => exact crash_moves hf hx hp

end Events

end LanguageHost.Host
