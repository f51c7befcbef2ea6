import LanguageHost.Proofs.Host.Passes

/-! Editors follow the last of their events. What is remembered beside the host is which open that is, if it
is one, and which open made which session. -/
namespace LanguageHost

/-- For every editor the open that is the last of its events, and for every session the open that made it. -/
structure Doings where
  last : EditorId → Option CallId
  maker : SessionId → Option CallId

namespace Host

/-- A close and a shutdown leave no open as the last event. To open an editor that is not eligible for a server is
no event. -/
def lastOpen (actor : Option CallId) (task : Option Task) (last : EditorId → Option CallId) (e : EditorId) :
    Option CallId :=
  match task with
  | some (.openEditor editor) =>
    match editor.resolve with
    | .eligible _ => if e = editor.id then actor else last e
    | .ineligible | .crashed => last e
  | some (.closeEditor e') => if e = e' then none else last e
  | some .shutdownLifecycle => none
  | _ => last e

/-- Sessions that are new have been made by the actor. -/
def madeBy (before after : Nat) (actor : Option CallId) (maker : SessionId → Option CallId) (σ : SessionId) :
    Option CallId :=
  if before ≤ σ.number ∧ σ.number < after then actor else maker σ

def doings (h : Host) (actor : Option CallId) (task : Option Task) (h' : Host) (g : Doings) : Doings :=
  ⟨lastOpen actor task g.last, madeBy h.sessions.length h'.sessions.length actor g.maker⟩

def Opened (h : Host) (c : CallId) (e : EditorId) : Prop :=
  ∃ x editor, h.call? c = some x ∧ x.task = .openEditor editor ∧ editor.id = e

def Recalled (h : Host) (σ : SessionId) : Prop := ∃ c x, h.call? c = some x ∧ x.task = .releaseSession σ

variable {h h' : Host} {g g' : Doings} {c d : CallId} {x y : Call} {e e' : EditorId} {σ τ : SessionId}
  {id : ConnectionId} {air busy : Option CallId} {loose loose' : Option SessionId} {o : Opening} {p : Progress}
  {a : Option Attachment}

/-- Where a call stands with the editors. An open under way has the entry of its editor if it is the last of the
events there; until it is answered it has acquired nothing. -/
structure Stands (h : Host) (last : EditorId → Option CallId) (c : CallId) (x : Call) : Prop where
  opening : ∀ o, x.progress.opening? = some o → o.token < h.nextToken ∧
    (h.attachment? o.editor = some (.pending o.token false) ↔ last o.editor = some c)
  discarding : ∀ e token σ, x.progress = .discarding e token σ → token < h.nextToken ∧
    ∀ b, h.attachment? e ≠ some (.pending token b)
  silent : (∃ editor, x.task = .openEditor editor) → x.progress = .fresh ∨ (x.progress.opening?).isSome →
    ∀ id, ¬h.Acquired c id
  wanted : ∀ e id, last e = some c → h.Acquired c id → ∃ σ, h.attachment? e = some (.attached σ)

/-- Every editor is what the last of its events makes it, but for what a call in the air has yet to do, and a
session that is on its way. -/
structure Follows (h : Host) (air : Option CallId) (loose : Option SessionId) (g : Doings) : Prop where
  editors : (h.attachments.map Prod.fst).Nodup
  stands : ∀ c x, some c ≠ air → h.call? c = some x → h.Stands g.last c x
  last : ∀ e c, g.last e = some c → h.Opened c e
  attached : ∀ e σ, h.attachment? e = some (.attached σ) → ∃ c, g.last e = some c ∧ g.maker σ = some c
  released : ∀ e σ, h.attachment? e = some (.attached σ) → h.Closed σ → h.Recalled σ
  made : ∀ σ c, g.maker σ = some c →
    (∃ e, h.Opened c e ∧ (some σ ≠ loose → h.attachment? e = some (.attached σ) ∨ h.Closed σ)) ∧
    (h.session? σ).isSome ∧ ∀ id, h.connectionOf? σ = some id ↔ h.Acquired c id

section Memory

theorem madeBy_same (n : Nat) (actor : Option CallId) (maker : SessionId → Option CallId) :
    madeBy n n actor maker = maker := by
  funext σ
  rw [madeBy, if_neg]
  omega

theorem madeBy_succ (n : Nat) (actor : Option CallId) (maker : SessionId → Option CallId) (σ : SessionId) :
    madeBy n (n + 1) actor maker σ = if σ = ⟨n⟩ then actor else maker σ := by
  have hiff : n ≤ σ.number ∧ σ.number < n + 1 ↔ σ = ⟨n⟩ := by
    obtain ⟨m⟩ := σ
    rw [SessionId.mk.injEq]
    dsimp only
    omega
  simp only [madeBy, hiff]

theorem Opened.unique (h₁ : h.Opened c e) (h₂ : h.Opened c e') : e = e' := by
  obtain ⟨x, editor, hx, ht, rfl⟩ := h₁
  obtain ⟨x', editor', hx', ht', rfl⟩ := h₂
  obtain rfl := Option.some.inj (hx.symm.trans hx')
  obtain rfl := Task.openEditor.inj (ht.symm.trans ht')
  rfl

private theorem lookup_cons_of_ne {k : EditorId} {b : Attachment} {l : List (EditorId × Attachment)} (hne : e ≠ k) :
    ((k, b) :: l).lookup e = l.lookup e := by
  rw [List.lookup_cons, beq_false_of_ne hne]

theorem attachment?_detach (h : Host) (e e' : EditorId) :
    (h.detach e).attachment? e' = if e' = e then none else h.attachment? e' := by
  simp only [attachment?, Host.detach]
  induction h.attachments with
  | nil => simp
  | cons entry l ih =>
    obtain ⟨k, b⟩ := entry
    by_cases hk : k = e
    · subst hk
      rw [List.filter_cons_of_neg (by simp), ih]
      split
      · rfl
      · rename_i hne
        rw [lookup_cons_of_ne hne]
    · rw [List.filter_cons_of_pos (by simpa using hk)]
      by_cases he : e' = k
      · subst he
        simp [hk]
      · rw [lookup_cons_of_ne he, ih, lookup_cons_of_ne he]

theorem attachment?_attach_of (h : Host) (e : EditorId) (a : Attachment) (e' : EditorId) :
    (h.attach e a).attachment? e' = if e' = e then some a else h.attachment? e' := by
  split
  · rename_i he
    rw [he]
    exact attachment?_attach h e a
  · rename_i hne
    have hd := attachment?_detach h e e'
    rw [if_neg hne] at hd
    rw [← hd]
    exact lookup_cons_of_ne hne

theorem detach_nodup (hn : (h.attachments.map Prod.fst).Nodup) (e : EditorId) :
    ((h.detach e).attachments.map Prod.fst).Nodup := hn.sublist (List.filter_sublist.map _)

end Memory

section Frame

theorem Opened.later (ho : h.Opened c e)
    (hcalls : ∀ c x, h.call? c = some x → ∃ x', h'.call? c = some x' ∧ x'.task = x.task) : h'.Opened c e := by
  obtain ⟨x, editor, hx, ht, he⟩ := ho
  obtain ⟨x', hx', ht'⟩ := hcalls c x hx
  exact ⟨x', editor, hx', ht'.trans ht, he⟩

theorem Recalled.later (hu : h.Recalled σ)
    (hcalls : ∀ c x, h.call? c = some x → ∃ x', h'.call? c = some x' ∧ x'.task = x.task) : h'.Recalled σ := by
  obtain ⟨c, x, hx, ht⟩ := hu
  obtain ⟨x', hx', ht'⟩ := hcalls c x hx
  exact ⟨c, x', hx', ht'.trans ht⟩

theorem Stands.congr {last : EditorId → Option CallId} (hs : h.Stands last c x)
    (hattach : ∀ e, h'.attachment? e = h.attachment? e) (htoken : h.nextToken ≤ h'.nextToken)
    (hacq : ∀ id, h'.Acquired c id ↔ h.Acquired c id) : h'.Stands last c x := by
  refine ⟨fun o ho => ?_, fun e token σ hp => ?_, fun ht hp id ha => hs.silent ht hp id ((hacq id).1 ha),
    fun e id hl ha => ?_⟩
  · rw [hattach]
    exact ⟨Nat.lt_of_lt_of_le (hs.opening o ho).1 htoken, (hs.opening o ho).2⟩
  · rw [hattach]
    exact ⟨Nat.lt_of_lt_of_le (hs.discarding e token σ hp).1 htoken, (hs.discarding e token σ hp).2⟩
  · rw [hattach]
    exact hs.wanted e id hl ((hacq id).1 ha)

/-- Where the entry of one editor and its last event change, what a call is owed there has to be said anew. -/
theorem Stands.reattach {last last' : EditorId → Option CallId} (hs : h.Stands last c x)
    (hattach : ∀ e', h'.attachment? e' = if e' = e then a else h.attachment? e')
    (hlast : ∀ e', e' ≠ e → last' e' = last e') (htoken : h.nextToken ≤ h'.nextToken)
    (hacq : ∀ id, h'.Acquired c id ↔ h.Acquired c id)
    (hopening : ∀ o, x.progress.opening? = some o → o.editor = e →
      (a = some (.pending o.token false) ↔ last' e = some c))
    (hdiscarding : ∀ token σ, x.progress = .discarding e token σ → ∀ b, a ≠ some (.pending token b))
    (hwanted : ∀ id, last' e = some c → h.Acquired c id → ∃ σ, a = some (.attached σ)) : h'.Stands last' c x := by
  refine ⟨fun o ho => ⟨Nat.lt_of_lt_of_le (hs.opening o ho).1 htoken, ?_⟩,
    fun e' token σ hp => ⟨Nat.lt_of_lt_of_le (hs.discarding e' token σ hp).1 htoken, ?_⟩,
    fun ht hp id ha => hs.silent ht hp id ((hacq id).1 ha), fun e' id hl ha => ?_⟩
  · rw [hattach]
    split
    · rename_i he
      rw [he]
      exact hopening o ho he
    · rename_i he
      rw [hlast _ he]
      exact (hs.opening o ho).2
  · rw [hattach]
    split
    · rename_i he
      exact hdiscarding token σ (he ▸ hp)
    · exact (hs.discarding e' token σ hp).2
  · rw [hattach]
    split
    · rename_i he
      exact hwanted id (he ▸ hl) ((hacq id).1 ha)
    · rename_i he
      exact hs.wanted e' id (by rwa [← hlast e' he]) ((hacq id).1 ha)

/-- Where nobody touches the entries, and no session of theirs is closed, everything stays as it should be. -/
theorem Follows.frame (hf : h.Follows air loose g) (hattachments : h'.attachments = h.attachments)
    (htoken : h.nextToken ≤ h'.nextToken)
    (hcalls : ∀ c x, h.call? c = some x → ∃ x', h'.call? c = some x' ∧ x'.task = x.task)
    (hsame : ∀ c x', some c ≠ air → h'.call? c = some x' → h.call? c = some x' ∨
      x'.progress = .fresh ∧ h.call? c = none ∧ ∀ id, ¬h.Acquired c id)
    (hsessions : ∀ σ, (h.session? σ).isSome → h'.connectionOf? σ = h.connectionOf? σ)
    (hclosed : ∀ σ, h.Closed σ → h'.Closed σ)
    (hreleased : ∀ e σ, h.attachment? e = some (.attached σ) → h'.Closed σ → h.Closed σ ∨ h'.Recalled σ)
    (hacq : ∀ c, some c ≠ air ∨ (∃ σ, g.maker σ = some c) → ∀ id, h'.Acquired c id ↔ h.Acquired c id) :
    h'.Follows air loose g := by
  have hattach (e : EditorId) : h'.attachment? e = h.attachment? e := by rw [attachment?, hattachments, attachment?]
  refine ⟨by rw [hattachments]; exact hf.editors, fun c x' hc hx' => ?_, fun e c hl => (hf.last e c hl).later hcalls,
    fun e σ ha => hf.attached e σ (by rwa [← hattach]), fun e σ ha hcl => ?_, fun σ c hm => ?_⟩
  · rcases hsame c x' hc hx' with hx | ⟨hp, hnone, hno⟩
    · exact (hf.stands c x' hc hx).congr hattach htoken (hacq c (.inl hc))
    · have hno' (id : ConnectionId) : ¬h'.Acquired c id := fun ha => hno id ((hacq c (.inl hc) id).1 ha)
      exact ⟨by simp [hp, Progress.opening?], by simp [hp], fun _ _ => hno', fun _ id _ ha => absurd ha (hno' id)⟩
  · rw [hattach] at ha
    rcases hreleased e σ ha hcl with hcl | hu
    · exact (hf.released e σ ha hcl).later hcalls
    · exact hu
  · obtain ⟨⟨e, ho, hplace⟩, hsome, hid⟩ := hf.made σ c hm
    have hconnection := hsessions σ hsome
    refine ⟨⟨e, ho.later hcalls, fun hl => ?_⟩, ?_, fun id => ?_⟩
    · rw [hattach]
      exact (hplace hl).imp_right (hclosed σ)
    · have hsome' := congrArg Option.isSome hconnection
      simp only [connectionOf?, Option.isSome_map] at hsome'
      rw [hsome', hsome]
    · rw [hconnection, hid id, hacq c (.inr ⟨σ, hm⟩)]

theorem Follows.passes (hf : h.Follows air loose g) (hp : h.Passes busy h')
    (hbusy : ∀ c, busy = some c → air = some c ∧ ∀ σ, g.maker σ ≠ some c)
    (hreleased : ∀ e σ, h.attachment? e = some (.attached σ) → h'.Closed σ → h.Closed σ ∨ h'.Recalled σ) :
    h'.Follows air loose g := by
  refine hf.frame hp.attachments (Nat.le_of_eq hp.nextToken.symm) (fun c x hx => ⟨x, by rwa [hp.call?], rfl⟩)
    (fun c x' _ hx' => .inl (by rwa [← hp.call?])) (fun σ _ => hp.connections σ) hp.closed hreleased fun c hc id => ?_
  refine hp.acquired c id fun hb => ?_
  obtain ⟨rfl, hno⟩ := hbusy c hb
  rcases hc with hc | ⟨σ, hσ⟩
  · exact hc rfl
  · exact hno σ hσ

theorem Follows.takeOff (hf : h.Follows none loose g) (c : CallId) : h.Follows (some c) loose g :=
  { hf with stands := fun d x _ hx => hf.stands d x nofun hx }

theorem Follows.rest (hf : h.Follows (some c) loose g) (hs : ∀ x, h.call? c = some x → h.Stands g.last c x) :
    h.Follows none loose g := by
  refine { hf with stands := fun d x _ hx => ?_ }
  by_cases hd : d = c
  · subst hd
    exact hs x hx
  · exact hf.stands d x (fun he => hd (Option.some.inj he)) hx

theorem Follows.land (hf : h.Follows (some c) loose g) (hx : h.call? c = some x)
    (hs : h.Stands g.last c { x with progress := p }) : (h.setProgress c p).Follows none loose g := by
  have hcall (d : CallId) :
      (h.setProgress c p).call? d = if d = c then some { x with progress := p } else h.call? d := by
    rw [call?_setProgress]
    split
    · rename_i hd
      rw [hd, hx]
      rfl
    · rfl
  have hframe : (h.setProgress c p).Follows (some c) loose g := by
    refine hf.frame rfl (Nat.le_refl _) (fun d y hy => ?_) (fun d y' hd hy' => .inl ?_) (fun _ _ => rfl)
      (fun _ hc => hc) (fun _ _ _ hc => .inl hc) fun _ _ _ => acquired_congr rfl
    · rw [hcall]
      split
      · rename_i hd
        obtain rfl := Option.some.inj (hx.symm.trans (hd ▸ hy))
        exact ⟨_, rfl, rfl⟩
      · exact ⟨y, hy, rfl⟩
    · rwa [hcall, if_neg fun he => hd (congrArg some he)] at hy'
  refine hframe.rest fun x' hx' => ?_
  rw [hcall, if_pos rfl] at hx'
  obtain rfl := Option.some.inj hx'
  exact hs.congr (fun _ => rfl) (Nat.le_refl _) fun _ => acquired_congr rfl

theorem Follows.bind (hf : h.Follows air (some σ) g) (hσ : ∀ c e, g.maker σ = some c → h.Opened c e →
    h.attachment? e = some (.attached σ) ∨ h.Closed σ) : h.Follows air none g := by
  refine { hf with made := fun τ c hm => ?_ }
  obtain ⟨⟨e, ho, hplace⟩, hrest⟩ := hf.made τ c hm
  refine ⟨⟨e, ho, fun _ => ?_⟩, hrest⟩
  by_cases hτ : τ = σ
  · subst hτ
    exact hσ c e hm ho
  · exact hplace fun he => hτ (Option.some.inj he)

theorem Follows.one_editor (hf : h.Follows air loose g) (h₁ : h.attachment? e = some (.attached σ))
    (h₂ : h.attachment? e' = some (.attached σ)) : e = e' := by
  obtain ⟨c, hl, hm⟩ := hf.attached e σ h₁
  obtain ⟨c', hl', hm'⟩ := hf.attached e' σ h₂
  obtain rfl := Option.some.inj (hm.symm.trans hm')
  exact (hf.last e c hl).unique (hf.last e' c hl')

/-- The entry of one editor is changed, by an event of it or by the open that had it. -/
theorem Follows.reattach (hf : h.Follows (some c) loose g)
    (hattach : ∀ e', h'.attachment? e' = if e' = e then a else h.attachment? e')
    (heditors : (h'.attachments.map Prod.fst).Nodup) (hregistry : h'.registry = h.registry)
    (hcalls : h'.calls = h.calls) (hsessions : h'.sessions = h.sessions) (htoken : h.nextToken ≤ h'.nextToken)
    (hlast : ∀ e', e' ≠ e → g'.last e' = g.last e') (hmaker : g'.maker = g.maker)
    (hopening : ∀ d y o, d ≠ c → h.call? d = some y → y.progress.opening? = some o → o.editor = e →
      (a = some (.pending o.token false) ↔ g'.last e = some d))
    (hdiscarding : ∀ d y token σ, d ≠ c → h.call? d = some y → y.progress = .discarding e token σ →
      ∀ b, a ≠ some (.pending token b))
    (hwanted : ∀ d id, d ≠ c → g'.last e = some d → h.Acquired d id → ∃ σ, a = some (.attached σ))
    (hopened : ∀ d, g'.last e = some d → h.Opened d e)
    (hattached : ∀ σ, a = some (.attached σ) → (∃ d, g'.last e = some d ∧ g.maker σ = some d) ∧ ¬h.Closed σ)
    (hmade : ∀ σ, some σ ≠ loose' → some σ ≠ loose ∧
      (h.attachment? e = some (.attached σ) → a = some (.attached σ) ∨ h.Closed σ)) :
    h'.Follows (some c) loose' g' := by
  have hcall (d : CallId) : h'.call? d = h.call? d := by rw [call?, hcalls, call?]
  have htasks (d : CallId) (y : Call) (hy : h.call? d = some y) : ∃ y', h'.call? d = some y' ∧ y'.task = y.task :=
    ⟨y, by rwa [hcall], rfl⟩
  have hacq (d : CallId) (id : ConnectionId) : h'.Acquired d id ↔ h.Acquired d id := acquired_congr hregistry
  have hconnection := connectionOf?_congr hsessions
  refine ⟨heditors, fun d y hd hy => ?_, fun e' d hl => ?_, fun e' σ ha => ?_, fun e' σ ha hcl => ?_, fun σ d hm => ?_⟩
  · rw [hcall] at hy
    have hne : d ≠ c := fun he => hd (congrArg some he)
    exact (hf.stands d y hd hy).reattach hattach hlast htoken (hacq d) (fun o => hopening d y o hne hy)
      (fun token σ => hdiscarding d y token σ hne hy) fun id => hwanted d id hne
  · by_cases he : e' = e
    · subst he
      exact (hopened d hl).later htasks
    · exact (hf.last e' d (by rwa [← hlast e' he])).later htasks
  · rw [hattach] at ha
    rw [hmaker]
    split at ha
    · rename_i he
      rw [he]
      exact (hattached σ ha).1
    · rename_i he
      rw [hlast e' he]
      exact hf.attached e' σ ha
  · rw [hattach] at ha
    rw [closed_congr hsessions] at hcl
    split at ha
    · exact absurd hcl (hattached σ ha).2
    · exact (hf.released e' σ ha hcl).later htasks
  · rw [hmaker] at hm
    obtain ⟨⟨e', ho, hplace⟩, hsome, hid⟩ := hf.made σ d hm
    refine ⟨⟨e', ho.later htasks, fun hl => ?_⟩, ?_, fun id => ?_⟩
    · obtain ⟨hl', hkept⟩ := hmade σ hl
      rw [hattach, closed_congr hsessions]
      rcases hplace hl' with ha | hcl
      · split
        · rename_i he
          exact hkept (he ▸ ha)
        · exact .inl ha
      · exact .inr hcl
    · rwa [session?, hsessions]
    · rw [hconnection, hid id, hacq]

/-- A session is made, by an open that has acquired its connection or from outside. -/
theorem Follows.addSession (hf : h.Follows air none g) (maker : Option CallId) (id : ConnectionId) (uri : String)
    (hmaker : ∀ c, maker = some c → (∃ e, h.Opened c e) ∧ ∀ id', h.Acquired c id' ↔ id' = id) :
    (h.addSession id uri).1.Follows air (some ⟨h.sessions.length⟩)
      { g with maker := madeBy h.sessions.length (h.sessions.length + 1) maker g.maker } := by
  have hold (σ : SessionId) (hs : (h.session? σ).isSome) :
      σ ≠ ⟨h.sessions.length⟩ ∧ (h.addSession id uri).1.session? σ = h.session? σ := by
    obtain ⟨y, hy⟩ := Option.isSome_iff_exists.1 hs
    have hlt : σ.number < h.sessions.length := (List.getElem?_eq_some_iff.1 hy).1
    refine ⟨?_, List.getElem?_append_left hlt⟩
    rintro rfl
    exact Nat.lt_irrefl _ hlt
  have hnew : (h.addSession id uri).1.session? ⟨h.sessions.length⟩ = some ⟨id, uri, false⟩ := by
    simp [session?, Host.addSession]
  have hclosed := fun σ => closed_addSession (h := h) (σ := σ) id uri
  refine ⟨hf.editors, fun c x hc hx => ?_, hf.last, fun e σ ha => ?_,
    fun e σ ha hcl => hf.released e σ ha ((hclosed σ).1 hcl), fun σ c hm => ?_⟩
  · exact (hf.stands c x hc hx).congr (fun _ => rfl) (Nat.le_refl _) fun _ => acquired_congr rfl
  · obtain ⟨c, hl, hm⟩ := hf.attached e σ ha
    refine ⟨c, hl, ?_⟩
    dsimp only
    rw [madeBy_succ, if_neg (hold σ (hf.made σ c hm).2.1).1]
    exact hm
  · dsimp only at hm
    rw [madeBy_succ] at hm
    split at hm
    · rename_i hσ
      subst hσ
      obtain ⟨⟨e, ho⟩, hacq⟩ := hmaker c hm
      refine ⟨⟨e, ho, fun hl => absurd rfl hl⟩, by rw [hnew]; rfl, fun id' => ?_⟩
      rw [connectionOf?, hnew, Option.map_some, Option.some.injEq]
      exact (eq_comm.trans (hacq id').symm).trans (acquired_congr rfl).symm
    · obtain ⟨⟨e, ho, hplace⟩, hsome, hid⟩ := hf.made σ c hm
      obtain ⟨_, he⟩ := hold σ hsome
      refine ⟨⟨e, ho, fun _ => (hplace (by simp)).imp_right (hclosed σ).2⟩, by rwa [he], fun id' => ?_⟩
      rw [connectionOf?, he]
      exact (hid id').trans (acquired_congr rfl).symm

end Frame

end Host
end LanguageHost
