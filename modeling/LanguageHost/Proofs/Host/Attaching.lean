import LanguageHost.Proofs.Host.Editors

/-! What opens, closes and the shutdown of the lifecycle do to the editors they are about. -/
namespace LanguageHost.Host
variable {h h' : Host} {g : Doings} {c d : CallId} {x : Call} {e : EditorId} {σ τ : SessionId} {id : ConnectionId}
  {air busy : Option CallId} {loose loose' : Option SessionId} {o : Opening} {p : Progress} {r : Result} {token : Nat}
  {b : Bool}

/-- A call comes to rest with the editors as they should be, and is noted as the maker of what it has made. -/
def Lands (h : Host) (c : CallId) (g : Doings) (h' : Host) : Prop :=
  h'.Follows none none { g with maker := madeBy h.sessions.length h'.sessions.length (some c) g.maker }

theorem lands_same (hlength : h'.sessions.length = h.sessions.length) (hf : h'.Follows none none g) :
    h.Lands c g h' := by
  rw [Lands, hlength, madeBy_same]
  exact hf

theorem lands_added (hlength : h'.sessions.length = h.sessions.length + 1)
    (hf : h'.Follows none none { g with maker := madeBy h.sessions.length (h.sessions.length + 1) (some c) g.maker }) :
    h.Lands c g h' := by
  rwa [Lands, hlength]

theorem Lands.since {h₁ : Host} (hl : h₁.Lands c g h') (hlength : h₁.sessions.length = h.sessions.length) :
    h.Lands c g h' := by
  rwa [Lands, ← hlength]

theorem not_closed_added (h : Host) (id : ConnectionId) (uri : String) :
    ¬(h.addSession id uri).1.Closed ⟨h.sessions.length⟩ := by
  rw [closed_addSession]
  rintro ⟨y, hy, _⟩
  exact absurd (List.getElem?_eq_some_iff.1 hy).1 (Nat.lt_irrefl _)

/-- An open in the air, whose entry is there just if it is the last event of its editor. -/
structure Flies (h : Host) (g : Doings) (c : CallId) (x : Call) (o : Opening) : Prop where
  call : h.call? c = some x
  task : ∃ editor, x.task = .openEditor editor ∧ editor.id = o.editor
  token : o.token < h.nextToken
  entry : h.attachment? o.editor = some (.pending o.token false) ↔ g.last o.editor = some c
  unmade : ∀ σ, g.maker σ ≠ some c

namespace Flies

theorem passes (hfl : h.Flies g c x o) (hp : h.Passes busy h') : h'.Flies g c x o := by
  refine ⟨by rw [hp.call?]; exact hfl.call, hfl.task, ?_, ?_, hfl.unmade⟩
  · rw [hp.nextToken]
    exact hfl.token
  · rw [hp.attachment?]
    exact hfl.entry

theorem opened (hfl : h.Flies g c x o) : h.Opened c o.editor := by
  obtain ⟨editor, ht, he⟩ := hfl.task
  exact ⟨x, editor, hfl.call, ht, he⟩

theorem only (hfl : h.Flies g c x o) (hf : h.Follows air loose g) (hl : g.last e = some c) : e = o.editor :=
  (hf.last e c hl).unique hfl.opened

end Flies

namespace Follows

/-- A call ends. If it is an open that is the last event of its editor, and has acquired something, then that is
attached. -/
theorem finish (hf : h.Follows (some c) none g) (hx : h.call? c = some x)
    (hwanted : ∀ e id, g.last e = some c → h.Acquired c id → ∃ σ, h.attachment? e = some (.attached σ)) (r : Result) :
    (h.finish c r).Follows none none g :=
  hf.land hx ⟨by simp [Progress.opening?], by simp, by simp [Progress.opening?], hwanted⟩

theorem unmade (hf : h.Follows air loose g) (hsilent : ∀ id, ¬h.Acquired c id) (σ : SessionId) :
    g.maker σ ≠ some c := by
  intro hm
  obtain ⟨_, hsome, hid⟩ := hf.made σ c hm
  obtain ⟨y, hy⟩ := Option.isSome_iff_exists.1 hsome
  exact hsilent y.connection ((hid _).1 (by rw [connectionOf?, hy]; rfl))

theorem unattached (hf : h.Follows air loose g) (e : EditorId) :
    h.attachment? e ≠ some (.attached ⟨h.sessions.length⟩) := by
  intro ha
  obtain ⟨d, _, hm⟩ := hf.attached e _ ha
  obtain ⟨y, hy⟩ := Option.isSome_iff_exists.1 (hf.made _ d hm).2.1
  exact absurd (List.getElem?_eq_some_iff.1 hy).1 (Nat.lt_irrefl _)

/-- An entry that is pending goes, be it the open's own or one that has been told of a close. -/
theorem detach (hf : h.Follows (some c) loose g) (he : h.attachment? e = some (.pending token b))
    (hown : b = false → g.last e = some c) : (h.detach e).Follows (some c) loose g := by
  refine hf.reattach (attachment?_detach h e) (detach_nodup hf.editors e) rfl rfl rfl (Nat.le_refl _) (fun _ _ => rfl)
    rfl (fun d y o hne hy ho heq => ⟨nofun, fun hl => ?_⟩) (fun _ _ _ _ _ _ _ _ => nofun) (fun d id hne hl ha => ?_)
    (hf.last e) (fun _ => nofun) fun σ hl => ⟨hl, fun ha => ?_⟩
  · have hpending := ((hf.stands d y (by simpa using hne) hy).opening o ho).2.2 (by rwa [heq])
    rw [heq, he] at hpending
    simp only [Option.some.injEq, Attachment.pending.injEq] at hpending
    exact absurd (Option.some.inj (hl.symm.trans (hown hpending.2))) hne
  · obtain ⟨y, _, hy, _⟩ := hf.last e d hl
    obtain ⟨σ, hσ⟩ := (hf.stands d y (by simpa using hne) hy).wanted e id hl ha
    cases he.symm.trans hσ
  · cases he.symm.trans ha

theorem withdraw (hf : h.Follows (some c) none g)
    (hown : h.attachment? e = some (.pending token false) → g.last e = some c) :
    (h.withdraw e token).Follows (some c) none g := by
  unfold Host.withdraw
  split
  · rename_i t b he
    split
    · rename_i ht
      subst ht
      exact hf.detach he fun hb => hown (hb ▸ he)
    · exact hf
  · exact hf

theorem attached_withdraw (ha : h.attachment? e = some (.attached σ)) (e' : EditorId) (token : Nat) :
    (h.withdraw e' token).attachment? e = some (.attached σ) := by
  unfold Host.withdraw
  split
  · rename_i he
    split
    · rw [attachment?_detach, if_neg, ha]
      rintro rfl
      cases he.symm.trans ha
    · exact ha
  · exact ha

theorem attach (hf : h.Follows (some c) (some σ) g) (he : h.attachment? e = some (.pending token false))
    (hl : g.last e = some c) (hm : g.maker σ = some c) (hopen : ¬h.Closed σ) :
    (h.attach e (.attached σ)).Follows (some c) none g := by
  have hput : (h.attach e (.attached σ)).Follows (some c) (some σ) g := by
    refine hf.reattach (attachment?_attach_of h e _) (Books.attach_nodup hf.editors e _) rfl rfl rfl (Nat.le_refl _)
      (fun _ _ => rfl) rfl (fun d y o hne hy ho heq => ⟨nofun, fun hl' => ?_⟩) (fun _ _ _ _ _ _ _ _ => nofun)
      (fun _ _ _ _ _ => ⟨σ, rfl⟩) (hf.last e) (fun τ hτ => ?_) fun τ hτ => ⟨hτ, fun ha => ?_⟩
    · exact absurd (Option.some.inj (hl'.symm.trans hl)) hne
    · obtain rfl := Attachment.attached.inj (Option.some.inj hτ)
      exact ⟨⟨c, hl, hm⟩, hopen⟩
    · cases he.symm.trans ha
  refine hput.bind fun c' e' hm' ho => .inl ?_
  obtain rfl := Option.some.inj (hm.symm.trans hm')
  rw [ho.unique (hput.last e c hl)]
  exact attachment?_attach h e _

theorem beginRelease (hf : h.Follows (some c) (some σ) g) (hfree : ∀ e, h.attachment? e ≠ some (.attached σ)) :
    (h.beginRelease c σ).1.Follows (some c) none g := by
  have hp := h.beginRelease_passes c σ none
  refine (hf.passes hp nofun fun e τ ha hcl => .inl ?_).bind fun d e hm ho => .inr ?_
  · refine (h.beginRelease_closed c σ).1 hcl |>.resolve_right ?_
    rintro ⟨rfl, _⟩
    exact hfree e ha
  · exact (h.beginRelease_closed c σ).2 (.inr ⟨rfl, (hf.made σ d hm).2.1⟩)

theorem discard (hf : h.Follows (some c) (some σ) g) (hfree : ∀ e, h.attachment? e ≠ some (.attached σ))
    (hx : h.call? c = some x) (hs : h.Stands g.last c { x with progress := p })
    (hdone : h.Stands g.last c { x with progress := .ended .done }) :
    (match h.beginRelease c σ with
      | (h, some none) => h.setProgress c p
      | (h, _) => h.finish c .done).Follows none none g ∧
    (match h.beginRelease c σ with
      | (h, some none) => h.setProgress c p
      | (h, _) => h.finish c .done).sessions.length = h.sessions.length := by
  have hp := h.beginRelease_passes c σ none
  have hfollows := hf.beginRelease hfree
  have hcongr {y : Call} (hs : h.Stands g.last c y) : (h.beginRelease c σ).1.Stands g.last c y :=
    hs.congr hp.attachment? (Nat.le_of_eq hp.nextToken.symm) fun id => hp.acquired c id nofun
  have hx' : (h.beginRelease c σ).1.call? c = some x := by rw [hp.call?, hx]
  have hlength := hp.length
  have hwaits := hfollows.land hx' (hcongr hs)
  have hends := hfollows.land hx' (hcongr hdone)
  generalize h.beginRelease c σ = out at hwaits hends hlength
  obtain ⟨h₁, ans⟩ := out
  cases ans with
  | none => exact ⟨hends, hlength⟩
  | some ans =>
    cases ans with
    | none => exact ⟨hwaits, hlength⟩
    | some a => exact ⟨hends, hlength⟩

/-- The session of an open that is not the last event of its editor goes back. -/
theorem unwanted (hf : h.Follows (some c) (some σ) g) (hx : h.call? c = some x) (hlast : ∀ e, g.last e ≠ some c)
    (hfree : ∀ e, h.attachment? e ≠ some (.attached σ)) (htoken : token < h.nextToken)
    (hgone : ∀ b, h.attachment? e ≠ some (.pending token b)) :
    (match h.beginRelease c σ with
      | (h, some none) => h.setProgress c (.discarding e token σ)
      | (h, _) => h.finish c .done).Follows none none g ∧
    (match h.beginRelease c σ with
      | (h, some none) => h.setProgress c (.discarding e token σ)
      | (h, _) => h.finish c .done).sessions.length = h.sessions.length := by
  have hwanted (e : EditorId) (id : ConnectionId) (hl : g.last e = some c) (_ : h.Acquired c id) :
      ∃ σ, h.attachment? e = some (.attached σ) := absurd hl (hlast e)
  refine hf.discard hfree hx
    ⟨by simp [Progress.opening?], fun e' token' σ' hd => ?_, by simp [Progress.opening?], hwanted⟩
    ⟨by simp [Progress.opening?], by simp, by simp [Progress.opening?], hwanted⟩
  obtain ⟨rfl, rfl, _⟩ := Progress.discarding.inj hd
  exact ⟨htoken, hgone⟩

section Open
variable (hf : h.Follows (some c) none g) (hfl : h.Flies g c x o)
include hf hfl

theorem waits (hsilent : ∀ id, ¬h.Acquired c id) (hp : p.opening? = some o) :
    (h.setProgress c p).Follows none none g := by
  refine hf.land hfl.call ⟨fun o' ho => ?_, fun e token σ hd => ?_, fun _ _ => hsilent, fun e id _ ha => ?_⟩
  · obtain rfl := Option.some.inj (hp.symm.trans ho)
    exact ⟨hfl.token, hfl.entry⟩
  · dsimp only at hd
    rw [hd] at hp
    cases hp
  · exact absurd ha (hsilent id)

theorem withdraws (hsilent : ∀ id, ¬h.Acquired c id) :
    h.Lands c g ((h.withdraw o.editor o.token).finish c .done) := by
  have hfields : (h.withdraw o.editor o.token).calls = h.calls ∧ (h.withdraw o.editor o.token).registry = h.registry :=
    ⟨withdraw_calls .., withdraw_registry ..⟩
  have hx : (h.withdraw o.editor o.token).call? c = some x := by
    rw [call?, hfields.1]
    exact hfl.call
  refine lands_same (congrArg List.length (withdraw_sessions ..))
    ((hf.withdraw hfl.entry.1).finish hx (fun e id _ ha => ?_) .done)
  exact absurd ((acquired_congr hfields.2).1 ha) (hsilent id)

/-- An open that has acquired its connection makes a session, and attaches its editor by it or gives it back. -/
theorem completeOpen (hacq : ∀ id', h.Acquired c id' ↔ id' = id) : h.Lands c g (h.completeOpen c o id) := by
  have hfree := hf.unattached
  have hadd := hf.addSession (some c) id o.what.uri fun d hd => by
    obtain rfl := Option.some.inj hd
    exact ⟨⟨_, hfl.opened⟩, hacq⟩
  have hlength : (h.addSession id o.what.uri).1.sessions.length = h.sessions.length + 1 := by simp [Host.addSession]
  have hnever (hlast : g.last o.editor ≠ some c) (e : EditorId) : g.last e ≠ some c :=
    fun hl => hlast (hfl.only hf hl ▸ hl)
  have hentry : (h.addSession id o.what.uri).1.attachment? o.editor = h.attachment? o.editor := rfl
  unfold Host.completeOpen
  dsimp only
  split
  · rename_i token close he
    rw [hentry] at he
    split
    · rename_i ht
      subst ht
      split
      · rename_i hclose
        subst hclose
        -- Word of a close was left in the entry, so that the last event of the editor is not this open.
        have hlast : g.last o.editor ≠ some c := fun hl => by cases he.symm.trans (hfl.entry.2 hl)
        have hfree' (e : EditorId) :
            ((h.addSession id o.what.uri).1.detach o.editor).attachment? e ≠ some (.attached ⟨h.sessions.length⟩) := by
          rw [attachment?_detach]
          split
          · simp
          · exact hfree e
        have hgone (b : Bool) :
            ((h.addSession id o.what.uri).1.detach o.editor).attachment? o.editor ≠ some (.pending o.token b) := by
          rw [attachment?_detach, if_pos rfl]
          simp
        obtain ⟨hfollows, hsame⟩ :=
          (hadd.detach he (by simp)).unwanted hfl.call (hnever hlast) hfree' hfl.token hgone
        exact lands_added (hsame.trans hlength) hfollows
      · rename_i hclose
        obtain rfl : close = false := by simpa using hclose
        have hl := hfl.entry.1 he
        have hm : madeBy h.sessions.length (h.sessions.length + 1) (some c) g.maker ⟨h.sessions.length⟩ = some c := by
          rw [madeBy_succ, if_pos rfl]
        refine lands_added hlength
          ((hadd.attach he hl hm (not_closed_added h id _)).finish (x := x) hfl.call (fun e id _ _ => ?_) .done)
        obtain rfl := hfl.only hf (e := e) ‹_›
        exact ⟨_, attachment?_attach ..⟩
    · rename_i ht
      -- The entry is that of a later open.
      have hgone (b : Bool) (ha : h.attachment? o.editor = some (.pending o.token b)) : False := by
        cases he.symm.trans ha
        exact ht rfl
      obtain ⟨hfollows, hsame⟩ :=
        hadd.unwanted hfl.call (hnever fun hl => hgone false (hfl.entry.2 hl)) hfree hfl.token hgone
      exact lands_added (hsame.trans hlength) hfollows
  · rename_i hne
    obtain ⟨hfollows, hsame⟩ :=
      hadd.unwanted hfl.call (hnever fun hl => hne _ _ (hfl.entry.2 hl)) hfree hfl.token fun b ha => hne _ _ ha
    exact lands_added (hsame.trans hlength) hfollows

theorem answerOpen {a : Answer} (hacq : ∀ id, h.Acquired c id ↔ a = .acquired id) :
    h.Lands c g (h.answerOpen c o a) := by
  cases a with
  | acquired id => exact hf.completeOpen hfl fun id' => (hacq id').trans (by rw [Answer.acquired.injEq, eq_comm])
  | refused | released | cleared => exact hf.withdraws hfl fun id ha => by cases (hacq id).1 ha

theorem acquireForOpen (hsilent : ∀ id, ¬h.Acquired c id) : h.Lands c g (h.acquireForOpen c o) := by
  have hp := h.visitToAcquire_passes c o.what.key o.what.document
  have hacq (id : ConnectionId) : (h.visitToAcquire c o.what.key o.what.document).1.Acquired c id ↔ h.Acquired c id ∨
      c = c ∧ (h.visitToAcquire c o.what.key o.what.document).2 = some (.acquired id) := visitToAcquire_acquired ..
  have hfollows := hf.passes hp (fun d hd => ⟨hd, Option.some.inj hd ▸ hfl.unmade⟩) fun e σ _ hcl =>
    .inl ((closed_congr (h.visitToAcquire_fields c o.what.key o.what.document).1 σ).1 hcl)
  unfold Host.acquireForOpen
  split
  · exact hf.withdraws hfl hsilent
  · split
    · rename_i h₁ a he
      rw [he] at hp hacq hfollows
      refine (hfollows.answerOpen (hfl.passes hp) fun id => ?_).since hp.length
      simp [hacq, hsilent]
    · rename_i h₁ he
      rw [he] at hp hacq hfollows
      exact lands_same hp.length (hfollows.waits (hfl.passes hp) (by simp [hacq, hsilent]) rfl)

end Open

theorem enter (hf : h.Follows (some c) none g) (loose : Option SessionId) (hopened : h.Opened c o.editor) (htoken : o.token = h.nextToken)
    (hloose : ∀ σ, h.attachment? o.editor = some (.attached σ) → some σ = loose) :
    ({ h with nextToken := h.nextToken + 1 }.attach o.editor (.pending o.token false)).Follows (some c) loose
      { g with last := fun e => if e = o.editor then some c else g.last e } := by
  have hothers (d : CallId) (hne : d ≠ c) : (if o.editor = o.editor then some c else g.last o.editor) ≠ some d := by
    rw [if_pos rfl]
    exact fun he => hne (Option.some.inj he).symm
  refine hf.reattach (attachment?_attach_of _ o.editor _) (Books.attach_nodup hf.editors o.editor _) rfl rfl rfl
    (Nat.le_succ _) (fun e' hne => if_neg hne) rfl (fun d y o' hne hy ho' he => ?_)
    (fun d y token σ hne hy hd b hb => ?_) (fun d id hne hl => absurd hl (hothers d hne)) (fun d hl => ?_)
    (fun _ => nofun) fun σ hσ => ⟨nofun, fun ha => ?_⟩
  · have hlt := ((hf.stands d y (by simpa using hne) hy).opening o' ho').1
    refine ⟨fun hb => ?_, fun hl => absurd hl (hothers d hne)⟩
    simp only [Option.some.injEq, Attachment.pending.injEq] at hb
    omega
  · have hlt := ((hf.stands d y (by simpa using hne) hy).discarding _ _ _ hd).1
    simp only [Option.some.injEq, Attachment.pending.injEq] at hb
    omega
  · obtain rfl : c = d := Classical.byContradiction fun hne => hothers d (fun he => hne he.symm) hl
    exact hopened
  · exact absurd (hloose σ ha) hσ

/-- An editor is opened that is eligible: the entry is the open's, and what was there is given back. -/
theorem beginOpen (hf : h.Follows (some c) none g) (hx : h.call? c = some x)
    (ht : ∃ editor, x.task = .openEditor editor ∧ editor.id = o.editor) (hsilent : ∀ id, ¬h.Acquired c id)
    (htoken : o.token = h.nextToken) :
    h.Lands c { g with last := fun e => if e = o.editor then some c else g.last e }
      ({ h with nextToken := h.nextToken + 1 }.beginOpen c o) := by
  have hopened : h.Opened c o.editor := by
    obtain ⟨editor, ht, he⟩ := ht
    exact ⟨x, editor, hx, ht, he⟩
  have hattach :=
    attachment?_attach_of { h with nextToken := h.nextToken + 1 } o.editor (.pending o.token false)
  have hfl : ({ h with nextToken := h.nextToken + 1 }.attach o.editor (.pending o.token false)).Flies
      { g with last := fun e => if e = o.editor then some c else g.last e } c x o := by
    refine ⟨hx, ht, ?_, ?_, hf.unmade hsilent⟩
    · rw [htoken]
      exact Nat.lt_succ_self _
    · rw [hattach, if_pos rfl]
      simp
  have hsilent' (id : ConnectionId) :
      ¬({ h with nextToken := h.nextToken + 1 }.attach o.editor (.pending o.token false)).Acquired c id :=
    fun ha => hsilent id ((acquired_congr rfl).1 ha)
  unfold Host.beginOpen
  dsimp only
  split
  · rename_i σ hprior
    replace hprior : h.attachment? o.editor = some (.attached σ) := hprior
    have hput := hf.enter (some σ) hopened htoken fun τ hτ => by
      obtain rfl := Attachment.attached.inj (Option.some.inj (hprior.symm.trans hτ))
      rfl
    have hp := ({ h with nextToken := h.nextToken + 1 }.attach o.editor (.pending o.token false)).beginRelease_passes
      c σ none
    have hgone := hput.beginRelease fun e ha => by
      rw [hattach] at ha
      split at ha
      · cases ha
      · rename_i hne
        exact hne (hf.one_editor ha hprior)
    have hfl' := hfl.passes hp
    have hsilent'' (id : ConnectionId) := mt (hp.acquired c id nofun).1 (hsilent' id)
    have hlength := hp.length
    split
    · rename_i he
      rw [he] at hgone hfl' hsilent'' hlength
      exact lands_same hlength (hgone.waits hfl' hsilent'' rfl)
    · rename_i he
      rw [he] at hgone hfl' hsilent'' hlength
      exact (hgone.acquireForOpen hfl' hsilent'').since hlength
  · rename_i hne
    have hput := hf.enter none hopened htoken fun σ hσ => absurd hσ (hne σ)
    exact (hput.acquireForOpen hfl hsilent').since rfl

theorem openEditor {editor : Editor} (hf : h.Follows (some c) none g) (hx : h.call? c = some x)
    (ht : x.task = .openEditor editor) (hsilent : ∀ id, ¬h.Acquired c id) :
    h.Lands c { g with last := lastOpen (some c) (some (.openEditor editor)) g.last } (h.openEditor c editor) := by
  have hquiet : h.Lands c g ({ h with nextToken := h.nextToken + 1 }.finish c .done) := by
    have hcount : ({ h with nextToken := h.nextToken + 1 } : Host).Follows (some c) none g :=
      hf.frame rfl (Nat.le_succ _) (fun _ y hy => ⟨y, hy, rfl⟩) (fun _ _ _ hy => .inl hy) (fun _ _ => rfl)
        (fun _ hc => hc) (fun _ _ _ hc => .inl hc) fun _ _ _ => acquired_congr rfl
    refine lands_same rfl (hcount.finish (x := x) hx (fun e id _ ha => ?_) .done)
    exact absurd ((acquired_congr rfl).1 ha) (hsilent id)
  unfold Host.openEditor
  dsimp only
  cases hr : editor.resolve with
  | eligible what =>
    have hlast : lastOpen (some c) (some (.openEditor editor)) g.last =
        fun e => if e = editor.id then some c else g.last e := by
      funext e
      simp only [lastOpen, hr]
    rw [hlast]
    exact hf.beginOpen (o := ⟨editor.id, h.nextToken, what⟩) hx ⟨editor, ht, rfl⟩ hsilent rfl
  | ineligible | crashed =>
    have hlast : lastOpen (some c) (some (.openEditor editor)) g.last = g.last := by
      funext e
      simp only [lastOpen, hr]
    rw [hlast]
    exact hquiet

/-- However the entry is changed that the open of the editor had, no open is the last event now. -/
theorem closes {a : Option Attachment} (hf : h.Follows (some c) none g) (loose : Option SessionId)
    (hattach : ∀ e', h'.attachment? e' = if e' = e then a else h.attachment? e')
    (hfields : h'.registry = h.registry ∧ h'.calls = h.calls ∧ h'.sessions = h.sessions ∧ h'.nextToken = h.nextToken)
    (hn : (h'.attachments.map Prod.fst).Nodup)
    (ha : a = none ∨ ∃ token b, h.attachment? e = some (.pending token b) ∧ a = some (.pending token true))
    (hloose : ∀ σ, h.attachment? e = some (.attached σ) → some σ = loose) :
    h'.Follows (some c) loose { g with last := lastOpen (some c) (some (.closeEditor e)) g.last } := by
  obtain ⟨hregistry, hcalls, hsessions, htoken⟩ := hfields
  have hnone : lastOpen (some c) (some (.closeEditor e)) g.last e = none := if_pos rfl
  refine hf.reattach hattach hn hregistry hcalls hsessions (Nat.le_of_eq htoken.symm) (fun e' hne => if_neg hne) rfl
    (fun d y o hne hy ho he => ⟨fun hb => ?_, fun hl => ?_⟩) (fun d y token σ hne hy hd b hb => ?_)
    (fun d id hne hl => ?_) (fun d hl => ?_) (fun σ hσ => ?_) fun σ hσ => ⟨nofun, fun ha' => absurd (hloose σ ha') hσ⟩
  · rcases ha with rfl | ⟨token, b, _, rfl⟩ <;> cases hb
  · cases hnone.symm.trans hl
  · rcases ha with rfl | ⟨token', b', he, rfl⟩
    · cases hb
    · cases hb
      exact ((hf.stands d y (by simpa using hne) hy).discarding _ _ _ hd).2 b' he
  · cases hnone.symm.trans hl
  · cases hnone.symm.trans hl
  · rcases ha with rfl | ⟨token, b, _, rfl⟩ <;> cases hσ

theorem closeEditor (hf : h.Follows (some c) none g) (hx : h.call? c = some x) (ht : x.task = .closeEditor e) :
    (h.closeEditor c e).Follows none none { g with last := lastOpen (some c) (some (.closeEditor e)) g.last } ∧
      (h.closeEditor c e).sessions.length = h.sessions.length := by
  have hopened (e' : EditorId) : ¬h.Opened c e' := by
    rintro ⟨y, editor, hy, ht', _⟩
    obtain rfl := Option.some.inj (hx.symm.trans hy)
    cases ht.symm.trans ht'
  have hwanted (e' : EditorId) (hl : lastOpen (some c) (some (.closeEditor e)) g.last e' = some c) : False := by
    rw [lastOpen] at hl
    split at hl
    · cases hl
    · exact hopened e' (hf.last e' c hl)
  unfold Host.closeEditor
  split
  · rename_i he
    have hsame (e' : EditorId) : h.attachment? e' = if e' = e then none else h.attachment? e' := by
      split
      · rename_i heq
        rw [heq, he]
      · rfl
    have hclosed := hf.closes none hsame ⟨rfl, rfl, rfl, rfl⟩ hf.editors (.inl rfl) fun σ hσ => by
      cases he.symm.trans hσ
    exact ⟨hclosed.finish hx (fun e' _ hl => absurd hl (hwanted e')) .done, rfl⟩
  · rename_i token b he
    have hclosed := hf.closes none (attachment?_attach_of h e _) ⟨rfl, rfl, rfl, rfl⟩
      (Books.attach_nodup hf.editors e _) (.inr ⟨token, b, he, rfl⟩) fun σ hσ => by cases he.symm.trans hσ
    exact ⟨hclosed.finish (x := x) hx (fun e' _ hl => absurd hl (hwanted e')) .done, rfl⟩
  · rename_i σ he
    have hstands (p : Progress) (hp : p.opening? = none) (hd : ∀ e token σ, p ≠ .discarding e token σ)
        (hne : p ≠ .fresh) :
        (h.detach e).Stands (lastOpen (some c) (some (.closeEditor e)) g.last) c { x with progress := p } :=
      ⟨by simp [hp], fun e' token σ hpd => absurd hpd (hd e' token σ), by simp [hp, hne],
        fun e' _ hl => absurd hl (hwanted e')⟩
    have hclosed := hf.closes (some σ) (attachment?_detach h e) ⟨rfl, rfl, rfl, rfl⟩
      (detach_nodup hf.editors e) (.inl rfl) fun τ hτ => by
        obtain rfl := Attachment.attached.inj (Option.some.inj (he.symm.trans hτ))
        rfl
    refine hclosed.discard (fun e' ha => ?_) hx (hstands _ rfl nofun nofun) (hstands _ rfl nofun nofun)
    rw [attachment?_detach] at ha
    split at ha
    · cases ha
    · rename_i hne
      exact hne (hf.one_editor ha he)

theorem drains (hf : h.Follows (some c) none g) :
    h.drained.Follows (some c) none { g with last := lastOpen (some c) (some .shutdownLifecycle) g.last } := by
  obtain ⟨hp, hdrained⟩ := h.drained_passes none
  have hattach (e : EditorId) : h.drained.attachment? e = none := by
    rw [hp.attachment?]
    rfl
  have hcall (d : CallId) : h.drained.call? d = h.call? d := hp.call? d
  have hacq (d : CallId) (id : ConnectionId) : h.drained.Acquired d id ↔ h.Acquired d id :=
    (hp.acquired d id nofun).trans (acquired_congr rfl)
  refine ⟨by rw [hp.attachments]; exact List.nodup_nil, fun d y hd hy => ?_, nofun, fun e σ ha => ?_,
    fun e σ ha => ?_, fun σ d hm => ?_⟩
  · rw [hcall] at hy
    have hs := hf.stands d y hd hy
    refine ⟨fun o ho => ⟨hp.nextToken ▸ (hs.opening o ho).1, ?_⟩,
      fun e token σ hpd => ⟨hp.nextToken ▸ (hs.discarding e token σ hpd).1, ?_⟩,
      fun ht hp id ha => hs.silent ht hp id ((hacq d id).1 ha), nofun⟩
    · rw [hattach]
      exact ⟨nofun, nofun⟩
    · rw [hattach]
      exact nofun
  · cases (hattach e).symm.trans ha
  · cases (hattach e).symm.trans ha
  · obtain ⟨⟨e, ho, hplace⟩, hsome, hid⟩ := hf.made σ d hm
    refine ⟨⟨e, ho.later fun d y hy => ⟨y, by rwa [hcall], rfl⟩, fun _ => .inr ?_⟩, ?_, fun id => ?_⟩
    · rcases hplace nofun with ha | hcl
      · exact hdrained e σ ha hsome
      · exact hp.closed σ hcl
    · exact (hp.session? σ).trans hsome
    · rw [hp.connections, hacq]
      exact hid id

theorem shutdownLifecycle (hf : h.Follows (some c) none g) (hx : h.call? c = some x) :
    (h.shutdownLifecycle c).Follows none none { g with last := lastOpen (some c) (some .shutdownLifecycle) g.last } ∧
      (h.shutdownLifecycle c).sessions.length = h.sessions.length := by
  obtain ⟨hp, _⟩ := h.drained_passes none
  have hcleared := h.drained.clearSlots_passes c (List.range h.drained.registry.slots.length) none
  have hsame := h.drained.clearSlots_sessions c (List.range h.drained.registry.slots.length)
  have hfollows := hf.drains.passes hcleared nofun fun e σ _ hcl => .inl ((closed_congr hsame σ).1 hcl)
  have hstands {h₁ : Host} (p : Progress) (hopening : p.opening? = none) (hd : ∀ e token σ, p ≠ .discarding e token σ)
      (hne : p ≠ .fresh) :
      h₁.Stands (lastOpen (some c) (some .shutdownLifecycle) g.last) c { x with progress := p } :=
    ⟨by simp [hopening], fun e token σ hpd => absurd hpd (hd e token σ), by simp [hopening, hne], nofun⟩
  have hlength := hcleared.length.trans hp.length
  have hx' := (hcleared.call? c).trans ((hp.call? c).trans hx)
  rw [shutdownLifecycle_eq]
  unfold shutdownAll
  split
  · rename_i he
    rw [he] at hfollows hlength hx'
    unfold finishClear
    exact ⟨hfollows.land hx' (hstands _ rfl nofun nofun), hlength⟩
  · rename_i he
    rw [he] at hfollows hlength hx'
    exact ⟨hfollows.land hx' (hstands _ rfl nofun nofun), hlength⟩

end Follows
end LanguageHost.Host
