import LanguageHost.Proofs.Host.Repaying

/-! References when nobody is attached: whoever is handed one gives it back, or leaves that to the background. -/
namespace LanguageHost.Host

/-- Nobody is attached, and what was handed out of the connection has been given back, but for what is on its way
at the gate, or is left to calls that have yet to begin. -/
structure Unwinds (h : Host) (id : ConnectionId) : Prop where
  drained : h.attachments = []
  repaid : h.Repaid none none id

/-- A call that was to give the reference back on behalf of nobody has been given up from outside. -/
def Forsaken (h : Host) (id : ConnectionId) : Prop :=
  ∃ c x, h.call? c = some x ∧ x.task = .releaseConnection id ∧ x.progress = .ended .dropped

/-- Nobody is attached, and what was handed out of the connection comes back, unless the connection is out of all hands
or somebody has forsaken it. -/
structure Recedes (h : Host) (id : ConnectionId) : Prop where
  drained : h.attachments = []
  course : h.Gone id ∨ h.Forsaken id ∨ h.Unwinds id

theorem Unwinds.recedes {h : Host} {id : ConnectionId} (hu : h.Unwinds id) : h.Recedes id :=
  ⟨hu.drained, .inr (.inr hu)⟩

variable {h h' : Host} {id : ConnectionId} {c : CallId} {x : Call} {i : Nat} {r : Request} {Q : Nat → Request → Prop}
  {actor : Option CallId} {task : Option Task}

section Drained
variable (hdrained : h.attachments = [])
include hdrained

theorem drained_attachment? (e : EditorId) : h.attachment? e = none := by
  rw [attachment?, hdrained]
  rfl

theorem withdraw_drained (e : EditorId) (token : Nat) : (h.withdraw e token).attachments = [] := by
  rw [withdraw, drained_attachment? hdrained]
  exact hdrained

theorem completeOpen_drained (c : CallId) (o : Opening) (id : ConnectionId) :
    (h.completeOpen c o id).attachments = [] := by
  have hadd : (h.addSession id o.what.uri).1.attachments = [] := hdrained
  have hrelease := ((h.addSession id o.what.uri).1.beginRelease_passes c ⟨h.sessions.length⟩ none).attachments
  rw [hadd] at hrelease
  have hnone : (h.addSession id o.what.uri).1.attachment? o.editor = none := drained_attachment? hadd _
  unfold completeOpen
  dsimp only
  rw [hnone]
  dsimp only
  split <;> rename_i he <;> rw [show (h.addSession id o.what.uri).2 = ⟨h.sessions.length⟩ from rfl] at he <;>
    rw [he] at hrelease <;> exact hrelease

theorem answerOpen_drained (c : CallId) (o : Opening) (a : Answer) : (h.answerOpen c o a).attachments = [] := by
  cases a with
  | acquired id => exact completeOpen_drained hdrained c o id
  | refused | released | cleared => exact withdraw_drained hdrained o.editor o.token

theorem acquireForOpen_drained (c : CallId) (o : Opening) : (h.acquireForOpen c o).attachments = [] := by
  have hvisit := (h.visitToAcquire_passes c o.what.key o.what.document).attachments
  rw [hdrained] at hvisit
  unfold acquireForOpen
  split
  · exact withdraw_drained hdrained o.editor o.token
  · split <;> rename_i he <;> rw [he] at hvisit
    · exact answerOpen_drained hvisit c o _
    · exact hvisit

theorem begin_drained {t : Task} (ht : t.OfLifecycle) (hno : ∀ editor, t ≠ .openEditor editor) :
    (h.begin c t).attachments = [] := by
  cases t with
  | releaseConnection id =>
    have hvisit := (h.visit_passes c id.slot (r := .release (some id)) Request.release_not_acquires none).attachments
    rw [hdrained] at hvisit
    rw [Host.begin]
    unfold beginPlainRelease
    dsimp only
    split <;> rename_i he <;> rw [he] at hvisit <;> exact hvisit
  | closeEditor e =>
    rw [Host.begin, closeEditor, drained_attachment? hdrained]
    exact hdrained
  | shutdownLifecycle => exact shutdownLifecycle_attachments h c
  | openEditor editor => exact absurd rfl (hno editor)
  | acquire | release | shutdownAll | releaseSession => exact ht.elim

theorem answered_drained (c : CallId) (i : Nat) (a : Answer) : (h.answered c i a).attachments = [] := by
  unfold answered
  split
  · split <;> exact hdrained
  · exact hdrained
  · exact hdrained
  · dsimp only
    split <;> exact hdrained
  · exact acquireForOpen_drained hdrained c _
  · exact answerOpen_drained hdrained c _ a
  · exact hdrained
  · exact hdrained
  · exact hdrained

theorem crash_drained : (h.crash c).attachments = [] := by
  have hinterrupt (p : Progress) : (h.interrupt c p).attachments = [] := (h.interrupt_fields c p).2.trans hdrained
  unfold Host.crash
  split
  · exact hdrained
  · exact hdrained
  · dsimp only
    split
    · exact withdraw_drained (hinterrupt _) _ _
    · exact withdraw_drained (hinterrupt _) _ _
    · exact withdraw_drained (hinterrupt _) _ _
    · exact hinterrupt _
    · exact hinterrupt _

/-- Once nobody is attached, it takes an open to begin for anybody to be. -/
theorem Happens.drained (hh : h.Happens actor task h') (htasks : ∀ c x, h.call? c = some x → x.task.OfLifecycle)
    (hopen : ∀ editor, task ≠ some (.openEditor editor)) : h'.attachments = [] := by
  cases hh with
  | calm | wrapped => exact hdrained
  | made task => rw [spawn_attachments, hdrained]
  | begins hx => exact begin_drained hdrained (htasks _ _ hx) fun editor he => hopen editor (congrArg some he)
  | waits => rw [setSlot_attachments, hdrained]
  | answered => exact answered_drained (by rw [setSlot_attachments, hdrained]) _ _ _
  | dropped => exact (h.interrupt_fields _ _).2.trans hdrained
  | crashed => exact crash_drained hdrained

end Drained

theorem Unwinds.apply (hu : h.Unwinds id) (ho : h.Ordered none Q)
    (htasks : ∀ c x, h.call? c = some x → x.task.OfLifecycle) (e : Event)
    (hopen : ∀ editor, h.begins? e ≠ some (.openEditor editor)) : (h.apply e).Recedes id := by
  have hdrained := (ho.happens e).drained hu.drained htasks hopen
  by_cases hforsaken : ∃ c x, e = .drop c ∧ h.call? c = some x ∧ x.task = .releaseConnection id ∧
      ∀ r, x.progress ≠ .ended r
  · obtain ⟨c, x, rfl, hx, ht, hp⟩ := hforsaken
    refine ⟨hdrained, .inr (.inl ⟨c, { x with progress := .ended .dropped }, ?_, ht, rfl⟩)⟩
    show (h.drop c).call? c = _
    rw [drop_eq hx hp, finish, call?_setProgress, if_pos rfl, interrupt_call? hx]
    rfl
  · have hrequited := hu.repaid.apply ho htasks e fun c x he hx ht => by
      by_contra hp
      exact hforsaken ⟨c, x, he, hx, ht, fun r hr => hp ⟨r, hr⟩⟩
    refine ⟨hdrained, hrequited.imp_right fun hrequited => .inr ⟨hdrained, ?_⟩⟩
    exact hrequited.resolve_right (by simp [attachedTo, hdrained])

end LanguageHost.Host
