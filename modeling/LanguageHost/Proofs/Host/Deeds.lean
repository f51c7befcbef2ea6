import LanguageHost.Proofs.Host.Drops
import LanguageHost.Proofs.Registry.Asked

/-! What an event does at the gates, and which key is asked for in it: one at most, and only by an acquire or
an open. -/
namespace LanguageHost

/-- The keys that a task may ask for. -/
def Task.MayAsk : Task → Option ServerKey → Prop
  | _, none => True
  | .acquire key _, some k => k = key
  | .openEditor e, some k => ∃ what, e.resolve = .eligible what ∧ k = what.key
  | _, some _ => False

theorem Task.mayAsk_none (t : Task) : t.MayAsk none := by
  cases t <;> trivial

namespace Host
variable {h h' : Host} {r : Registry} {c : CallId} {asks : Option ServerKey} {Q : Nat → Request → Prop}
  {actor : Option CallId} {task : Option Task}

section Deeds
variable (hd : r.Deeds c asks h.registry)
include hd

theorem visit_deeds (i : Nat) {q : Request} (hq : ¬q.Acquires) : r.Deeds c asks (h.visit c i q).1.registry := by
  cases hs : h.registry.slots[i]? with
  | none =>
    rw [visit, hs]
    exact hd
  | some s =>
    rw [visit_eq h hs, setSlot_registry]
    exact hd.comes hs hq

theorem beginRelease_deeds (σ : SessionId) : r.Deeds c asks (h.beginRelease c σ).1.registry := by
  unfold beginRelease
  split
  · exact hd
  · split
    · exact hd
    · rename_i y _ _
      have hclosed : r.Deeds c asks (h.closeSession σ).registry := hd
      exact visit_deeds hclosed _ Request.release_not_acquires

theorem discard_deeds (σ : SessionId) (p : Progress) (result : Result) :
    r.Deeds c asks (match h.beginRelease c σ with
      | (h, some none) => h.setProgress c p
      | (h, _) => h.finish c result).registry := by
  have hr := beginRelease_deeds hd σ
  split <;> rename_i he <;> rw [he] at hr <;> exact hr

theorem completeOpen_deeds (o : Opening) (id : ConnectionId) : r.Deeds c asks (h.completeOpen c o id).registry := by
  have hadd : r.Deeds c asks (h.addSession id o.what.uri).1.registry := hd
  have hdetach : r.Deeds c asks ((h.addSession id o.what.uri).1.detach o.editor).registry := hd
  unfold completeOpen
  dsimp only
  split
  · split
    · split
      · exact discard_deeds hdetach _ _ _
      · exact hd
    · exact discard_deeds hadd _ _ _
  · exact discard_deeds hadd _ _ _

theorem answerOpen_deeds (o : Opening) (a : Answer) : r.Deeds c asks (h.answerOpen c o a).registry := by
  unfold answerOpen
  split
  · exact completeOpen_deeds hd o _
  · show r.Deeds c asks (h.withdraw o.editor o.token).registry
    rwa [withdraw_registry]

theorem clearSlots_deeds (l : List Nat) : r.Deeds c asks (h.clearSlots c l).1.registry := by
  induction l generalizing h with
  | nil => exact hd
  | cons i rest ih =>
    have hv := visit_deeds hd i (q := .clear) Request.clear_not_acquires
    rw [clearSlots]
    split <;> rename_i he <;> rw [he] at hv <;> exact ih hv

theorem shutdownAll_deeds (report : Bool) : r.Deeds c asks (h.shutdownAll c report).registry := by
  have hv := clearSlots_deeds hd (List.range h.registry.slots.length)
  unfold shutdownAll
  split <;> rename_i he <;> rw [he] at hv <;> exact hv

theorem beginPlainRelease_deeds (i : Option Nat) (expected : Option ConnectionId) :
    r.Deeds c asks (h.beginPlainRelease c i expected).registry := by
  unfold beginPlainRelease
  split
  · exact hd
  · rename_i i
    have hv := visit_deeds hd i (q := .release expected) Request.release_not_acquires
    split <;> rename_i he <;> rw [he] at hv <;> exact hv

theorem abandonSlots_deeds : r.Deeds c asks (h.abandonSlots c).registry := by
  unfold abandonSlots
  generalize List.range h.registry.slots.length = l
  induction l generalizing h with
  | nil => exact hd
  | cons i l ih =>
    rw [List.foldl_cons]
    split
    · rename_i s hs
      refine ih ?_
      rw [setSlot_registry]
      exact hd.leaves hs
    · exact ih hd

theorem interrupt_deeds (p : Progress) : r.Deeds c asks (h.interrupt c p).registry := by
  unfold interrupt
  dsimp only
  split
  · rw [spawn_registry]
    exact abandonSlots_deeds hd
  · exact abandonSlots_deeds hd

end Deeds

theorem drained_registry (h : Host) : h.drained.registry = h.registry := by
  have hfold (f : Host → EditorId × Attachment → Host) (hf : ∀ h₁ entry, (f h₁ entry).registry = h₁.registry)
      (l : List (EditorId × Attachment)) (h₁ : Host) : (l.foldl f h₁).registry = h₁.registry := by
    induction l generalizing h₁ with
    | nil => rfl
    | cons entry l ih => rw [List.foldl_cons, ih, hf]
  refine hfold _ (fun h₁ entry => ?_) h.attachments { h with attachments := [] }
  obtain ⟨_, _ | _⟩ := entry <;> rfl

theorem visitToAcquire_deeds (hd : r.Deeds c none h.registry) (key : ServerKey) (document : Option Path) :
    r.Deeds c (some key) (h.visitToAcquire c key document).1.registry := by
  obtain ⟨s, hs, _⟩ := Registry.Sound.openSlot_get h.registry key
  unfold visitToAcquire
  dsimp only
  rw [visit_eq { h with registry := (h.registry.openSlot key).1 } hs, setSlot_registry]
  exact hd.acquires key hs

theorem acquireForOpen_deeds (hd : r.Deeds c none h.registry) (o : Opening) :
    ∃ asks, (asks = none ∨ asks = some o.what.key) ∧ r.Deeds c asks (h.acquireForOpen c o).registry := by
  have hv := visitToAcquire_deeds hd o.what.key o.what.document
  unfold acquireForOpen
  split
  · refine ⟨none, .inl rfl, ?_⟩
    show r.Deeds c none (h.withdraw o.editor o.token).registry
    rwa [withdraw_registry]
  · refine ⟨some o.what.key, .inr rfl, ?_⟩
    split <;> rename_i he <;> rw [he] at hv
    · exact answerOpen_deeds hv o _
    · exact hv

theorem beginOpen_deeds (hd : r.Deeds c none h.registry) (o : Opening) :
    ∃ asks, (asks = none ∨ asks = some o.what.key) ∧ r.Deeds c asks (h.beginOpen c o).registry := by
  have hattach : r.Deeds c none (h.attach o.editor (.pending o.token false)).registry := hd
  unfold beginOpen
  dsimp only
  split
  · rename_i σ _
    have hr := beginRelease_deeds hattach σ
    split <;> rename_i he <;> rw [he] at hr
    · exact ⟨none, .inl rfl, hr⟩
    · exact acquireForOpen_deeds hr o
  · exact acquireForOpen_deeds hattach o

theorem openEditor_deeds (hd : r.Deeds c none h.registry) (e : Editor) :
    ∃ asks, (Task.openEditor e).MayAsk asks ∧ r.Deeds c asks (h.openEditor c e).registry := by
  unfold openEditor
  dsimp only
  split
  · rename_i what hw
    obtain ⟨asks, ha, hasks⟩ := beginOpen_deeds (h := { h with nextToken := h.nextToken + 1 }) hd
      ⟨e.id, h.nextToken, what⟩
    refine ⟨asks, ?_, hasks⟩
    rcases ha with rfl | rfl
    · trivial
    · exact ⟨what, hw, rfl⟩
  · exact ⟨none, trivial, hd⟩
  · exact ⟨none, trivial, hd⟩

theorem acquire_deeds (hd : r.Deeds c none h.registry) (key : ServerKey) (document : Option Path) :
    r.Deeds c (if key.isValid then some key else none) (h.acquire c key document).registry := by
  have hv := visitToAcquire_deeds hd key document
  by_cases hk : key.isValid = true
  · rw [if_pos hk, acquire, if_neg (by simp [hk])]
    split <;> rename_i he <;> rw [he] at hv <;> exact hv
  · rw [if_neg hk, acquire, if_pos (by simpa using hk)]
    exact hd

theorem apply_begin {t : Task} (hx : h.call? c = some ⟨t, .fresh⟩) : h.apply (.begin c) = h.begin c t := by
  simp only [apply, hx]

theorem apply_begun (hx : ∀ t, h.call? c ≠ some ⟨t, .fresh⟩) : h.apply (.begin c) = h := by
  rw [apply]
  split
  · exact absurd (by assumption) (hx _)
  · rfl

theorem begin_deeds (h : Host) (c : CallId) (t : Task) :
    ∃ asks, t.MayAsk asks ∧ h.registry.Deeds c asks (h.begin c t).registry := by
  have hd : h.registry.Deeds c none h.registry := .idle
  cases t with
  | acquire key document =>
    refine ⟨_, ?_, acquire_deeds hd key document⟩
    split
    · rfl
    · trivial
  | release key => exact ⟨none, trivial, beginPlainRelease_deeds hd _ _⟩
  | releaseConnection id => exact ⟨none, trivial, beginPlainRelease_deeds hd _ _⟩
  | shutdownAll => exact ⟨none, trivial, shutdownAll_deeds hd true⟩
  | releaseSession σ =>
    refine ⟨none, trivial, ?_⟩
    have hr := beginRelease_deeds hd σ
    show h.registry.Deeds c none (h.releaseSession c σ).registry
    unfold releaseSession
    split <;> rename_i he <;> rw [he] at hr <;> exact hr
  | openEditor e => exact openEditor_deeds hd e
  | closeEditor e =>
    refine ⟨none, trivial, ?_⟩
    show h.registry.Deeds c none (h.closeEditor c e).registry
    unfold closeEditor
    split
    · exact hd
    · exact hd
    · exact discard_deeds (h := h.detach e) hd _ _ _
  | shutdownLifecycle =>
    refine ⟨none, trivial, ?_⟩
    show h.registry.Deeds c none (h.shutdownLifecycle c).registry
    rw [shutdownLifecycle_eq]
    exact shutdownAll_deeds (h := h.drained) (h.drained_registry ▸ hd) false

theorem answered_deeds (hd : r.Deeds c none h.registry) {t : Task} (ht : ∀ p, h.progress? c = some p → t.Reaches p)
    (i : Nat) (a : Answer) : ∃ asks, t.MayAsk asks ∧ r.Deeds c asks (h.answered c i a).registry := by
  unfold answered
  split
  · refine ⟨none, t.mayAsk_none, ?_⟩
    split <;> exact hd
  · exact ⟨none, t.mayAsk_none, hd⟩
  · exact ⟨none, t.mayAsk_none, hd⟩
  · refine ⟨none, t.mayAsk_none, ?_⟩
    dsimp only
    split <;> exact hd
  · rename_i o σ hp
    obtain ⟨e, rfl, _, hwhat⟩ := (ht _ hp).opening rfl
    obtain ⟨asks, ha, hasks⟩ := acquireForOpen_deeds hd o
    refine ⟨asks, ?_, hasks⟩
    rcases ha with rfl | rfl
    · trivial
    · exact ⟨o.what, hwhat, rfl⟩
  · rename_i o hp
    exact ⟨none, t.mayAsk_none, answerOpen_deeds hd o a⟩
  · exact ⟨none, t.mayAsk_none, hd⟩
  · exact ⟨none, t.mayAsk_none, hd⟩
  · exact ⟨none, t.mayAsk_none, hd⟩

/-- Nothing happens at the gates but by the deeds of an actor, which may ask for the key of its task. -/
theorem Happens.deeds (hh : h.Happens actor task h') (hs : h.Staged) :
    h'.registry = h.registry ∨ ∃ c x asks, actor = some c ∧ h.call? c = some x ∧ x.task.MayAsk asks ∧
      h.registry.Deeds c asks h'.registry := by
  have hidle (c : CallId) : h.registry.Deeds c none h.registry := .idle
  cases hh with
  | calm | wrapped => exact .inl rfl
  | made task => exact .inl (spawn_registry h task)
  | @begins c t hx =>
    obtain ⟨asks, ha, hd⟩ := begin_deeds h c t
    exact .inr ⟨c, _, asks, rfl, hx, ha, hd⟩
  | @waits i s v stage s' x hslot _ _ hg hm hx _ =>
    refine .inr ⟨v.call, x, none, rfl, hx, x.task.mayAsk_none, ?_⟩
    rw [setSlot_registry]
    exact (hidle v.call).goes hslot hg hm
  | @answered i s v stage s' a x hslot _ _ hg hm hx _ =>
    have hd : h.registry.Deeds v.call none (h.setSlot i s').registry := by
      rw [setSlot_registry]
      exact (hidle v.call).goes hslot hg hm
    obtain ⟨asks, ha, hasks⟩ := answered_deeds hd (t := x.task) (fun p hp => by
      rw [progress?, call?, setSlot_calls] at hp
      obtain ⟨y, hy, rfl⟩ := Option.map_eq_some_iff.1 hp
      rw [Option.some.inj (hx.symm.trans hy)]
      exact hs v.call y hy) i a
    exact .inr ⟨v.call, x, asks, rfl, hx, ha, hasks⟩
  | @dropped c x hx _ => exact .inr ⟨c, x, none, rfl, hx, x.task.mayAsk_none, interrupt_deeds (hidle c) x.progress⟩
  | @crashed c x hx hp _ =>
    refine .inr ⟨c, x, none, rfl, hx, x.task.mayAsk_none, ?_⟩
    obtain ⟨h₁, result, he, _, hregistry, _⟩ := crash_lands hx hp
    rw [he]
    show h.registry.Deeds c none h₁.registry
    rw [hregistry]
    exact interrupt_deeds (hidle c) x.progress

/-- In an event one key is asked for, or none, and the slots are what they become by that. -/
theorem Happens.asking (hh : h.Happens actor task h') (hs : h.Staged) : h'.registry.marks = h.registry.marks ∨
    ∃ c x key, actor = some c ∧ h.call? c = some x ∧ x.task.MayAsk (some key) ∧
      h'.registry.marks = Registry.ask key h.registry.marks := by
  rcases hh.deeds hs with he | ⟨c, x, asks, hc, hx, ht, hd⟩
  · exact .inl (congrArg Registry.marks he)
  · cases asks with
    | none => exact .inl hd.marks
    | some key => exact .inr ⟨c, x, key, hc, hx, ht, hd.marks⟩

end Host

end LanguageHost
