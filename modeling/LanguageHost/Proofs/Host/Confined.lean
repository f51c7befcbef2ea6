import LanguageHost.Proofs.Host.Leftovers

/-! The slots that an open may touch: that of its key, and while it gives the prior session of its editor back that
of the session's connection. -/
namespace LanguageHost

namespace Registry
variable {K : ServerKey → Prop} {r r' r'' : Registry} {i : Nat} {s s' : Slot}

/-- The registries have the same slots, in the same places, but for those of some keys. -/
def SameBut (K : ServerKey → Prop) (r r' : Registry) : Prop :=
  ∀ (i : Nat) (s : Slot), ¬K s.key → (r'.slots[i]? = some s ↔ r.slots[i]? = some s)

namespace SameBut

theorem refl (K : ServerKey → Prop) (r : Registry) : r.SameBut K r := fun _ _ _ => .rfl

theorem trans (h : r.SameBut K r') (h' : r'.SameBut K r'') : r.SameBut K r'' :=
  fun i s hs => (h' i s hs).trans (h i s hs)

theorem put (hs : r.slots[i]? = some s) (hs' : r'.slots[i]? = some s') (hkey : s'.key = s.key) (hK : K s.key)
    (hothers : ∀ j : Nat, j ≠ i → r'.slots[j]? = r.slots[j]?) : r.SameBut K r' := by
  intro j t ht
  by_cases hj : j = i
  · subst hj
    rw [hs, hs']
    refine iff_of_false ?_ ?_ <;> intro he <;> obtain rfl := Option.some.inj he
    · exact ht (hkey ▸ hK)
    · exact ht hK
  · rw [hothers j hj]

theorem setSlot (hs : r.slots[i]? = some s) (hkey : s'.key = s.key) (hK : K s.key) : r.SameBut K (r.setSlot i s') :=
  put hs (by rw [setSlot_get hs, if_pos rfl]) hkey hK fun j hj => by rw [setSlot_get hs, if_neg hj]

theorem openSlot (r : Registry) {key : ServerKey} (hK : K key) : r.SameBut K (r.openSlot key).1 := by
  unfold Registry.openSlot
  split
  · exact .refl K r
  · intro i s hs
    rw [List.getElem?_append]
    split
    · rfl
    · rename_i hlt
      rw [List.getElem?_eq_none (Nat.not_lt.1 hlt), List.getElem?_singleton]
      refine iff_of_false (fun he => hs ?_) nofun
      split at he
      · rwa [← Option.some.inj he]
      · cases he

end SameBut

/-- Nothing has changed but in the slots of some keys. -/
structure ChangesOnly (K : ServerKey → Prop) (r r' : Registry) : Prop where
  slots : r.SameBut K r'
  launches : ∀ (i : Nat) (s : Slot), ¬K s.key → r.slots[i]? = some s →
    r'.launches.filter (fun id => id.slot = i) = r.launches.filter (fun id => id.slot = i)

theorem SameBut.changesOnly (h : r.SameBut K r') (hr : r.Sound) (hr' : r'.Sound) : r.ChangesOnly K r' :=
  ⟨h, fun i s hs hi => (hr'.launches i s ((h i s hs).2 hi)).trans (hr.launches i s hi).symm⟩

end Registry

namespace Host
variable {h h' : Host} {K : ServerKey → Prop} {c : CallId} {x : Call} {σ : SessionId} {id : ConnectionId} {o : Opening}
  {i : Nat} {s : Slot} {p : Progress} {editor : Editor} {what : Resolved} {actor : Option CallId} {task : Option Task}
  {Q : Nat → Request → Prop} {q : Request}

/-- The connection of the session is in a slot of one of the keys, if in any. -/
def Sited (h : Host) (K : ServerKey → Prop) (σ : SessionId) : Prop :=
  ∀ id (s : Slot), h.connectionOf? σ = some id → h.registry.slots[id.slot]? = some s → K s.key

section Pieces

theorem visit_same (hK : ∀ s : Slot, h.registry.slots[i]? = some s → K s.key) (c : CallId) (q : Request) :
    h.registry.SameBut K (h.visit c i q).1.registry := by
  cases hs : h.registry.slots[i]? with
  | none =>
    rw [visit, hs]
    exact .refl K _
  | some s =>
    rw [visit_eq h hs, setSlot_registry]
    exact .setSlot hs (s.arrive_grows h.now ⟨c, q⟩).key (hK s hs)

theorem beginRelease_same (hσ : h.Sited K σ) (c : CallId) : h.registry.SameBut K (h.beginRelease c σ).1.registry := by
  unfold beginRelease
  split
  · exact .refl K _
  · rename_i y hy
    split
    · exact .refl K _
    · refine visit_same (h := h.closeSession σ) (fun s hs => hσ y.connection s ?_ hs) c _
      rw [connectionOf?, hy, Option.map_some]

theorem discard_same (hσ : h.Sited K σ) (c : CallId) (p : Progress) :
    h.registry.SameBut K (match h.beginRelease c σ with
      | (h, some none) => h.setProgress c p
      | (h, _) => h.finish c .done).registry := by
  have hsame := beginRelease_same hσ c
  split <;> rename_i he <;> rw [he] at hsame <;> exact hsame

variable (hK : ∀ key, (key == o.what.key) = true → K key)
include hK

theorem completeOpen_same (hid : h.Suits o id) (c : CallId) :
    h.registry.SameBut K (h.completeOpen c o id).registry := by
  obtain ⟨-, s, hs, hkey⟩ := hid
  have hsited : (h.addSession id o.what.uri).1.Sited K ⟨h.sessions.length⟩ := by
    intro id' t hσ ht
    rw [connectionOf?, session?, addSession, List.getElem?_concat_length, Option.map_some] at hσ
    obtain rfl := Option.some.inj hσ
    obtain rfl := Option.some.inj (hs.symm.trans ht)
    exact hK s.key hkey
  unfold completeOpen
  dsimp only
  split
  · split
    · split
      · exact discard_same (h := (h.addSession id o.what.uri).1.detach o.editor) hsited c _
      · exact .refl K _
    · exact discard_same hsited c _
  · exact discard_same hsited c _

theorem answerOpen_same {a : Answer} (hid : ∀ id, a = .acquired id → h.Suits o id) (c : CallId) :
    h.registry.SameBut K (h.answerOpen c o a).registry := by
  cases a with
  | acquired id => exact completeOpen_same hK (hid id rfl) c
  | refused | released | cleared =>
    show h.registry.SameBut K (h.withdraw o.editor o.token).registry
    rw [withdraw_registry]
    exact .refl K _

theorem visitToAcquire_same (h : Host) (c : CallId) :
    h.registry.SameBut K (h.visitToAcquire c o.what.key o.what.document).1.registry := by
  obtain ⟨s, hs, hkey⟩ := Registry.Sound.openSlot_get h.registry o.what.key
  refine (Registry.SameBut.openSlot h.registry (hK _ BEq.rfl)).trans ?_
  refine visit_same (h := { h with registry := (h.registry.openSlot o.what.key).1 }) (fun t ht => ?_) c _
  obtain rfl := Option.some.inj (hs.symm.trans ht)
  exact hK s.key hkey

theorem acquireForOpen_same (hn : h.registry.Numbered) (c : CallId) :
    h.registry.SameBut K (h.acquireForOpen c o).registry := by
  unfold acquireForOpen
  split
  · show h.registry.SameBut K (h.withdraw o.editor o.token).registry
    rw [withdraw_registry]
    exact .refl K _
  · rename_i hvalid
    replace hvalid : o.what.key.isValid = true := by simpa using hvalid
    have hsame := visitToAcquire_same hK h c
    have hsuits := visitToAcquire_suits hn hvalid c
    split <;> rename_i he <;> rw [he] at hsame hsuits
    · exact hsame.trans (answerOpen_same hK (fun id ha => hsuits id (congrArg some ha)) c)
    · exact hsame

theorem beginOpen_same (hn : h.registry.Numbered) (c : CallId)
    (hprior : ∀ σ, h.attachment? o.editor = some (.attached σ) → h.Sited K σ) :
    h.registry.SameBut K (h.beginOpen c o).registry := by
  have hattach : h.registry.SameBut K (h.attach o.editor (.pending o.token false)).registry := .refl K _
  unfold beginOpen
  dsimp only
  split
  · rename_i σ hσ
    have hsame := beginRelease_same (h := h.attach o.editor (.pending o.token false)) (hprior σ hσ) c
    have hn₁ := beginRelease_numbered (h := h.attach o.editor (.pending o.token false)) hn c σ
    split <;> rename_i he <;> rw [he] at hsame hn₁
    · exact hattach.trans hsame
    · exact (hattach.trans hsame).trans (acquireForOpen_same hK hn₁ c)
  · exact acquireForOpen_same (h := h.attach o.editor (.pending o.token false)) hK hn c

end Pieces

/-- The session that an open gives back before it acquires: that of its editor when it has yet to begin, and the one
that it waits for. -/
def prior? (h : Host) (c : CallId) (e : EditorId) : Option SessionId :=
  match h.progress? c with
  | some .fresh =>
    match h.attachment? e with
    | some (.attached σ) => some σ
    | _ => none
  | some (.reopening _ σ) => some σ
  | _ => none

/-- The open may touch the slot of the key: it is its own key, or that of the prior session's connection. -/
def Touches (h : Host) (c : CallId) (e : EditorId) (own key : ServerKey) : Prop :=
  (key == own) = true ∨ ∃ σ id, h.prior? c e = some σ ∧ h.connectionOf? σ = some id ∧
    ∃ s : Slot, h.registry.slots[id.slot]? = some s ∧ s.key = key

/-- What an open gives back because it is not wanted is in the slot of its own key, which is valid. -/
def Backed (h : Host) : Prop := ∀ c x editor what e token σ, h.call? c = some x → x.task = .openEditor editor →
  editor.resolve = .eligible what → x.progress = .discarding e token σ →
    e = editor.id ∧ ∃ id, h.connectionOf? σ = some id ∧ h.Suits ⟨e, token, what⟩ id

section Event

theorem Waits.touches (hw : h.Waits x i q) (hx : h.call? c = some x) (hs : h.Staged) (hb : h.Backed)
    (ht : x.task = .openEditor editor) (hr : editor.resolve = .eligible what) (hslot : h.registry.slots[i]? = some s) :
    h.Touches c editor.id what.key s.key := by
  have hreaches := hs c x hx
  rw [ht] at hreaches
  cases hw with
  | opening hp _ hi =>
    rw [hp] at hreaches
    obtain rfl := Resolution.eligible.inj (hr.symm.trans hreaches.2)
    obtain ⟨t, ht', hkey⟩ := Registry.Sound.slotIndex?_slot hi
    obtain rfl := Option.some.inj (hslot.symm.trans ht')
    exact .inl hkey
  | @session σ id hp _ hσ hi =>
    subst hi
    cases hprog : x.progress with
    | reopening o τ =>
      rw [hprog] at hp
      obtain rfl := Option.some.inj hp
      refine .inr ⟨τ, id, ?_, hσ, s, hslot, rfl⟩
      rw [prior?, progress?, hx, Option.map_some, hprog]
    | discarding e token τ =>
      rw [hprog] at hp
      obtain rfl := Option.some.inj hp
      obtain ⟨_, id', hid, _, t, ht', hkey⟩ := hb c x editor what e token τ hx ht hr hprog
      obtain rfl := Option.some.inj (hσ.symm.trans hid)
      obtain rfl := Option.some.inj (hslot.symm.trans ht')
      exact .inl hkey
    | releasingSession | closing => rw [hprog] at hreaches; exact hreaches.elim
    | fresh | acquiring | releasing | clearing | opening | ended => rw [hprog] at hp; cases hp
  | acquiring _ ht' | release _ ht' | returning _ ht' => cases ht.symm.trans ht'
  | clearing _ ht' => rcases ht' with ht' | ht' <;> cases ht.symm.trans ht'

theorem abandoned_same (hslots : ∀ j : Nat, h'.registry.slots[j]? = h.registry.slots[j]?.map (·.abandon c))
    (hK : ∀ (j : Nat) (s : Slot), h.registry.slots[j]? = some s → ∀ v ∈ s.visits, v.call = c → K s.key) :
    h.registry.SameBut K h'.registry := by
  intro j t ht
  rw [hslots]
  cases hs : h.registry.slots[j]? with
  | none => simp
  | some s =>
    by_cases hin : ∃ v ∈ s.visits, v.call = c
    · obtain ⟨v, hv, hc⟩ := hin
      have hkey := hK j s hs v hv hc
      refine iff_of_false ?_ ?_ <;> intro he <;> obtain rfl := Option.some.inj he
      · exact ht ((s.abandon_grows c).key ▸ hkey)
      · exact ht hkey
    · rw [Option.map_some, Slot.abandon_of_absent fun v hv hc => hin ⟨v, hv, hc⟩]

/-- Whatever happens by the doing of an open, only slots that it may touch change. -/
theorem Happens.confined (hh : h.Happens (some c) task h') (ho : h.Ordered none Q) (hs : h.Staged) (hvalid : h.Asking)
    (hb : h.Backed) (hx : h.call? c = some x) (ht : x.task = .openEditor editor)
    (hr : editor.resolve = .eligible what) : h.registry.SameBut (h.Touches c editor.id what.key) h'.registry := by
  have hown (key : ServerKey) (hkey : (key == what.key) = true) : h.Touches c editor.id what.key key := .inl hkey
  have hin (j : Nat) (s : Slot) (hslot : h.registry.slots[j]? = some s) (v : Visit) (hv : v ∈ s.visits)
      (hc : v.call = c) : h.Touches c editor.id what.key s.key :=
    (ho.waits c x (by simp) hx j s hslot v hv hc).touches hx hs hb ht hr hslot
  cases hh with
  | calm => exact .refl _ _
  | @begins _ t hy =>
    obtain rfl := Option.some.inj (hx.symm.trans hy)
    obtain rfl : t = .openEditor editor := ht
    rw [begin, openEditor, hr]
    refine beginOpen_same (h := { h with nextToken := h.nextToken + 1 }) (o := ⟨editor.id, h.nextToken, what⟩) hown
      ho.sound.numbered c fun σ hσ id s hid hslot => .inr ⟨σ, id, ?_, hid, s, hslot, rfl⟩
    rw [prior?, progress?, hx, Option.map_some]
    show (match h.attachment? editor.id with
      | some (.attached σ) => some σ
      | _ => none) = some σ
    rw [show h.attachment? editor.id = some (.attached σ) from hσ]
  | @waits i s v stage s' _ hslot _ hholder hg _ _ _ =>
    rw [setSlot_registry]
    exact .setSlot hslot hg.key (hin i s hslot v (by simp [Slot.visits, hholder]) rfl)
  | @answered i s v stage s' a y hslot hl hholder hg hm hy hw =>
    obtain rfl := Option.some.inj (hx.symm.trans hy)
    obtain ⟨hn, hgiven⟩ := ho.given hslot hl hg hm
    have hput : h.registry.SameBut (h.Touches v.call editor.id what.key) (h.setSlot i s').registry := by
      rw [setSlot_registry]
      exact .setSlot hslot hg.key (hin i s hslot v (by simp [Slot.visits, hholder]) rfl)
    have hprogress : (h.setSlot i s').progress? v.call = some x.progress := by
      rw [progress?, call?, setSlot_calls]
      exact congrArg (Option.map Call.progress) hx
    have hreaches := hs v.call x hx
    rw [ht] at hreaches
    refine hput.trans ?_
    unfold Host.answered
    rw [hprogress]
    cases hp : x.progress with
    | opening o =>
      -- The connection it is answered with is in the slot of its own key, where it goes back if it is not wanted.
      rw [hp] at hreaches
      obtain rfl := Resolution.eligible.inj (hr.symm.trans hreaches.2)
      exact answerOpen_same hown (fun id ha =>
        answered_suits hslot hg (hgiven id (congrArg some ha)) (hvalid v.call x o hx hp) hp hw) v.call
    | reopening o σ =>
      rw [hp] at hreaches
      obtain rfl := Resolution.eligible.inj (hr.symm.trans hreaches.2)
      exact acquireForOpen_same hown hn v.call
    | discarding | fresh | ended => exact .refl _ _
    | acquiring | releasing | releasingSession | clearing | closing =>
      rw [hp] at hreaches
      exact hreaches.elim
  | dropped => exact abandoned_same (interrupt_slots h c _) hin
  | crashed hy hp => exact abandoned_same (crash_slots h c hy hp) hin

theorem Comes.discarding {ans : Option Answer} {e : EditorId} {token : Nat} (hc : h.Comes c o ans h')
    (hp : h'.progress? c = some (.discarding e token σ)) : e = o.editor ∧ token = o.token ∧
      h.Without o.editor o.token h' ∧ ∃ id, h'.connectionOf? σ = some id ∧ h'.Suits o id := by
  cases hc with
  | waits _ hw => rcases hw with ⟨_, hw⟩ | ⟨hw, _⟩ <;> cases hp.symm.trans hw
  | fails _ _ hw | attaches _ _ _ hw => cases hp.symm.trans hw
  | discards hid hσ hentries hw =>
    rcases hw with hw | hw <;> cases hp.symm.trans hw
    exact ⟨rfl, rfl, hentries, _, hσ, hid⟩

/-- Whoever gives back what it does not want did so before, or is an open that has just come by it. -/
theorem Happens.discarding {x' : Call} {e : EditorId} {token : Nat} (hh : h.Happens actor task h') (hs : h.Staged)
    (hm : h.Moves actor task h') (hx' : h'.call? c = some x') (hp : x'.progress = .discarding e token σ) :
    (∃ x, h.call? c = some x ∧ x'.task = x.task ∧ x.progress = .discarding e token σ) ∨
      actor = some c ∧ ∃ (o : Opening) (ans : Option Answer), x'.task.Opens o ∧
        (task = some x'.task ∧ (h.entering o).Comes c o ans h' ∨
          task = none ∧ h.UnderWay c o ∧ h.Comes c o ans h') := by
  have hprogress : h'.progress? c = some (.discarding e token σ) := by rw [progress?, hx', Option.map_some, hp]
  rcases hh.call_back hs hx' with ⟨x, hx, htask, hsame⟩ | ⟨_, hfresh⟩
  · by_cases ha : actor = some c
    · subst ha
      cases hm with
      | still _ _ hcalls =>
        obtain ⟨p, hp', haside⟩ := hcalls c x rfl hx
        obtain rfl := Option.some.inj (hp'.symm.trans hprogress)
        exact .inl ⟨x, hx, htask, haside.discarding e token σ rfl⟩
      | opens hx₀ hr hc =>
        obtain rfl := Option.some.inj (hx₀.symm.trans hx)
        rw [htask]
        exact .inr ⟨rfl, _, _, ⟨rfl, hr⟩, .inl ⟨rfl, hc⟩⟩
      | goes hx₀ ho hc =>
        obtain rfl := Option.some.inj (hx₀.symm.trans hx)
        obtain ⟨editor, ht, hopens⟩ := (hs c _ hx).opening ho
        rw [htask, ht]
        exact .inr ⟨rfl, _, _, hopens, .inr ⟨rfl, (underWay_iff hx).2 ho, hc⟩⟩
      | dropped _ _ _ hp' => cases hp'.symm.trans hprogress
      | closes hx₀ | drains hx₀ =>
        obtain rfl := Option.some.inj (hx₀.symm.trans hx)
        have hreaches := hh.staged hs c x' hx'
        rw [hp] at hreaches
        obtain ⟨editor, ht⟩ := hreaches.discarding_open
        cases htask.symm.trans ht
    · exact .inl ⟨x, hx, htask, hsame ha ▸ hp⟩
  · cases hp.symm.trans hfresh

theorem Happens.backed (hh : h.Happens actor task h') (hs : h.Staged) (hm : h.Moves actor task h') (hb : h.Backed) :
    h'.Backed := by
  intro c x' editor what e token σ hx' ht hr hp
  have hprogress : h'.progress? c = some (.discarding e token σ) := by rw [progress?, hx', Option.map_some, hp]
  have hcomes {h₀ : Host} {o : Opening} {ans : Option Answer} (hopens : x'.task.Opens o) (hc : h₀.Comes c o ans h') :
      e = editor.id ∧ ∃ id, h'.connectionOf? σ = some id ∧ h'.Suits ⟨e, token, what⟩ id := by
    rw [ht] at hopens
    obtain ⟨rfl, rfl, _, id, hσ, hid⟩ := hc.discarding hprogress
    obtain ⟨_, _, _⟩ := o
    obtain ⟨rfl, hr'⟩ := hopens
    obtain rfl := Resolution.eligible.inj (hr'.symm.trans hr)
    exact ⟨rfl, id, hσ, hid⟩
  rcases hh.discarding hs hm hx' hp with ⟨x, hx, htask, hp₀⟩ | ⟨_, _, _, hopens, ⟨_, hc⟩ | ⟨_, _, hc⟩⟩
  · obtain ⟨_, _, _, _, hwork⟩ := hh.works hs
    obtain ⟨he, id, hσ, hid⟩ := hb c x editor what e token σ hx (htask ▸ ht) hr hp₀
    obtain ⟨y, hy, rfl⟩ := Option.map_eq_some_iff.1 hσ
    obtain ⟨y', hy', hconnection, _⟩ := hwork.session hy
    exact ⟨he, _, by rw [connectionOf?, hy', Option.map_some, hconnection], hid.later hwork⟩
  · exact hcomes hopens hc
  · exact hcomes hopens hc

end Event

end Host
end LanguageHost
