import LanguageHost.Proofs.Host.Books
import LanguageHost.Proofs.Registry.Moves

/-! How references pass between the registry and the call in the air. -/
namespace LanguageHost

theorem Slot.Proper.grow {s s' : Slot} (hp : s.Proper) (hnumber : s'.number = s.number)
    (hgen : s.generation ≤ s'.generation)
    (hv : ∀ v ∈ s'.visits, v ∈ s.visits) : s'.Proper := by
  intro v hv' expected hr
  obtain ⟨id, he, hslot, hle⟩ := hp v (hv v hv') expected hr
  exact ⟨id, he, hslot.trans hnumber.symm, Nat.le_trans hle hgen⟩

namespace Host

/-- The connection in hand is ready and serves the key of the open. No clear is ahead of it unless the
entry of the open is gone. -/
def Gives (h : Host) (o : Opening) (id : ConnectionId) : Prop :=
  ∃ (s : Slot) (i : Nat), h.registry.slots[id.slot]? = some s ∧ id.generation = i + 1 ∧ (∃ c, s.Ready i c) ∧
    (s.key == o.what.key) = true ∧ (s.Clears → ∀ b, (o.editor, .pending o.token b) ∉ h.attachments)

namespace Books

variable {h : Host} {K : EditorId → Option ServerKey} {c : CallId} {x : Call} {hand : Option ConnectionId}
  {due : List Nat}
  {air : Option CallId} {i : Nat} {s s' : Slot} {r : Request} {v : Visit}

theorem owners_unmade (hb : h.Books K air hand due) {id : ConnectionId} (hid : ¬h.Made id) :
    h.owners air id = 0 := by
  have hattached : h.attachedTo id = 0 := by
    refine List.countP_eq_zero.2 fun entry he hbehind => hid ?_
    exact hb.behind_made he (of_decide_eq_true hbehind)
  have hfresh : h.freshReleases air id = 0 := by
    refine List.countP_eq_zero.2 fun n hn howed => hid ?_
    obtain ⟨y, hy, howed⟩ := Option.bind_eq_some_iff.1 (of_decide_eq_true howed).2
    unfold Call.owed? at howed
    split at howed
    · obtain rfl := Option.some.inj howed
      exact hb.fresh _ _ _ hy rfl
    · cases howed
  rw [owners, hattached, hfresh]

theorem owners_next (hb : h.Books K air hand due) (hs : h.registry.slots[i]? = some s) (hnumber : s.number = i) :
    h.owners air ⟨s.number, s.generation + 1⟩ = 0 := by
  refine hb.owners_unmade ?_
  rintro ⟨t, ht, hle⟩
  rw [hnumber] at ht
  obtain rfl : s = t := Option.some.inj (hs.symm.trans ht)
  exact Nat.not_succ_le_self _ hle

/-- A slot is put back, with what it hands out. References to connections of other slots stay where they are. -/
theorem setSlot (hb : h.Books K air hand due) (hsound : h.registry.Sound) (hs : h.registry.slots[i]? = some s)
    (hch : s.Change c s') {air' : Option CallId} {hand' : Option ConnectionId} {due' : List Nat}
    (hair : ∀ d, some d ≠ air' → some d ≠ air) (hown : h.owners air' = h.owners air)
    (hhand : ∀ id, hand = some id → id.slot = i)
    (hhand' : ∀ id, hand' = some id → ∃ k, id = ⟨s.number, k + 1⟩ ∧ ∃ d, s'.Ready k d)
    (hdue : ∀ j, j ≠ i → (j ∈ due ↔ j ∈ due')) (hdue' : due' ≠ [] → due ≠ [])
    (hkeep : ∀ w ∈ s.visits, some w.call ≠ air' → w ∈ s'.visits)
    (hserving : ∀ k, s.Serving k → 0 < h.attachedTo ⟨i, k + 1⟩ → s'.Serving k)
    (howned : s'.Owned (h.owners air) hand' (i ∈ due')) (hproper : s'.Proper)
    (hpast : ∀ (j : Nat) (t : Slot), (h.setSlot i s').registry.slots[j]? = some t →
      t.visits.Pairwise (h.Shadows air')) :
    (h.setSlot i s').Books K air' hand' due' := by
  have hnumber := hsound.numbers i s hs
  refine hb.evolve (setSlot_same ..) hair ?_ ?_ ?_ hdue'
  · intro j t ht
    by_cases hj : j = i
    · subst hj
      obtain rfl := Option.some.inj (hs.symm.trans ht)
      exact ⟨s', setSlot_slot hs s', hch.key, hch.generation, hkeep, hserving⟩
    · refine ⟨t, ?_, rfl, Nat.le_refl _, fun _ hw _ => hw, fun _ hk _ => hk⟩
      rw [setSlot_registry, Registry.setSlot_get hs, if_neg hj]
      exact ht
  · intro j t ht
    have hshadows := hpast j t ht
    rw [hown]
    rcases setSlot_slots hs ht with ⟨rfl, rfl⟩ | ⟨hj, ht⟩
    · exact ⟨howned, hproper, hshadows⟩
    · have hnumber' := hsound.numbers j t ht
      refine ⟨(hb.owned j t ht).elsewhere (fun id hid => ?_) (fun id hid => ?_) (hdue j hj).1,
        hb.proper j t ht, hshadows⟩
      · rw [hhand id hid, hnumber']
        exact hj.symm
      · obtain ⟨k, rfl, _⟩ := hhand' id hid
        rw [hnumber, hnumber']
        exact hj.symm
  · intro id hid
    obtain ⟨k, rfl, d, hd⟩ := hhand' id hid
    exact ⟨s', by rw [hnumber]; exact setSlot_slot hs s', (List.getElem?_eq_some_iff.1 hd.2.1).1⟩

theorem come_proper (hb : h.Books K air hand due) (hsound : h.registry.Sound) (hs : h.registry.slots[i]? = some s)
    (hreturn : ∀ expected, r = .release expected → ∃ id, expected = some id ∧ id.slot = i ∧
      id.generation ≤ s.generation) :
    (s.come ⟨c, r⟩).Proper := by
  obtain ⟨hvisits, _, _, _, hnumber, hcs, _⟩ := (hsound.lives i s hs).valid.come_eq ⟨c, r⟩
  intro w hw expected hr
  rw [hvisits, List.mem_append, List.mem_singleton] at hw
  rw [hnumber, Slot.generation, hcs]
  rcases hw with hw | rfl
  · exact hb.proper i s hs w hw expected hr
  · obtain ⟨id, he, hslot, hle⟩ := hreturn expected hr
    exact ⟨id, he, hslot.trans (hsound.numbers i s hs).symm, hle⟩

/-- The call in the air comes to a slot. What it has in hand it leaves there, and it may be handed
something else at once. -/
theorem visit (hb : h.Books K (some c) hand due) (hsound : h.registry.Sound) (hs : h.registry.slots[i]? = some s)
    (ha : s.Admits ⟨c, r⟩) (due' : List Nat) (hcome : (s.come ⟨c, r⟩).Owned (h.owners (some c)) none (i ∈ due'))
    (hreturn : ∀ expected, r = .release expected → ∃ id, expected = some id ∧ id.slot = i ∧
      id.generation ≤ s.generation)
    (hclear : r = .clear → h.attachments = [] ∧ ∀ v ∈ s.visits, v.request.Acquires → v.call ≠ c)
    (hhand : ∀ id, hand = some id → id.slot = i) (hdue : ∀ j, j ≠ i → (j ∈ due ↔ j ∈ due'))
    (hdue' : due' ≠ [] → due ≠ []) :
    (h.visit c i r).1.Books K (some c) (Answer.hand (h.visit c i r).2) due' := by
  have hl := hsound.lives i s hs
  have hnumber := hsound.numbers i s hs
  obtain ⟨hvisits, _, _, _, hcomeNumber, hcs, _⟩ := hl.valid.come_eq ⟨c, r⟩
  have hproper : (s.come ⟨c, r⟩).Proper := hb.come_proper hsound hs hreturn
  have hch := hl.arrive ha h.now
  have hleaves := hl.valid.arrive_leaves ha h.now
  have hhands := hl.arrive_hands ha h.now
  have howned := hl.arrive_owned ha h.now hproper (hb.owners_next hs hnumber) hcome
  have hserving (k : Nat) (hk : s.Serving k) (hpos : 0 < h.attachedTo ⟨i, k + 1⟩) :
      (s.arrive h.now ⟨c, r⟩).1.Serving k := by
    have hr : r ≠ .clear := by
      intro hr
      simp [attachedTo, (hclear hr).1] at hpos
    refine hl.arrive_serving ha hproper hcome (Slot.come_serving hl.valid hk hr) ?_
    rw [hnumber]
    exact Nat.lt_of_lt_of_le hpos (Nat.le_add_right _ _)
  rw [visit_eq h hs]
  generalize s.arrive h.now ⟨c, r⟩ = out at hch hleaves hhands howned hserving
  obtain ⟨s', ans⟩ := out
  have hcases : s'.visits = s.visits ++ [⟨c, r⟩] ∨ s'.visits = s.visits := by
    rcases hleaves with ⟨_, hv, _⟩ | ⟨_, _, _, hv, _⟩
    · exact .inl hv
    · exact .inr hv
  refine hb.setSlot hsound hs hch (fun _ hd => hd) rfl hhand hhands hdue hdue' ?_ hserving howned ?_ ?_
  · exact fun w hw hwc => (hch.visits w fun he => hwc (congrArg some he)).2 hw
  · refine hproper.grow (hch.number.trans hcomeNumber.symm) ?_ fun w hw => ?_
    · rw [Slot.generation, hcs]
      exact hch.generation
    · rw [hvisits]
      rcases hcases with hv | hv <;> rw [hv] at hw
      · exact hw
      · exact List.mem_append_left _ hw
  · intro j t ht
    rcases setSlot_slots hs ht with ⟨rfl, rfl⟩ | ⟨_, ht⟩
    · rcases hcases with hv | hv
      · rw [hv, List.pairwise_append]
        refine ⟨hb.shadowed _ s hs, List.pairwise_singleton .., ?_⟩
        intro w hw u hu hacq hclears
        obtain rfl : u = ⟨c, r⟩ := List.mem_singleton.1 hu
        obtain ⟨hnone, hother⟩ := hclear hclears
        exact ⟨fun he => hother w hw hacq (Option.some.inj he), by simp [Stale, hnone]⟩
      · rw [hv]
        exact hb.shadowed _ s hs
    · exact hb.shadowed j t ht

theorem visit_gives (hsound : h.registry.Sound) (hs : h.registry.slots[i]? = some s) (ha : s.Admits ⟨c, r⟩)
    {o : Opening} (hk : (s.key == o.what.key) = true) {id : ConnectionId}
    (hid : (h.visit c i r).2 = some (.acquired id)) :
    (h.visit c i r).1.Gives o id := by
  have hl := hsound.lives i s hs
  have hnumber := hsound.numbers i s hs
  have hch := hl.arrive ha h.now
  have hleaves := hl.valid.arrive_leaves ha h.now
  have hhands := hl.arrive_hands ha h.now
  have hfree : (s.arrive h.now ⟨c, r⟩).2 ≠ none → s.visits = [] := by
    intro hne
    cases hh : s.holder with
    | none => simp [Slot.visits, hh, hl.valid.idle hh]
    | some x => simp [Slot.arrive, hh] at hne
  rw [visit_eq h hs] at hid ⊢
  generalize s.arrive h.now ⟨c, r⟩ = out at hch hleaves hhands hfree hid
  obtain ⟨s', ans⟩ := out
  obtain rfl : ans = some (.acquired id) := hid
  obtain ⟨k, rfl, hready⟩ := hhands id rfl
  refine ⟨s', k, ?_, rfl, hready, by rw [hch.key]; exact hk, ?_⟩
  · rw [setSlot_registry, Registry.setSlot_get hs, if_pos hnumber]
  · rcases hleaves with ⟨hnone, _⟩ | ⟨_, _, _, hv, _⟩
    · cases hnone
    · have hempty : s'.visits = [] := hv.trans (hfree (by simp))
      rintro ⟨w, hw, _⟩
      simp [hempty] at hw

theorem waiting_owed {h : Host} (hw : h.Waits x i r) : x.owed? = none := by
  unfold Call.owed?
  split
  · cases hw <;> simp_all [releasing?]
  · rfl

theorem owners_takeOff (hx : h.call? c = some x) (howed : x.owed? = none) : h.owners (some c) = h.owners none := by
  funext id
  have hfresh := freshReleases_takeOff hx id
  simp only [howed, reduceCtorEq, if_false, Nat.add_zero] at hfresh
  exact congrArg (h.attachedTo id + ·) hfresh.symm

theorem answered_gone (ho : h.Ordered none fun _ _ => False) (hs : h.registry.slots[i]? = some s)
    (hv : s.visits = v :: s.queue) {a : Answer} (hm : s.Moves v (s', some a)) (hx : h.call? v.call = some x)
    {j : Nat} {t : Slot} (ht : (h.setSlot i s').registry.slots[j]? = some t) {w : Visit} (hw : w ∈ t.visits)
    (hacq : w.request.Acquires) : w.call ≠ v.call := by
  intro hc
  have hwaits := ho.waits v.call x (by simp) hx
  rcases setSlot_slots hs ht with ⟨rfl, rfl⟩ | ⟨hj, ht⟩
  · cases hm.leaves with
    | answered hv' =>
      have hd := (ho.sound.lives _ s hs).valid.distinct
      rw [hv, List.map_cons, List.nodup_cons] at hd
      exact hd.1 (List.mem_map.2 ⟨w, hv' ▸ hw, hc⟩)
  · obtain ⟨key, document, seen, hr⟩ := hacq
    exact hj ((hwaits j t ht w hw hc).once (hwaits i s hs v (by simp [hv]) rfl) (by simp [hr]))

theorem step (hb : h.Books K none none []) (ho : h.Ordered none fun _ _ => False)
    (hs : h.registry.slots[i]? = some s) (hv : s.visits = v :: s.queue) {ans : Option Answer}
    (hm : s.Moves v (s', ans)) (hx : h.call? v.call = some x) :
    (h.setSlot i s').Books K (ans.map fun _ => v.call) (Answer.hand ans) [] := by
  have hnumber := ho.sound.numbers i s hs
  have hproper := hb.proper i s hs
  have hw := ho.waits v.call x (by simp) hx i s hs v (by simp [hv]) rfl
  have hsub : s'.visits.Sublist s.visits := by
    rw [hv]
    cases hm.leaves with
    | waits hv' => rw [hv']
    | answered hv' => rw [hv']; exact List.sublist_cons_self ..
  have hown : h.owners (ans.map fun _ => v.call) = h.owners none := by
    cases ans with
    | none => rfl
    | some a => exact owners_takeOff hx (waiting_owed hw)
  refine hb.setSlot ho.sound hs hm.change (fun _ _ => by simp) hown (by simp) hm.hands (fun _ _ => .rfl)
    (fun hd => hd) ?_ ?_
    (hm.owned _ _ hproper (hb.owners_next hs hnumber) (hb.owned i s hs)) ?_ ?_
  · intro w hw hwc
    cases ans with
    | none =>
      cases hm.leaves with
      | waits hv' => rwa [hv', ← hv]
    | some a => exact (hm.change.visits w fun he => hwc (congrArg some he)).2 hw
  · intro k hk hpos
    refine hm.serving _ _ k hproper (hb.owned _ s hs) hk ?_
    rw [hnumber]
    exact Nat.lt_of_lt_of_le hpos (Nat.le_add_right _ _)
  · exact hproper.grow hm.change.number hm.change.generation fun w hw => hsub.subset hw
  · intro j t ht
    have hpast : t.visits.Pairwise (h.Shadows none) := by
      rcases setSlot_slots hs ht with ⟨rfl, rfl⟩ | ⟨_, ht⟩
      · exact (hb.shadowed _ s hs).sublist hsub
      · exact hb.shadowed j t ht
    refine hpast.imp_of_mem fun hw _ hwu hacq hu => ⟨?_, (hwu hacq hu).2⟩
    cases ans with
    | none => simp
    | some a => exact fun he => answered_gone ho hs hv hm hx ht hw hacq (Option.some.inj he)

/-- A call that is handed a connection has no clear behind it, or has lost its entry. -/
theorem step_gives (hb : h.Books K none none []) (hsound : h.registry.Sound) (hs : h.registry.slots[i]? = some s)
    (hv : s.visits = v :: s.queue) {id : ConnectionId} (hm : s.Moves v (s', some (.acquired id)))
    (hx : h.call? v.call = some x) {o : Opening} (hp : x.progress = .opening o) (hw : h.Waits x i v.request) :
    (h.setSlot i s').Gives o id := by
  have hnumber := hsound.numbers i s hs
  obtain ⟨seen, hr, hi⟩ : ∃ seen, v.request = .acquire o.what.key o.what.document seen ∧
      h.registry.slotIndex? o.what.key = some i := by
    generalize v.request = r at hw
    cases hw <;> simp_all [releasing?]
  obtain ⟨t, ht, hk⟩ := Registry.Sound.slotIndex?_slot hi
  obtain rfl := Option.some.inj (hs.symm.trans ht)
  obtain ⟨k, rfl, hready⟩ := hm.hands id rfl
  refine ⟨s', k, ?_, rfl, hready, by rw [hm.change.key]; exact hk, ?_⟩
  · rw [setSlot_registry, Registry.setSlot_get hs, if_pos hnumber]
  · rintro ⟨w, hw', hwr⟩ b
    have hpast := hb.shadowed i s hs
    rw [hv, List.pairwise_cons] at hpast
    cases hm.leaves with
    | answered hv' =>
      rw [setSlot_attachments]
      exact (hpast.1 w (hv' ▸ hw') ⟨_, _, _, hr⟩ hwr).2 x o hx hp b

theorem openSlot (hb : h.Books K air hand due) (hsound : h.registry.Sound) (key : ServerKey) :
    { h with registry := (h.registry.openSlot key).1 }.Books K air hand due := by
  obtain ⟨_, hold, hnew, _⟩ := hsound.openSlot key
  refine hb.evolve ⟨rfl, rfl, rfl, rfl⟩ (fun _ hd => hd) ?_ ?_ ?_ fun hd => hd
  · exact fun j t ht => ⟨t, hold j t ht, rfl, Nat.le_refl _, fun _ hw _ => hw, fun _ hk _ => hk⟩
  · intro j t ht
    rcases hnew j t ht with ht | rfl
    · exact ⟨hb.owned j t ht, hb.proper j t ht, hb.shadowed j t ht⟩
    · exact ⟨Slot.owned_of_none rfl, by simp [Slot.Proper, Slot.visits, Slot.new], by simp [Slot.visits, Slot.new]⟩
  · intro id hid
    obtain ⟨t, ht, hle⟩ := hb.held id hid
    exact ⟨t, hold _ t ht, hle⟩

theorem returning_there (hb : h.Books K none none []) (ho : h.Ordered none fun _ _ => False)
    (hx : h.call? c = some x) {id : ConnectionId}
    (hid : (releasing? x.progress).bind h.connectionOf? = some id) :
    ∃ s : Slot, h.registry.slots[id.slot]? = some s ∧
      ∃ v ∈ s.visits, v.call = c ∧ v.request = .release (some id) := by
  obtain ⟨σ, hσ, hid⟩ := Option.bind_eq_some_iff.1 hid
  obtain ⟨id', s, hid', hs, v, hv, hvc⟩ := hb.returning c x σ (by simp) hx hσ
  obtain rfl := Option.some.inj (hid.symm.trans hid')
  refine ⟨s, hs, v, hv, hvc, ?_⟩
  have hw := ho.waits c x (by simp) hx _ s hs v hv hvc
  generalize v.request = r at hw
  cases hw <;> simp_all [releasing?]

/-- A call that leaves a gate takes along the reference that it was giving back there. -/
theorem abandon_owned (hb : h.Books K none none []) (ho : h.Ordered none fun _ _ => False) (hx : h.call? c = some x)
    (hs : h.registry.slots[i]? = some s)
    (hclear : s.Clears → (s.abandon c).Clears ∨
      ∀ k d, s.Ready k d → d.refs ≤ h.owners none ⟨s.number, k + 1⟩ + s.releases ⟨s.number, k + 1⟩)
    (hreturn : ∀ v ∈ s.visits, v.call = c → ∀ id, v.request = .release (some id) →
      (releasing? x.progress).bind h.connectionOf? = some id) :
    (s.abandon c).Owned (h.owners none) ((releasing? x.progress).bind h.connectionOf?) (i ∈ []) := by
  have hl := ho.sound.lives i s hs
  by_cases hin : ∃ v ∈ s.visits, v.call = c
  · obtain ⟨v, hv, rfl⟩ := hin
    refine hl.abandon_owned (hb.owned i s hs) hv hclear fun id => ⟨fun hid => ?_, fun hid => ?_⟩
    · obtain ⟨t, ht, w, hw, hwc, hwr⟩ := hb.returning_there ho hx hid
      have hwait := ho.waits v.call x (by simp) hx
      have hi : id.slot = i := (hwait _ t ht w hw hwc).once (hwait i s hs v hv rfl) (by simp [hwr])
      rw [hi] at ht
      obtain rfl := Option.some.inj (hs.symm.trans ht)
      obtain rfl := hl.valid.unique hw hv hwc
      simp [hwr, Request.returns]
    · unfold Request.returns at hid
      split at hid
      · rename_i y hr
        obtain rfl := of_decide_eq_true hid
        exact hreturn v hv rfl _ hr
      · cases hid
  · have habsent : ∀ v ∈ s.visits, v.call ≠ c := fun v hv hc => hin ⟨v, hv, hc⟩
    rw [Slot.abandon_of_absent habsent]
    refine (hb.owned i s hs).elsewhere (by simp) (fun id hid he => ?_) fun hd => hd
    obtain ⟨t, ht, v, hv, hvc, _⟩ := hb.returning_there ho hx hid
    rw [he, ho.sound.numbers i s hs] at ht
    obtain rfl := Option.some.inj (hs.symm.trans ht)
    exact habsent v hv hvc

/-- A call that is given up has the reference in hand that it was in the middle of giving back. -/
theorem abandon (hb : h.Books K none none []) (ho : h.Ordered none fun _ _ => False) (hx : h.call? c = some x)
    (howed : x.owed? = none)
    (hclear : ∀ (i : Nat) (s : Slot), h.registry.slots[i]? = some s → s.Clears → (s.abandon c).Clears ∨
      ∀ k d, s.Ready k d → d.refs ≤ h.owners none ⟨s.number, k + 1⟩ + s.releases ⟨s.number, k + 1⟩)
    (hreturn : ∀ (i : Nat) (s : Slot), h.registry.slots[i]? = some s → ∀ v ∈ s.visits, v.call = c →
      ∀ id, v.request = .release (some id) → (releasing? x.progress).bind h.connectionOf? = some id) :
    (h.abandonSlots c).Books K (some c) ((releasing? x.progress).bind h.connectionOf?) [] := by
  obtain ⟨slots, woken, he, hslots⟩ := abandonSlots_eq h c
  rw [he]
  refine hb.evolve ⟨rfl, rfl, rfl, rfl⟩ (fun _ _ => by simp) ?_ ?_ ?_ fun hd => hd
  · intro j t ht
    have hch := (ho.sound.lives j t ht).abandon c
    refine ⟨t.abandon c, by simp [hslots, ht], hch.key, hch.generation, ?_, ?_⟩
    · exact fun w hw hwc => (hch.visits w fun he => hwc (congrArg some he)).2 hw
    · exact fun _ hk _ => (ho.sound.lives j t ht).abandon_serving hk
  · intro j t' ht'
    obtain ⟨t, ht, rfl⟩ : ∃ t, h.registry.slots[j]? = some t ∧ t.abandon c = t' := by simpa [hslots] using ht'
    have hl := ho.sound.lives j t ht
    have hvisits := Slot.abandon_visits hl.valid c
    have hsub : (t.abandon c).visits.Sublist t.visits := by
      rw [hvisits]
      exact List.filter_sublist
    rw [owners_takeOff hx howed]
    refine ⟨hb.abandon_owned ho hx ht (hclear j t ht) (hreturn j t ht),
      (hb.proper j t ht).grow (hl.abandon c).number (hl.abandon c).generation fun w hw => hsub.subset hw, ?_⟩
    refine ((hb.shadowed j t ht).sublist hsub).imp_of_mem fun hw _ hwu hacq hu => ⟨?_, (hwu hacq hu).2⟩
    rw [hvisits] at hw
    simpa using (List.mem_filter.1 hw).2
  · intro id hid
    obtain ⟨s, hs, v, hv, _, hr⟩ := hb.returning_there ho hx hid
    obtain ⟨id', he', _, hle⟩ := hb.proper _ s hs v hv _ hr
    obtain rfl := Option.some.inj he'
    refine ⟨s.abandon c, by simp [hslots, hs], Nat.le_trans hle ?_⟩
    exact ((ho.sound.lives _ s hs).abandon c).generation

end Books

end Host

end LanguageHost
