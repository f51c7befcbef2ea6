import LanguageHost.Proofs.Registry.Connections

/-! What a call can do with a slot once it has the gate, in one place. -/
namespace LanguageHost.Slot

/-- The connections of a slot are in order, nobody waits at a free gate, no call is there twice and
nobody asks for another key. -/
structure Valid (s : Slot) : Prop where
  table : Table s.key s.number s.connections s.current (s.work?.map Prod.snd)
  idle : s.holder = none → s.queue = []
  distinct : (s.visits.map Visit.call).Nodup
  keys : ∀ v ∈ s.visits, ∀ key document seen, v.request = .acquire key document seen → (s.key == key) = true

/-- The slot has a ready connection, the one at position `i`. -/
def Ready (s : Slot) (i : Nat) (c : Connection) : Prop :=
  s.current = some (i + 1) ∧ s.connections[i]? = some c ∧ c.status = .ready

/-- The slot has no current connection, or one that failed. -/
def Vacant (s : Slot) : Prop :=
  ∀ g c, s.current = some g → s.connections[g - 1]? = some c → c.status = .failed

/-- Everything a call can do from obtaining the gate of `s` until it leaves or waits inside. -/
inductive Serves (s : Slot) (now : Nat) (v : Visit) : Slot × Option Answer → Prop
  | share {key document seen i c} (hr : v.request = .acquire key document seen) (hc : s.Ready i c) :
    Serves s now v ({ s with
      connections := s.connections.modify i fun c => { c with refs := c.refs + 1 } }.reply v .atOnce
        (.acquired ⟨s.number, i + 1⟩))
  | refuse {key document seen f} (hr : v.request = .acquire key document seen) (hv : s.Vacant)
      (hf : s.failure = some f) (hlt : seen < f.attempt) :
    Serves s now v (s.reply v .atOnce (.refused (.launchFailed key.text f.reason)))
  | launch {key document seen} (hr : v.request = .acquire key document seen) (hv : s.Vacant)
      (hf : ∀ f, s.failure = some f → f.attempt ≤ seen) :
    Serves s now v (s.launch now v key document, none)
  | ignore {expected} (hr : v.request = .release expected)
      (hno : ∀ i c, s.Ready i c → ∃ x, expected = some x ∧ x ≠ ⟨s.number, i + 1⟩) :
    Serves s now v (s.reply v .atOnce .released)
  | drop {expected i c n} (hr : v.request = .release expected) (hc : s.Ready i c)
      (he : ∀ x, expected = some x → x = ⟨s.number, i + 1⟩) (hn : c.refs = n + 2) :
    Serves s now v ({ s with
      connections := s.connections.modify i fun c => { c with refs := n + 1 } }.reply v .atOnce .released)
  | last {expected i c} (hr : v.request = .release expected) (hc : s.Ready i c)
      (he : ∀ x, expected = some x → x = ⟨s.number, i + 1⟩) (hn : c.refs = 1) :
    Serves s now v ({ s with
      connections := s.connections.modify i Connection.beginClose
      current := none
      holder := some ⟨v, .stopping (i + 1) .released now⟩ }, none)
  | forget (hr : v.request = .clear) (hv : s.Vacant) :
    Serves s now v ({ s with failure := none, current := none }.reply v .atOnce (.cleared none))
  | close {i c} (hr : v.request = .clear) (hc : s.Ready i c) :
    Serves s now v ({ s with
      connections := s.connections.modify i Connection.beginClose
      current := none
      failure := none
      holder := some ⟨v, .stopping (i + 1) (.cleared (some ⟨s.number, i + 1⟩)) now⟩ }, none)

variable {s : Slot} {i : Nat} {c : Connection}

theorem current?_eq {g : Nat} (hg : s.current = some (g + 1)) : s.current? = s.connections[g]? := by
  simp [current?, hg, connection?]

theorem Ready.current? (h : s.Ready i c) : s.current? = some c := (current?_eq h.1).trans h.2.1

theorem Ready.isLive (h : s.Ready i c) : c.isLive = true := by
  rw [Connection.isLive, h.2.2]
  rfl

namespace Valid

theorem id_eq (h : s.Valid) (hc : s.connections[i]? = some c) : c.id = ⟨s.number, i + 1⟩ :=
  (h.table.lawful i c hc).2.1

theorem lawful (h : s.Valid) (hc : s.connections[i]? = some c) : c.Lawful := (h.table.lawful i c hc).1

theorem table_outside (h : s.Valid) (hw : s.work? = none) : Table s.key s.number s.connections s.current none := by
  simpa [hw] using h.table

/-- With nobody inside, either the current connection is ready or there is none to share. -/
theorem ready_or_vacant (h : s.Valid) (hw : s.work? = none) :
    (∃ i c, s.Ready i c) ∨ (s.Vacant ∧ s.current?.filter Connection.isLive = none) := by
  have ht := h.table_outside hw
  cases hg : s.current with
  | none => exact .inr ⟨fun g c hg' => by simp [hg] at hg', by simp [Slot.current?, hg]⟩
  | some g =>
    obtain ⟨hpos, c, hc, hs⟩ := (hg ▸ ht).current_status
    obtain ⟨g, rfl⟩ : ∃ g', g = g' + 1 := ⟨g - 1, by omega⟩
    rcases hs with hs | hs
    · exact .inl ⟨g, c, hg, hc, hs⟩
    · refine .inr ⟨?_, ?_⟩
      · intro g' d hg' hd
        obtain rfl : g + 1 = g' := Option.some.inj (hg.symm.trans hg')
        obtain rfl : c = d := Option.some.inj (hc.symm.trans hd)
        exact hs
      · rw [current?_eq hg]
        rw [Nat.add_sub_cancel] at hc
        simp [hc, Connection.isLive, hs, Status.isLive]

theorem ready_process (h : s.Valid) (hc : s.Ready i c) : 0 < c.refs ∧ ∃ p, c.process = some p := by
  have hl := h.lawful hc.2.1
  simp only [Connection.Lawful, hc.2.2, Option.isSome_iff_exists] at hl
  exact ⟨hl.1, hl.2.1⟩

private theorem stop_ready (h : s.Valid) (hc : s.Ready i c) (now : Nat) (v : Visit) (answer : Answer) :
    (s.modify c.id.generation fun c => { c with refs := 0 }).stop now v { c with refs := 0 } answer =
      ({ s with
        connections := s.connections.modify i Connection.beginClose
        current := none
        holder := some ⟨v, .stopping (i + 1) answer now⟩ }, none) := by
  obtain ⟨_, p, hp⟩ := h.ready_process hc
  have hid := h.id_eq hc.2.1
  unfold Slot.stop
  simp only [hp, hid, Slot.modify, Nat.add_sub_cancel]
  rw [List.modify_modify_eq]
  rfl

theorem serves_acquire (h : s.Valid) (hw : s.work? = none) {key document seen} {v : Visit}
    (hr : v.request = .acquire key document seen) (now : Nat) :
    s.Serves now v (s.acquire now v key document seen) := by
  rcases h.ready_or_vacant hw with ⟨i, c, hc⟩ | ⟨hv, hnone⟩
  · have hsome : s.current?.filter Connection.isLive = some c := by simp [hc.current?, hc.isLive]
    simp only [acquire, hsome, h.id_eq hc.2.1, Slot.modify, Nat.add_sub_cancel]
    exact .share hr hc
  · simp only [acquire, hnone]
    cases hf : s.failure with
    | none => exact .launch hr hv (by simp [hf])
    | some f =>
      rw [Option.filter_some]
      by_cases hlt : seen < f.attempt
      · simp only [hlt, decide_true, ite_true]
        exact .refuse hr hv hf hlt
      · simp only [hlt, decide_false, Bool.false_eq_true, ite_false]
        exact .launch hr hv fun f' hf' => by
          obtain rfl : f = f' := Option.some.inj (hf.symm.trans hf')
          omega

theorem serves_release (h : s.Valid) (hw : s.work? = none) {expected} {v : Visit}
    (hr : v.request = .release expected) (now : Nat) : s.Serves now v (s.release now v expected) := by
  unfold release
  rcases h.ready_or_vacant hw with ⟨i, c, hc⟩ | ⟨hv, hnone⟩
  · have hid := h.id_eq hc.2.1
    by_cases he : expected.all (· == c.id)
    · have hsome : (s.current?.filter fun c => expected.all (· == c.id) && c.isLive) = some c := by
        simp only [hc.current?, Option.filter_some, he, hc.isLive, Bool.and_self, ite_true]
      have he' : ∀ x, expected = some x → x = ⟨s.number, i + 1⟩ := by
        rintro x rfl
        simpa [hid] using he
      simp only [hsome]
      split
      · have := (h.ready_process hc).1
        omega
      · rw [h.stop_ready hc]
        exact .last hr hc he' (by assumption)
      · simp only [Slot.modify, hid, Nat.add_sub_cancel]
        exact .drop hr hc he' (by assumption)
    · have hnone : (s.current?.filter fun c => expected.all (· == c.id) && c.isLive) = none := by
        simp only [hc.current?, Option.filter_some, he, Bool.false_and, Bool.false_eq_true, ite_false]
      simp only [hnone]
      refine .ignore hr fun j d hd => ?_
      obtain rfl : i = j := by simpa using hc.1.symm.trans hd.1
      cases expected with
      | none => simp at he
      | some x => exact ⟨x, rfl, by simpa [hid] using he⟩
  · have hnone' : (s.current?.filter fun c => expected.all (· == c.id) && c.isLive) = none := by
      rw [Option.filter_eq_none_iff] at hnone ⊢
      intro c hc
      simp [hnone c hc]
    simp only [hnone']
    refine .ignore hr fun j d hd => ?_
    have := hv (j + 1) d hd.1 hd.2.1
    simp [hd.2.2] at this

theorem serves_clear (h : s.Valid) (hw : s.work? = none) {v : Visit} (hr : v.request = .clear) (now : Nat) :
    s.Serves now v (s.clear now v) := by
  have hcur : ({ s with failure := none } : Slot).current? = s.current? := rfl
  unfold clear
  rcases h.ready_or_vacant hw with ⟨i, c, hc⟩ | ⟨hv, hnone⟩
  · have hid := h.id_eq hc.2.1
    have hc' : ({ s with failure := none } : Slot).Ready i c := hc
    have h' : ({ s with failure := none } : Slot).Valid := ⟨h.table, h.idle, h.distinct, h.keys⟩
    simp only [hcur, hc.current?, hc.isLive, ite_true]
    rw [h'.stop_ready hc', hid]
    exact .close hr hc
  · cases hc : s.current? with
    | none =>
      simp only [hcur, hc]
      exact .forget hr hv
    | some c =>
      have hl : c.isLive = false := by simpa [hc] using hnone
      simp only [hcur, hc, hl, Bool.false_eq_true, ite_false]
      exact .forget hr hv

/-- The one place where the requests are taken apart. -/
theorem serves (h : s.Valid) (hw : s.work? = none) (now : Nat) (v : Visit) :
    s.Serves now v (s.serve now v) := by
  unfold serve
  split
  · exact h.serves_acquire hw (by assumption) now
  · exact h.serves_release hw (by assumption) now
  · exact h.serves_clear hw (by assumption) now

end Valid

theorem serve_setHolder (s : Slot) (holder : Option Holder) (now : Nat) (v : Visit) :
    { s with holder := holder }.serve now v = s.serve now v := by
  -- Every way out of a turn writes the holder anew, depending on the queue alone.
  obtain ⟨_, _, _, _, _, _, _, queue, _⟩ := s
  cases queue <;> rfl

end LanguageHost.Slot
