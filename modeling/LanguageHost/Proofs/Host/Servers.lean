import LanguageHost.Proofs.Host.Runs

/-! Never two servers for one key, at any moment of any run. -/
namespace LanguageHost

theorem Connection.failed_or_closed {c : Connection} (h : ¬c.Running) :
    c.status = .failed ∨ c.status = .closed := by
  cases hs : c.status <;> simp_all [Connection.Running]

namespace Slot
variable {s s' : Slot} {c : Connection} {i : Nat}

theorem Valid.earlier_over (h : s.Valid) (hc : s.connections[i]? = some c) (hi : i + 1 < s.generation) :
    c.status = .failed ∨ c.status = .closed := Connection.failed_or_closed (h.table.earlier i c hc hi)

theorem Valid.stopping_latest (h : s.Valid) {v : Visit} {g since : Nat} {answer : Answer}
    (hh : s.holder = some ⟨v, .stopping g answer since⟩) : g = s.generation := by
  have ht := h.table_stopping hh
  obtain ⟨_, hpos, c, hc, hs⟩ := ht.stopping g answer rfl
  have hlt : g - 1 < s.generation := (List.getElem?_eq_some_iff.1 hc).1
  by_cases hg : g - 1 + 1 < s.generation
  · exact absurd (.inr (.inr hs)) (ht.earlier (g - 1) c hc hg)
  · omega

/-- A launch begins while nobody is inside, when all earlier connections are over. -/
theorem Lives.launch_begins (h : s.Lives) {call : CallId} (hs : s.Step call s')
    (hg : s.generation < s'.generation) :
    s.work? = none ∧ ∀ d ∈ s.connections, d.status = .failed ∨ d.status = .closed := by
  have hsame (he : s'.connections.length = s.connections.length) : False := Nat.ne_of_gt hg he
  cases hs with
  | @come v ha => exact (hsame (by rw [(h.valid.come_eq v).2.2.2.2.2.1])).elim
  | serve hh hr =>
    cases hr with
    | launch _ hv =>
      refine ⟨Valid.work?_granted hh, fun d hd => Connection.failed_or_closed ?_⟩
      obtain ⟨j, hj⟩ := List.mem_iff_getElem?.1 hd
      refine (h.valid.table_outside (Valid.work?_granted hh)).all_over (fun g c hcur hc => ?_) hj
      simp [Connection.isLive, hv g c hcur hc, Status.isLive]
    | share | refuse | ignore | drop | last | forget | close => exact (hsame (by simp)).elim
  | launched | failed | stopped | dropLaunch | dropStop | dropGranted => exact (hsame (by simp [note, modify])).elim
  | dropQueued => exact (hsame rfl).elim

theorem Valid.current_free (h : s.Valid) (hfree : s.holder = none) : s.current? = none ∨
    ∃ c, s.current? = some c ∧ ((c.status = .ready ∧ 1 ≤ c.refs) ∨ (c.status = .failed ∧ c.refs = 0)) := by
  have hw : s.work? = none := by simp [work?, hfree]
  cases hg : s.current with
  | none => exact .inl (by simp [current?, hg])
  | some g =>
    obtain ⟨hpos, c, hc, hs⟩ := (hg ▸ h.table_outside hw).current_status
    obtain ⟨g, rfl⟩ : ∃ g', g = g' + 1 := ⟨g - 1, by omega⟩
    rw [Nat.add_sub_cancel] at hc
    refine .inr ⟨c, (current?_eq hg).trans hc, hs.imp (fun hs => ⟨hs, ?_⟩) fun hs => ⟨hs, ?_⟩⟩
    · exact (h.ready_process ⟨hg, hc, hs⟩).1
    · exact (h.lawful hc).refs_eq_zero (by simp [Connection.isLive, hs, Status.isLive])

theorem Valid.refs_current (h : s.Valid) (hc : s.connections[i]? = some c) (hcur : s.current ≠ some (i + 1)) :
    c.refs = 0 := by
  refine (h.lawful hc).refs_eq_zero ?_
  have hf := h.table.fits i c hc
  cases hs : c.status <;> rw [hs] at hf <;> simp_all [Status.Fits, Connection.isLive, Status.isLive]

end Slot

/-- One server for each key at most. -/
structure Registry.OneServer (r : Registry) : Prop where
  /-- Of all connections ever made for a key one at most is starting, ready or shutting down. -/
  running : ∀ s ∈ r.slots, ∀ t ∈ r.slots, (s.key == t.key) = true → ∀ c ∈ s.connections, ∀ d ∈ t.connections,
    c.Running → d.Running → c = d
  earlier : ∀ s ∈ r.slots, ∀ (i : Nat) (c : Connection), s.connections[i]? = some c → i + 1 < s.generation →
    c.status = .failed ∨ c.status = .closed
  /-- A shutdown in progress is that of the latest connection. -/
  stopping : ∀ s ∈ r.slots, ∀ v g answer since, s.holder = some ⟨v, .stopping g answer since⟩ → g = s.generation
  free : ∀ key s, r.slot? key = some s → s.holder = none → r.connection? key = none ∨
    ∃ c, r.connection? key = some c ∧ ((c.status = .ready ∧ 1 ≤ c.refs) ∨ (c.status = .failed ∧ c.refs = 0))
  refs : ∀ s ∈ r.slots, ∀ c ∈ s.connections, s.current ≠ some c.id.generation → c.refs = 0

theorem Registry.Sound.oneServer {r : Registry} (h : r.Sound) : r.OneServer := by
  have hlives {s : Slot} (hs : s ∈ r.slots) : s.Lives := by
    obtain ⟨i, hi⟩ := List.mem_iff_getElem?.1 hs
    exact h.lives i s hi
  refine ⟨fun s hs t ht hk c hc d hd hrc hrd => ?_, fun s hs i c hc hi => (hlives hs).valid.earlier_over hc hi,
    fun s hs v g answer since hh => (hlives hs).valid.stopping_latest hh, fun key s hs hfree => ?_,
      fun s hs c hc hcur => ?_⟩
  · obtain ⟨i, hi⟩ := List.mem_iff_getElem?.1 hs
    obtain ⟨j, hj⟩ := List.mem_iff_getElem?.1 ht
    obtain rfl := h.keys i j s t hi hj hk
    obtain rfl := Option.some.inj (hi.symm.trans hj)
    obtain ⟨m, hm⟩ := List.mem_iff_getElem?.1 hc
    obtain ⟨n, hn⟩ := List.mem_iff_getElem?.1 hd
    obtain rfl := (hlives hs).valid.table.running_unique hm hn hrc hrd
    exact Option.some.inj (hm.symm.trans hn)
  · have hconnection : r.connection? key = s.current? := by simp [Registry.connection?, hs]
    rw [hconnection]
    exact (h.lives _ s (slot?_slot h hs).1).valid.current_free hfree
  · obtain ⟨i, hi⟩ := List.mem_iff_getElem?.1 hc
    rw [(hlives hs).valid.id_eq hi] at hcur
    exact (hlives hs).valid.refs_current hi hcur

/-- At every moment of every run there is one server for each key at most; and all slots come about by
steps, of which one that begins a launch is done when nobody is inside, so that no shutdown is in progress,
and all connections made before have failed or are closed. -/
theorem one_server (bounds : Bounds) (events : List Event) :
    let r := ((Host.new bounds).run events).registry
    r.OneServer ∧ (∀ s ∈ r.slots, s.Lives) ∧
    ∀ s : Slot, s.Lives → ∀ call s', s.Step call s' → s.generation < s'.generation →
      s.work? = none ∧ ∀ d ∈ s.connections, d.status = .failed ∨ d.status = .closed := by
  have hsound := (Host.run_ordered bounds events).sound
  refine ⟨hsound.oneServer, fun s hs => ?_, fun s hl call s' hstep hg => hl.launch_begins hstep hg⟩
  obtain ⟨i, hi⟩ := List.mem_iff_getElem?.1 hs
  exact hsound.lives i s hi

end LanguageHost
