import LanguageHost.Proofs.Registry.Tally

/-! References to a live connection and those they belong to: whoever has been given one, and calls
on their way to give one back. -/
namespace LanguageHost

/-- The request gives a reference to the connection back. -/
def Request.returns (id : ConnectionId) : Request → Bool
  | .release (some x) => x = id
  | _ => false

def Request.Acquires (r : Request) : Prop := ∃ key document seen, r = .acquire key document seen

theorem Request.release_not_acquires {expected : Option ConnectionId} : ¬(Request.release expected).Acquires := by
  rintro ⟨_, _, _, he⟩
  cases he

theorem Request.clear_not_acquires : ¬Request.clear.Acquires := by
  rintro ⟨_, _, _, he⟩
  cases he

def Answer.hand : Option Answer → Option ConnectionId
  | some (.acquired id) => some id
  | _ => none

theorem countP_without {α β : Type} [DecidableEq β] {f : α → β} {l : List α} (hd : (l.map f).Nodup) {v : α}
    (hv : v ∈ l)
    (p : α → Bool) : l.countP p = (l.filter fun w => f w ≠ f v).countP p + if p v then 1 else 0 := by
  induction l with
  | nil => simp at hv
  | cons w l ih =>
    simp only [List.map_cons, List.nodup_cons, List.mem_map, not_exists, not_and] at hd
    rcases List.mem_cons.1 hv with rfl | hv
    · have hrest : l.filter (fun w => f w ≠ f v) = l := by simpa using hd.1
      rw [List.countP_cons, List.filter_cons_of_neg (by simp), hrest]
    · have hne : f w ≠ f v := fun he => hd.1 v hv he.symm
      rw [List.countP_cons, List.filter_cons_of_pos (by simpa using hne), List.countP_cons, ih hd.2 hv]
      omega

namespace Slot

/-- Calls at the gate that give a reference to the connection back. -/
def releases (s : Slot) (id : ConnectionId) : Nat := s.visits.countP (·.request.returns id)

/-- Somebody at the gate is about to clear the slot, or does so. -/
def Clears (s : Slot) : Prop := ∃ v ∈ s.visits, v.request = .clear

/-- The call that waits for the launch has a reference coming. -/
def launchers (s : Slot) : Nat :=
  match s.work? with
  | some (_, .launch) => 1
  | _ => 0

/-- What gives back at the gate is one known connection of the slot. -/
def Proper (s : Slot) : Prop :=
  ∀ v ∈ s.visits, ∀ expected, v.request = .release expected →
    ∃ id, expected = some id ∧ id.slot = s.number ∧ id.generation ≤ s.generation

/-- The references to the live connection belong to `n` owners elsewhere, to the one in `hand`, and
to those at the gate. Only a clear, due or at the gate, takes references that belong to nobody. -/
def Owned (s : Slot) (n : ConnectionId → Nat) (hand : Option ConnectionId) (due : Prop) : Prop :=
  ∀ i c, s.current = some (i + 1) → s.connections[i]? = some c → c.isLive = true →
    let owners := n ⟨s.number, i + 1⟩ + (if hand = some ⟨s.number, i + 1⟩ then 1 else 0) +
      s.releases ⟨s.number, i + 1⟩ + s.launchers
    owners ≤ c.refs ∧ (owners = c.refs ∨ s.Clears ∨ due)

variable {s : Slot} {i : Nat} {c : Connection} {v : Visit} {n : ConnectionId → Nat} {hand : Option ConnectionId}
  {due : Prop}

theorem owned_of_dead (h : ∀ i c, s.current = some (i + 1) → s.connections[i]? = some c → c.isLive = false) :
    s.Owned n hand due := fun i c hg hc hl => by simp [h i c hg hc] at hl

theorem owned_of_none (h : s.current = none) : s.Owned n hand due := owned_of_dead fun i c hg => by simp [h] at hg

theorem Owned.pass (h : s.Owned n hand due) {n' : ConnectionId → Nat} {hand' : Option ConnectionId} {due' : Prop}
    (hdue : due → due')
    (hn : ∀ id, n' id + (if hand' = some id then 1 else 0) = n id + if hand = some id then 1 else 0) :
    s.Owned n' hand' due' := by
  intro i c hg hc hl
  have hi := h i c hg hc hl
  have hni := hn ⟨s.number, i + 1⟩
  simp only [hni] at hi ⊢
  exact ⟨hi.1, hi.2.imp_right fun hi => hi.imp_right hdue⟩

/-- References may be lost as long as a clear is due. -/
theorem Owned.lose (h : s.Owned n none due) {n' : ConnectionId → Nat} {due' : Prop} (hdue : due')
    (hn : ∀ id, n' id ≤ n id) :
    s.Owned n' none due' := by
  intro i c hg hc hl
  have hi := h i c hg hc hl
  have hni := hn ⟨s.number, i + 1⟩
  simp only at hi ⊢
  exact ⟨by omega, .inr (.inr hdue)⟩

theorem Owned.elsewhere (h : s.Owned n hand due) {hand' : Option ConnectionId} {due' : Prop}
    (hhand : ∀ id, hand = some id → id.slot ≠ s.number) (hhand' : ∀ id, hand' = some id → id.slot ≠ s.number)
    (hdue : due → due') : s.Owned n hand' due' := by
  intro i c hg hc hl
  have hi := h i c hg hc hl
  rw [if_neg fun he => hhand _ he rfl] at hi
  rw [if_neg fun he => hhand' _ he rfl]
  exact ⟨hi.1, hi.2.imp_right fun hi => hi.imp_right hdue⟩

theorem Vacant.dead (h : s.Vacant) : ∀ i c, s.current = some (i + 1) → s.connections[i]? = some c →
    c.isLive = false :=
  fun i c hg hc => by simp [Connection.isLive, h (i + 1) c hg hc, Status.isLive]

theorem Valid.ready_of_live (h : s.Valid) (hw : s.work? = none) (hg : s.current = some (i + 1))
    (hc : s.connections[i]? = some c) (hl : c.isLive = true) : s.Ready i c := by
  obtain ⟨_, d, hd, hs⟩ := (hg ▸ h.table_outside hw).current_status
  obtain rfl : c = d := Option.some.inj (hc.symm.trans (by simpa using hd))
  rcases hs with hs | hs
  · exact ⟨hg, hc, hs⟩
  · simp [Connection.isLive, hs, Status.isLive] at hl

theorem releases_holder {stage : Stage} (hh : s.holder = some ⟨v, stage⟩) (id : ConnectionId) :
    s.releases id = s.queue.countP (·.request.returns id) + if v.request.returns id then 1 else 0 := by
  simp [releases, visits, hh, List.countP_cons]

theorem clears_holder {stage : Stage} (hh : s.holder = some ⟨v, stage⟩) (hv : v.request ≠ .clear) :
    s.Clears ↔ ∃ w ∈ s.queue, w.request = .clear := by
  simp [Clears, visits, hh, hv]

@[simp] theorem leave_releases (t : Turn) (id : ConnectionId) :
    (s.leave t).releases id = s.queue.countP (·.request.returns id) := by
  simp [releases]

@[simp] theorem leave_launchers (t : Turn) : (s.leave t).launchers = 0 := by simp [launchers]

theorem leave_clears (t : Turn) : (s.leave t).Clears ↔ ∃ w ∈ s.queue, w.request = .clear := by simp [Clears]

theorem launchers_outside (hw : s.work? = none) : s.launchers = 0 := by simp [launchers, hw]

/-- The holder has had its turn. Only references to the current connection and the part of its
holder in them have changed. -/
theorem Owned.leave (h : s.Owned n hand due) {stage : Stage} (hh : s.holder = some ⟨v, stage⟩)
    (hv : v.request ≠ .clear) {x : Slot} {t : Turn} (hnumber : x.number = s.number) (hqueue : x.queue = s.queue)
    (hcurrent : x.current = s.current) {hand' : Option ConnectionId}
    (hrefs : ∀ i c', s.current = some (i + 1) → x.connections[i]? = some c' → c'.isLive = true →
      ∃ c, s.connections[i]? = some c ∧ c.isLive = true ∧
        c'.refs + (if v.request.returns ⟨s.number, i + 1⟩ then 1 else 0) + s.launchers +
            (if hand = some ⟨s.number, i + 1⟩ then 1 else 0) =
          c.refs + if hand' = some ⟨s.number, i + 1⟩ then 1 else 0) : (x.leave t).Owned n hand' due := by
  intro i c' hg hc hl
  rw [leave_current, hcurrent] at hg
  rw [leave_connections] at hc
  obtain ⟨c, hc₀, hl₀, he⟩ := hrefs i c' hg hc hl
  have hi := h i c hg hc₀ hl₀
  rw [releases_holder hh, clears_holder hh hv] at hi
  simp only [leave_number, leave_releases, leave_launchers, hnumber, hqueue, leave_clears] at hi ⊢
  refine ⟨by omega, ?_⟩
  rcases hi.2 with hi | hi
  · exact .inl (by omega)
  · exact .inr hi

theorem come_owned (hs : s.Valid) (h : s.Owned n hand due) {n' : ConnectionId → Nat} {hand' : Option ConnectionId}
    {due' : Prop}
    (hn : ∀ id, n' id + (if hand' = some id then 1 else 0) + (if v.request.returns id then 1 else 0) ≤
      n id + if hand = some id then 1 else 0)
    (he : v.request = .clear ∨ (due → due') ∧ ∀ id,
      n' id + (if hand' = some id then 1 else 0) + (if v.request.returns id then 1 else 0) =
        n id + if hand = some id then 1 else 0) : (s.come v).Owned n' hand' due' := by
  obtain ⟨hvisits, hw, _, _, hnumber, hcs, hcurrent, _⟩ := hs.come_eq v
  intro i c hg hc hl
  rw [hcurrent] at hg
  rw [hcs] at hc
  have hi := h i c hg hc hl
  have hreleases (id : ConnectionId) :
      (s.come v).releases id = s.releases id + if v.request.returns id then 1 else 0 := by
    simp [releases, hvisits, List.countP_append, List.countP_cons]
  have hlaunchers : (s.come v).launchers = s.launchers := by simp [launchers, hw]
  have hclears : (s.come v).Clears ↔ s.Clears ∨ v.request = .clear := by
    simp [Clears, hvisits, or_and_right, exists_or]
  have hni := hn ⟨s.number, i + 1⟩
  simp only [hnumber, hreleases, hlaunchers, hclears] at hi ⊢
  refine ⟨by omega, ?_⟩
  rcases he with hv | ⟨hdue, he⟩
  · exact .inr (.inl (.inr hv))
  · have hei := he ⟨s.number, i + 1⟩
    rcases hi.2 with hi | hi | hi
    · exact .inl (by omega)
    · exact .inr (.inl (.inl hi))
    · exact .inr (.inr (hdue hi))

theorem come_acquire_owned (hs : s.Valid) (h : s.Owned n hand due) {key : ServerKey} {document : Option Path}
    {seen : Nat} (hr : v.request = .acquire key document seen) : (s.come v).Owned n hand due :=
  come_owned hs h (by simp [hr, Request.returns]) (.inr ⟨id, by simp [hr, Request.returns]⟩)

theorem come_release_owned (hs : s.Valid) {x : ConnectionId} (h : s.Owned n (some x) due)
    (hr : v.request = .release (some x)) : (s.come v).Owned n none due :=
  come_owned hs h (by simp [hr, Request.returns]) (.inr ⟨id, by simp [hr, Request.returns]⟩)

theorem come_clear_owned (hs : s.Valid) (h : s.Owned n none due) (hr : v.request = .clear) (due' : Prop) :
    (s.come v).Owned n none due' :=
  come_owned hs h (by simp [hr, Request.returns]) (.inl hr)

theorem launch_owned (hp : s.Proper) (hh : s.holder = some ⟨v, .granted⟩) (hn : n ⟨s.number, s.generation + 1⟩ = 0)
    (now : Nat) (key : ServerKey) (document : Option Path) : (s.launch now v key document).Owned n none due := by
  intro i c hg hc _
  obtain rfl : s.generation = i := by simpa [Slot.launch] using hg
  obtain rfl : Connection.launching ⟨s.number, s.generation + 1⟩ key document = c := by
    simpa [Slot.launch, generation] using hc
  have hreleases : (s.launch now v key document).releases ⟨s.number, s.generation + 1⟩ = 0 := by
    refine List.countP_eq_zero.2 fun w hw => ?_
    have hw' : w ∈ s.visits := by simpa [visits, hh, Slot.launch] using hw
    cases hwr : w.request with
    | acquire | clear => simp [Request.returns]
    | release expected =>
      obtain ⟨x, rfl, _, hle⟩ := hp w hw' expected hwr
      have hne : x ≠ ⟨s.number, s.generation + 1⟩ := by
        rintro rfl
        exact absurd hle (Nat.not_succ_le_self _)
      simpa [Request.returns] using hne
  have hlaunchers : (s.launch now v key document).launchers = 1 := by simp [launchers, work?, Slot.launch]
  have howners : n ⟨s.number, s.generation + 1⟩ + 0 +
      (s.launch now v key document).releases ⟨s.number, s.generation + 1⟩ +
      (s.launch now v key document).launchers = 1 := by
    rw [hn, hreleases, hlaunchers]
  exact ⟨Nat.le_of_eq howners, .inl howners⟩

/-- A call goes on and hands out, takes back or passes on references in its keeping. -/
theorem Serves.owned (hs : s.Valid) (hp : s.Proper) (hh : s.holder = some ⟨v, .granted⟩) {now : Nat}
    {r : Slot × Option Answer} (hr : s.Serves now v r) (hn : n ⟨s.number, s.generation + 1⟩ = 0)
    (h : s.Owned n none due) : r.1.Owned n (Answer.hand r.2) due := by
  have hw := Valid.work?_granted hh
  have hlaunchers := launchers_outside hw
  cases hr with
  | @share key document seen i c hr hc =>
    rw [reply_fst, reply_snd]
    refine h.leave hh (by simp [hr]) (by rfl) (by rfl) (by rfl) fun j c' hg hc' _ => ?_
    obtain rfl : i = j := by simpa using hc.1.symm.trans hg
    obtain rfl : ({ c with refs := c.refs + 1 } : Connection) = c' := by simpa [hc.2.1] using hc'
    exact ⟨c, hc.2.1, hc.isLive, by simp [hr, Request.returns, Answer.hand, hlaunchers]⟩
  | refuse hr hv => exact owned_of_dead (by simpa using hv.dead)
  | launch hr => exact launch_owned hp hh hn now _ _
  | @ignore expected hr hno =>
    rw [reply_fst, reply_snd]
    refine h.leave hh (by simp [hr]) (by rfl) (by rfl) (by rfl) fun j c hg hc hl => ⟨c, hc, hl, ?_⟩
    obtain ⟨x, rfl, hx⟩ := hno j c (hs.ready_of_live hw hg hc hl)
    simp [hr, Request.returns, Answer.hand, hlaunchers, hx]
  | @drop expected i c m hr hc he hm =>
    rw [reply_fst, reply_snd]
    refine h.leave hh (by simp [hr]) (by rfl) (by rfl) (by rfl) fun j c' hg hc' _ => ?_
    obtain rfl : i = j := by simpa using hc.1.symm.trans hg
    obtain rfl : ({ c with refs := m + 1 } : Connection) = c' := by simpa [hc.2.1] using hc'
    obtain ⟨x, rfl, _⟩ := hp v (by simp [visits, hh]) expected hr
    exact ⟨c, hc.2.1, hc.isLive, by simp [hr, Request.returns, Answer.hand, hlaunchers, he x rfl, hm]⟩
  | last | close => exact owned_of_none rfl
  | forget => exact owned_of_none (leave_current _ _)

/-- The slot has a ready connection at position `i` and no clear ahead. -/
def Serving (s : Slot) (i : Nat) : Prop := (∃ c, s.Ready i c) ∧ ¬s.Clears

/-- Nobody takes a connection away that has an owner. -/
theorem Serves.serving (hp : s.Proper) (hh : s.holder = some ⟨v, .granted⟩) {now : Nat}
    {r : Slot × Option Answer} (hr : s.Serves now v r) (h : s.Owned n none due) (hi : s.Serving i)
    (hn : 0 < n ⟨s.number, i + 1⟩) : r.1.Serving i := by
  obtain ⟨⟨c, hc⟩, hclears⟩ := hi
  have hv : v ∈ s.visits := by simp [visits, hh]
  have hqueue : ¬∃ w ∈ s.queue, w.request = .clear := by
    rintro ⟨w, hw, hwr⟩
    exact hclears ⟨w, by simp [visits, hw], hwr⟩
  have hvacant (hv : s.Vacant) : False := by
    have := hv (i + 1) c hc.1 hc.2.1
    simp [hc.2.2] at this
  have hleave {x : Slot} {t : Turn} (hcurrent : x.current = s.current) (hq : x.queue = s.queue)
      (hx : ∃ c', x.connections[i]? = some c' ∧ c'.status = .ready) : (x.leave t).Serving i := by
    obtain ⟨c', hc', hs'⟩ := hx
    exact ⟨⟨c', by simp [hcurrent, hc.1], by simpa using hc', hs'⟩, by rw [leave_clears, hq]; exact hqueue⟩
  cases hr with
  | @share _ _ _ j d hr hd =>
    obtain rfl : i = j := by simpa using hc.1.symm.trans hd.1
    exact hleave rfl rfl ⟨{ c with refs := c.refs + 1 }, by simp [hc.2.1], hc.2.2⟩
  | refuse hr hv | launch hr hv | forget hr hv => exact (hvacant hv).elim
  | ignore => exact hleave rfl rfl ⟨c, hc.2.1, hc.2.2⟩
  | @drop _ j d m hr hd =>
    obtain rfl : i = j := by simpa using hc.1.symm.trans hd.1
    exact hleave rfl rfl ⟨{ c with refs := m + 1 }, by simp [hc.2.1], hc.2.2⟩
  | @last expected j d hr hd he hone =>
    obtain rfl : i = j := by simpa using hc.1.symm.trans hd.1
    obtain rfl : c = d := Option.some.inj (hc.2.1.symm.trans hd.2.1)
    obtain ⟨x, rfl, _⟩ := hp v hv expected hr
    obtain ⟨hle, _⟩ := h i c hc.1 hc.2.1 hc.isLive
    rw [releases_holder hh, hr, he x rfl] at hle
    simp only [Request.returns, decide_true, if_true] at hle
    omega
  | close hr => exact absurd ⟨v, hv, hr⟩ hclears

theorem come_serving (hs : s.Valid) (hi : s.Serving i) (hv : v.request ≠ .clear) : (s.come v).Serving i := by
  obtain ⟨⟨c, hc⟩, hclears⟩ := hi
  obtain ⟨hvisits, _, _, _, _, hcs, hcurrent, _⟩ := hs.come_eq v
  refine ⟨⟨c, hcurrent.trans hc.1, by rw [hcs]; exact hc.2.1, hc.2.2⟩, ?_⟩
  rintro ⟨w, hw, hwr⟩
  rw [hvisits, List.mem_append, List.mem_singleton] at hw
  rcases hw with hw | rfl
  · exact hclears ⟨w, hw, hwr⟩
  · exact hv hwr

theorem Valid.outside_of_ready (h : s.Valid) (hc : s.Ready i c) : s.work? = none := by
  cases hw : s.work? with
  | none => rfl
  | some w =>
    obtain ⟨v, w⟩ := w
    have ht := h.table
    rw [hw] at ht
    cases w with
    | launch =>
      obtain ⟨_, d, hd, hs, hcur⟩ := ht.launching_last
      have hi : i = s.connections.length - 1 := by
        have := hc.1.symm.trans hcur
        simp only [Option.some.injEq] at this
        omega
      subst hi
      obtain rfl : c = d := Option.some.inj (hc.2.1.symm.trans hd)
      simp [hc.2.2] at hs
    | stop g answer =>
      obtain ⟨hnone, _⟩ := ht.stopping g answer rfl
      simp [hc.1] at hnone

section Operations
variable {now : Nat} {call : CallId}

theorem Lives.arrive_owned (hl : s.Lives) (ha : s.Admits v) (now : Nat) (hp : (s.come v).Proper)
    (hn : n ⟨s.number, s.generation + 1⟩ = 0) (h : (s.come v).Owned n none due) :
    (s.arrive now v).1.Owned n (Answer.hand (s.arrive now v).2) due := by
  obtain ⟨_, _, _, _, hnumber, hcs, _⟩ := hl.valid.come_eq v
  cases hh : s.holder with
  | none =>
    refine (hl.valid.arrive_serves hh ha now).owned (hl.valid.come ha) hp (by simp [come, hh]) ?_ h
    rwa [hnumber, generation, hcs]
  | some x =>
    have hs : s.arrive now v = (s.come v, none) := by simp [Slot.arrive, Slot.come, hh]
    rw [hs]
    exact h

theorem Lives.arrive_serving (hl : s.Lives) (ha : s.Admits v) (hp : (s.come v).Proper)
    (h : (s.come v).Owned n none due) (hi : (s.come v).Serving i)
    (hn : 0 < n ⟨s.number, i + 1⟩) : (s.arrive now v).1.Serving i := by
  obtain ⟨_, _, _, _, hnumber, _⟩ := hl.valid.come_eq v
  cases hh : s.holder with
  | none => exact (hl.valid.arrive_serves hh ha now).serving hp (by simp [come, hh]) h hi (by rwa [hnumber])
  | some x =>
    have hs : s.arrive now v = (s.come v, none) := by simp [Slot.arrive, Slot.come, hh]
    rw [hs]
    exact hi

theorem Lives.abandon_inside (hl : s.Lives) {w : Work} (hw : s.work? = some (v, w)) :
    ∀ i c, (s.abandon v.call).current = some (i + 1) → (s.abandon v.call).connections[i]? = some c →
    c.isLive = false := by
  unfold work? at hw
  split at hw <;> simp only [Option.some.injEq, Prod.mk.injEq, reduceCtorEq] at hw <;> rename_i hh <;>
    obtain ⟨rfl, _⟩ := hw <;> intro j c' hg hc' <;>
    simp only [Slot.abandon, hh, if_true, leave_current, leave_connections, Slot.modify, generation] at hg hc'
  · obtain ⟨hpos, c, hc, hs, hcur⟩ := (hl.valid.table_launching hh).launching_last
    obtain rfl : j = s.connections.length - 1 := by
      have := hg.symm.trans hcur
      simp only [Option.some.injEq] at this
      omega
    obtain rfl : c.fail = c' := by simpa [hc] using hc'
    rfl
  · obtain ⟨hnone, _⟩ := (hl.valid.table_stopping hh).stopping _ _ rfl
    simp [hnone] at hg

theorem abandon_outside (hw : ∀ v w, s.work? = some (v, w) → v.call ≠ call) :
    (s.abandon call).connections = s.connections ∧ (s.abandon call).current = s.current ∧
      (s.abandon call).work? = s.work? := by
  unfold Slot.abandon
  split
  · rename_i v stage hh
    split
    · rename_i hv
      cases stage with
      | granted => exact ⟨by simp [note], by simp [note], (handOver_work? _).trans (Valid.work?_granted hh).symm⟩
      | launching => exact absurd hv (hw v .launch (by simp [work?, hh]))
      | stopping g answer => exact absurd hv (hw v (.stop g answer) (by simp [work?, hh]))
    · split <;> exact ⟨rfl, rfl, rfl⟩
  · exact ⟨rfl, rfl, rfl⟩

theorem abandon_of_absent (h : ∀ v ∈ s.visits, v.call ≠ call) : s.abandon call = s := by
  unfold Slot.abandon
  split
  · rename_i w stage hh
    have hw : w.call ≠ call := h w (by simp [visits, hh])
    have hq : s.queue.any (·.call = call) = false := by
      simpa using fun v hv => h v (by simp [visits, hv])
    simp [hw, hq]
  · rfl

theorem Lives.abandon_clears (hl : s.Lives) (hno : ∀ v ∈ s.visits, v.call = call → v.request ≠ .clear)
    (h : s.Clears) : (s.abandon call).Clears := by
  obtain ⟨w, hw, hwr⟩ := h
  refine ⟨w, ?_, hwr⟩
  rw [abandon_visits hl.valid, List.mem_filter, decide_eq_true_eq]
  exact ⟨hw, fun hc => hno w hw hc hwr⟩

/-- Whoever is given up has the reference in hand that it was about to give back. If that was the last clear, no
reference to a ready connection may have been left to it. -/
theorem Lives.abandon_owned (hl : s.Lives) (h : s.Owned n none due) (hv : v ∈ s.visits)
    (hclear : s.Clears → (s.abandon v.call).Clears ∨
      ∀ i c, s.Ready i c → c.refs ≤ n ⟨s.number, i + 1⟩ + s.releases ⟨s.number, i + 1⟩)
    (hhand : ∀ id, (hand = some id) ↔ v.request.returns id = true) : (s.abandon v.call).Owned n hand due := by
  by_cases hinside : ∃ u w, s.work? = some (u, w) ∧ u.call = v.call
  · obtain ⟨u, w, hw, hu⟩ := hinside
    rw [← hu]
    exact owned_of_dead (hl.abandon_inside hw)
  · have houtside : ∀ u w, s.work? = some (u, w) → u.call ≠ v.call := fun u w hw hu => hinside ⟨u, w, hw, hu⟩
    obtain ⟨hcs, hcurrent, hwork⟩ := abandon_outside houtside
    have hvisits := abandon_visits hl.valid v.call
    have hnumber := (hl.abandon v.call).number
    intro i c hg hc hlive
    rw [hcurrent] at hg
    rw [hcs] at hc
    have hi := h i c hg hc hlive
    have hreleases := countP_without hl.valid.distinct hv (·.request.returns ⟨s.number, i + 1⟩)
    have hlaunchers : (s.abandon v.call).launchers = s.launchers := by simp [Slot.launchers, hwork]
    have hcount : (s.abandon v.call).releases ⟨s.number, i + 1⟩ + (if hand = some ⟨s.number, i + 1⟩ then 1 else 0) =
        s.releases ⟨s.number, i + 1⟩ := by
      simp only [Slot.releases, hvisits, hhand]
      exact hreleases.symm
    -- A launch has one reference, which the call that waits for it has coming.
    have hstarting (hs : c.status = .starting) : c.refs = 1 ∧ s.launchers = 1 := by
      have hfits := hl.valid.table.fits i c hc
      have hlawful := hl.valid.lawful hc
      simp only [hs, Status.Fits] at hfits
      simp only [Connection.Lawful, hs] at hlawful
      obtain ⟨w, hw, hwork⟩ := Option.map_eq_some_iff.1 hfits.2.2
      refine ⟨hlawful.1, ?_⟩
      obtain ⟨u, w⟩ := w
      obtain rfl : w = .launch := hwork
      simp [Slot.launchers, hw]
    simp only [hnumber, hlaunchers, reduceCtorEq, if_false] at hi ⊢
    refine ⟨by omega, ?_⟩
    rcases hi.2 with hi' | hi' | hi'
    · exact .inl (by omega)
    · rcases hclear hi' with hclears | hrefs
      · exact .inr (.inl hclears)
      · left
        cases hs : c.status with
        | starting =>
          have := hstarting hs
          omega
        | ready =>
          have := hrefs i c ⟨hg, hc, hs⟩
          omega
        | failed | shuttingDown | closed => simp [Connection.isLive, hs, Status.isLive] at hlive
    · exact .inr (.inr hi')

theorem Lives.abandon_serving (hl : s.Lives) (hi : s.Serving i) : (s.abandon call).Serving i := by
  obtain ⟨⟨c, hc⟩, hclears⟩ := hi
  have hw := hl.valid.outside_of_ready hc
  have houtside : ∀ v w, s.work? = some (v, w) → v.call ≠ call := by simp [hw]
  obtain ⟨hcs, hcurrent, _⟩ := abandon_outside houtside
  refine ⟨⟨c, hcurrent.trans hc.1, by rw [hcs]; exact hc.2.1, hc.2.2⟩, ?_⟩
  rintro ⟨w, hw', hwr⟩
  rw [abandon_visits hl.valid] at hw'
  exact hclears ⟨w, (List.mem_filter.1 hw').1, hwr⟩

end Operations

end Slot

end LanguageHost
