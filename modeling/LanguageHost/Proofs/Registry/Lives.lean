import LanguageHost.Proofs.Registry.Turns

/-! The slots that calls can leave behind, and that all of them are in order. -/
namespace LanguageHost.Slot

/-- A call joins those at the gate, as the holder if there is none. -/
def come (s : Slot) (v : Visit) : Slot :=
  match s.holder with
  | none => { s.note (.came v) with holder := some ⟨v, .granted⟩ }
  | some _ => { s.note (.came v) with queue := s.queue ++ [v] }

/-- A call may come that is not there yet, and that asks for the key of the slot and has just read
how many launches have finished. -/
structure Admits (s : Slot) (v : Visit) : Prop where
  absent : ∀ w ∈ s.visits, w.call ≠ v.call
  asks : ∀ key document seen, v.request = .acquire key document seen → (s.key == key) = true ∧ seen = s.finished

/-- Everything that a call can do to a slot, or that can happen to it there. -/
inductive Step (s : Slot) : CallId → Slot → Prop
  | come {v} (ha : s.Admits v) : Step s v.call (s.come v)
  | serve {v now r} (hh : s.holder = some ⟨v, .granted⟩) (hr : s.Serves now v r) : Step s v.call r.1
  | launched {v since} (hh : s.holder = some ⟨v, .launching since⟩) (p : Process) :
    Step s v.call ({ s with
      connections := s.connections.modify (s.generation - 1) (Connection.attach · p)
      finished := s.finished + 1
      failure := none }.leave ⟨v, .launched (.ok p), some (.acquired ⟨s.number, s.generation⟩)⟩)
  | failed {v since} (hh : s.holder = some ⟨v, .launching since⟩) (e : Error) :
    Step s v.call ({ s with
      connections := s.connections.modify (s.generation - 1) Connection.fail
      finished := s.finished + 1
      failure := some ⟨s.finished + 1, e.message⟩ }.leave ⟨v, .launched (.error e), some (.refused e)⟩)
  | stopped {v g answer since} (hh : s.holder = some ⟨v, .stopping g answer since⟩) :
    Step s v.call ((s.modify g Connection.endStop).leave ⟨v, .stopped, some answer⟩)
  | dropLaunch {v since} (hh : s.holder = some ⟨v, .launching since⟩) :
    Step s v.call ((s.modify s.generation Connection.fail).leave ⟨v, .givenUp, none⟩)
  | dropStop {v g answer since} (hh : s.holder = some ⟨v, .stopping g answer since⟩) :
    Step s v.call ((s.modify g Connection.endStop).leave ⟨v, .givenUp, none⟩)
  | dropGranted {v} (hh : s.holder = some ⟨v, .granted⟩) : Step s v.call (s.note (.left v.call)).handOver
  | dropQueued {v} (hv : v ∈ s.queue) :
    Step s v.call { s.note (.left v.call) with queue := s.queue.filter fun w => w.call ≠ v.call }

/-- The slots that calls can leave behind. -/
inductive Lives : Slot → Prop
  | new (key : ServerKey) (number : Nat) : Lives (.new key number)
  | step {s s' : Slot} {c : CallId} (h : Lives s) (hs : s.Step c s') : Lives s'

variable {s : Slot}

namespace Valid

theorem leave (h : s.Valid) {x : Slot} {t : Turn} (hkey : x.key = s.key) (hnumber : x.number = s.number)
    (hqueue : x.queue = s.queue) (ht : Table s.key s.number x.connections x.current none) :
    (x.leave t).Valid := by
  have hsub : s.queue.Sublist s.visits := List.sublist_append_right _ _
  refine ⟨?_, handOver_idle _, ?_, ?_⟩
  · simpa [hkey, hnumber] using ht
  · rw [leave_visits, hqueue]
    exact h.distinct.sublist (hsub.map _)
  · rw [leave_visits, leave_key, hqueue, hkey]
    exact fun v hv => h.keys v (hsub.subset hv)

theorem inside (h : s.Valid) {v : Visit} {stage stage' : Stage} (hh : s.holder = some ⟨v, stage⟩) {x : Slot}
    (hkey : x.key = s.key) (hnumber : x.number = s.number) (hqueue : x.queue = s.queue)
    (hh' : x.holder = some ⟨v, stage'⟩)
    (ht : Table s.key s.number x.connections x.current (x.work?.map Prod.snd)) : x.Valid := by
  have hvisits : x.visits = s.visits := by simp [visits, hh, hh', hqueue]
  refine ⟨by rwa [hkey, hnumber], by simp [hh'], by rw [hvisits]; exact h.distinct, ?_⟩
  rw [hvisits, hkey]
  exact h.keys

theorem without_holder (h : s.Valid) {v : Visit} {stage : Stage} (hh : s.holder = some ⟨v, stage⟩) :
    s.visits.filter (fun w => w.call ≠ v.call) = s.queue := by
  have hd := h.distinct
  simp only [visits, hh, Option.map_some, Option.toList_some, List.singleton_append, List.map_cons,
    List.nodup_cons, List.mem_map, not_exists, not_and] at hd
  simpa [visits, hh] using hd.1

theorem unique (h : s.Valid) {v w : Visit} (hv : v ∈ s.visits) (hw : w ∈ s.visits) (he : v.call = w.call) : v = w :=
  List.inj_on_of_nodup_map h.distinct hv hw he

theorem without_queued (h : s.Valid) {v : Visit} (hv : v ∈ s.queue) :
    s.visits.filter (fun w => w.call ≠ v.call) =
      (s.holder.map Holder.toVisit).toList ++ s.queue.filter fun w => w.call ≠ v.call := by
  have hd := h.distinct
  cases hh : s.holder with
  | none => simp [visits, hh]
  | some x =>
    simp only [visits, hh, Option.map_some, Option.toList_some, List.singleton_append, List.map_cons,
      List.nodup_cons, List.mem_map, not_exists, not_and] at hd
    have hne : x.call ≠ v.call := fun he => hd.1 v hv he.symm
    simp [visits, hh, hne]

theorem work?_granted {v : Visit} (hh : s.holder = some ⟨v, .granted⟩) : s.work? = none := by simp [work?, hh]

theorem table_launching (h : s.Valid) {v : Visit} {since : Nat} (hh : s.holder = some ⟨v, .launching since⟩) :
    Table s.key s.number s.connections s.current (some .launch) := by
  simpa [work?, hh] using h.table

theorem table_stopping (h : s.Valid) {v : Visit} {g since : Nat} {answer : Answer}
    (hh : s.holder = some ⟨v, .stopping g answer since⟩) :
    Table s.key s.number s.connections s.current (some (.stop g answer)) := by
  simpa [work?, hh] using h.table

theorem come (h : s.Valid) {v : Visit} (ha : s.Admits v) : (s.come v).Valid := by
  have habsent : v.call ∉ s.visits.map Visit.call := by
    rintro hv
    obtain ⟨w, hw, he⟩ := List.mem_map.1 hv
    exact ha.absent w hw he
  have hasks : ∀ key document seen, v.request = .acquire key document seen → (s.key == key) = true :=
    fun key document seen hr => (ha.asks key document seen hr).1
  unfold Slot.come
  split
  · rename_i hh
    have hq := h.idle hh
    refine ⟨?_, by simp, by simp [visits, note, hq], ?_⟩
    · simpa [work?, hh, note] using h.table
    · intro w hw
      obtain rfl : w = v := by simpa [visits, note, hq] using hw
      exact hasks
  · rename_i holder hh
    refine ⟨?_, by simp [note, hh], ?_, ?_⟩
    · simpa [work?, note] using h.table
    · have hd := h.distinct
      simp only [visits, note, hh] at hd habsent ⊢
      rw [← List.append_assoc, List.map_append, List.nodup_append]
      refine ⟨hd, by simp, ?_⟩
      intro a ha b hb he
      obtain rfl : b = v.call := by simpa using hb
      exact habsent (he ▸ ha)
    · intro w hw
      have hw' : w ∈ s.visits ∨ w = v := by simpa [visits, note, hh, or_assoc] using hw
      rcases hw' with hw | rfl
      · exact h.keys w hw
      · exact hasks

theorem serve (h : s.Valid) {v : Visit} (hh : s.holder = some ⟨v, .granted⟩) {now : Nat} {r : Slot × Option Answer}
    (hr : s.Serves now v r) : r.1.Valid := by
  have hw := work?_granted hh
  have ht := h.table_outside hw
  have hasks : ∀ key document seen, v.request = .acquire key document seen → (s.key == key) = true :=
    h.keys v (by simp [visits, hh])
  cases hr with
  | share _ hc => exact h.leave rfl rfl rfl (hc.1 ▸ (hc.1 ▸ ht).setRefs hc.2.1 hc.2.2 (Nat.succ_pos _) _ rfl)
  | refuse | ignore => exact h.leave rfl rfl rfl ht
  | drop _ hc => exact h.leave rfl rfl rfl (hc.1 ▸ (hc.1 ▸ ht).setRefs hc.2.1 hc.2.2 (Nat.succ_pos _) _ rfl)
  | launch hr hv =>
    exact h.inside hh rfl rfl rfl rfl (ht.launch (hasks _ _ _ hr) _ fun g c hg hc => by
      simp [Connection.isLive, hv g c hg hc, Status.isLive])
  | last _ hc => exact h.inside hh rfl rfl rfl rfl ((hc.1 ▸ ht).close hc.2.1 hc.2.2 _)
  | close _ hc => exact h.inside hh rfl rfl rfl rfl ((hc.1 ▸ ht).close hc.2.1 hc.2.2 _)
  | forget _ hv =>
    refine h.leave rfl rfl rfl (ht.forget fun g c hg hc => ?_)
    simp [Connection.isLive, hv g c hg hc, Status.isLive]

theorem dropQueued (h : s.Valid) (v : Visit) (hne : s.holder ≠ none) (r : Record) :
    ({ s.note r with queue := s.queue.filter fun w => w.call ≠ v.call } : Slot).Valid := by
  have hsub : ((s.holder.map Holder.toVisit).toList ++ s.queue.filter fun w => w.call ≠ v.call).Sublist s.visits :=
    List.filter_sublist.append_left _
  exact ⟨by simpa [work?, note] using h.table, fun hn => absurd hn hne, h.distinct.sublist (hsub.map _),
    fun w hw => h.keys w (hsub.subset hw)⟩

theorem step (h : s.Valid) {s' : Slot} {c : CallId} (hs : s.Step c s') : s'.Valid := by
  cases hs with
  | come ha => exact h.come ha
  | serve hh hr => exact h.serve hh hr
  | launched hh p => exact h.leave rfl rfl rfl ((h.table_launching hh).attach p)
  | failed hh _ | dropLaunch hh => exact h.leave rfl rfl rfl (h.table_launching hh).fail
  | stopped hh | dropStop hh => exact h.leave rfl rfl rfl (h.table_stopping hh).endStop
  | dropGranted hh =>
    have ht := h.table_outside (work?_granted hh)
    have hsub : s.queue.Sublist s.visits := List.sublist_append_right _ _
    refine ⟨by simpa [note] using ht, handOver_idle _, ?_, ?_⟩
    · rw [handOver_visits]
      exact h.distinct.sublist (hsub.map _)
    · rw [handOver_visits, handOver_key]
      exact fun v hv => h.keys v (hsub.subset hv)
  | dropQueued hv =>
    exact h.dropQueued _ (fun hn => by simp [h.idle hn] at hv) _

theorem new (key : ServerKey) (number : Nat) : (Slot.new key number).Valid :=
  ⟨Table.empty key number, fun _ => rfl, by simp [visits, Slot.new], by simp [visits, Slot.new]⟩

end Valid

theorem Valid.arrive_serves (h : s.Valid) (hh : s.holder = none) {v : Visit} (ha : s.Admits v) (now : Nat) :
    (s.come v).Serves now v (s.arrive now v) := by
  have he : s.come v = { s.note (.came v) with holder := some ⟨v, .granted⟩ } := by simp [Slot.come, hh]
  have hs : s.arrive now v = (s.come v).serve now v := by
    rw [he, serve_setHolder]
    simp [arrive, hh]
  rw [hs]
  exact (h.come ha).serves (work?_granted (by rw [he])) now v

theorem Valid.enter_serves (h : s.Valid) {v : Visit} (hh : s.holder = some ⟨v, .granted⟩) (now : Nat) :
    s.Serves now v (s.enter now) := by
  have hs : s.enter now = s.serve now v := by simp [enter, hh]
  rw [hs]
  exact h.serves (work?_granted hh) now v

/-- What is left when a call has gone on: it waits inside, or it has its answer and is gone. -/
inductive Leaves (s : Slot) (v : Visit) : Slot × Option Answer → Prop
  | waits {s'} (hv : s'.visits = v :: s.queue) (hl : s'.log = s.log) : Leaves s v (s', none)
  | answered {s' a e} (hv : s'.visits = s.queue) (hl : s'.log = .turn ⟨v, e, some a⟩ :: s.log) :
      Leaves s v (s', some a)

theorem Serves.leaves {v : Visit} {now : Nat} {r : Slot × Option Answer} (h : s.Serves now v r) : s.Leaves v r := by
  cases h with
  | launch | last | close => exact .waits rfl rfl
  | share | refuse | ignore | drop | forget => exact .answered (leave_visits _ _) (leave_log _ _)

theorem Lives.valid (h : s.Lives) : s.Valid := by
  induction h with
  | new key number => exact .new key number
  | step _ hs ih => exact ih.step hs

theorem Valid.come_eq (h : s.Valid) (v : Visit) : (s.come v).visits = s.visits ++ [v] ∧ (s.come v).work? = s.work? ∧
    (s.come v).log = .came v :: s.log ∧ (s.come v).key = s.key ∧ (s.come v).number = s.number ∧
    (s.come v).connections = s.connections ∧ (s.come v).current = s.current ∧ (s.come v).finished = s.finished ∧
    (s.come v).failure = s.failure := by
  unfold Slot.come
  split
  · rename_i hh
    exact ⟨by simp [visits, hh, h.idle hh, note], by simp [work?, hh], rfl, rfl, rfl, rfl, rfl, rfl, rfl⟩
  · rename_i hh
    exact ⟨by simp [visits, hh, note], rfl, rfl, rfl, rfl, rfl, rfl, rfl, rfl⟩

/-- What a call does to a slot is none of the others' business. -/
structure Change (s : Slot) (c : CallId) (s' : Slot) : Prop where
  lives : s'.Lives
  key : s'.key = s.key
  number : s'.number = s.number
  generation : s.generation ≤ s'.generation
  visits : ∀ v, v.call ≠ c → (v ∈ s'.visits ↔ v ∈ s.visits)
  turns : ∀ t, t.call ≠ c → (t ∈ s'.turns ↔ t ∈ s.turns)

namespace Change
variable {c : CallId}

theorem refl (h : s.Lives) (c : CallId) : s.Change c s :=
  ⟨h, rfl, rfl, Nat.le_refl _, fun _ _ => .rfl, fun _ _ => .rfl⟩

theorem trans {s' s'' : Slot} (h : s.Change c s') (h' : s'.Change c s'') : s.Change c s'' :=
  ⟨h'.lives, h'.key.trans h.key, h'.number.trans h.number, Nat.le_trans h.generation h'.generation,
    fun v hv => (h'.visits v hv).trans (h.visits v hv), fun t ht => (h'.turns t ht).trans (h.turns t ht)⟩

theorem leave {v : Visit} {stage : Stage} (hh : s.holder = some ⟨v, stage⟩) {x : Slot} {e : Ending}
    {a : Option Answer} (hl : (x.leave ⟨v, e, a⟩).Lives) (hkey : x.key = s.key)
    (hnumber : x.number = s.number) (hlog : x.log = s.log) (hqueue : x.queue = s.queue)
    (hlen : x.connections.length = s.connections.length) :
    s.Change v.call (x.leave ⟨v, e, a⟩) := by
  refine ⟨hl, by simp [hkey], by simp [hnumber], by simp [Slot.generation, hlen], ?_, ?_⟩
  · intro w hw
    have hne : w ≠ v := fun he => hw (congrArg Visit.call he)
    rw [leave_visits, hqueue]
    simp [Slot.visits, hh, hne]
  · intro t ht
    have hne : t ≠ ⟨v, e, a⟩ := fun he => ht (congrArg (·.call) he)
    simp [Slot.turns, hlog, Record.turn?, hne]

theorem inside {v : Visit} {stage stage' : Stage} (hh : s.holder = some ⟨v, stage⟩) {x : Slot} (hl : x.Lives)
    (hkey : x.key = s.key) (hnumber : x.number = s.number) (hlog : x.log = s.log) (hqueue : x.queue = s.queue)
    (hh' : x.holder = some ⟨v, stage'⟩) (hlen : s.connections.length ≤ x.connections.length) : s.Change c x :=
  ⟨hl, hkey, hnumber, hlen,
    fun w _ => by simp [Slot.visits, hh, hh', hqueue], fun t _ => by simp [Slot.turns, hlog]⟩

end Change

theorem Step.change (h : s.Lives) {c : CallId} {s' : Slot} (hs : s.Step c s') : s.Change c s' := by
  have hl := h.step hs
  cases hs with
  | @come v ha =>
    obtain ⟨hvisits, _, hlog, hkey, hnumber, hcs, _⟩ := h.valid.come_eq v
    refine ⟨hl, hkey, hnumber, by simp [generation, hcs], ?_, ?_⟩
    · intro w hw
      have hne : w ≠ v := fun he => hw (congrArg Visit.call he)
      simp [hvisits, hne]
    · intro t _
      simp [turns, hlog, Record.turn?]
  | serve hh hr =>
    cases hr with
    | share | refuse | ignore | drop | forget => exact .leave hh hl rfl rfl rfl rfl (by simp)
    | launch => exact .inside hh hl rfl rfl rfl rfl rfl (by simp [Slot.launch])
    | last | close => exact .inside hh hl rfl rfl rfl rfl rfl (by simp)
  | launched hh | failed hh => exact .leave hh hl rfl rfl rfl rfl (by simp)
  | stopped hh | dropLaunch hh | dropStop hh => exact .leave hh hl rfl rfl rfl rfl (by simp [modify])
  | @dropGranted v hh =>
    refine ⟨hl, by simp [note], by simp [note], by simp [note, generation], ?_, ?_⟩
    · intro w hw
      have hne : w ≠ v := fun he => hw (congrArg Visit.call he)
      rw [handOver_visits]
      simp [note, visits, hh, hne]
    · intro t _
      simp [turns, note, Record.turn?]
  | @dropQueued v hv =>
    refine ⟨hl, rfl, rfl, Nat.le_refl _, ?_, ?_⟩
    · intro w hw
      simp [note, visits, hw]
    · intro t _
      simp [turns, note, Record.turn?]

namespace Lives

theorem arrive (h : s.Lives) {v : Visit} (ha : s.Admits v) (now : Nat) : s.Change v.call (s.arrive now v).1 := by
  have hcome : s.Step v.call (s.come v) := .come ha
  cases hh : s.holder with
  | none =>
    have hserve : (s.come v).Step v.call (s.arrive now v).1 :=
      .serve (by simp [Slot.come, hh]) (h.valid.arrive_serves hh ha now)
    exact (hcome.change h).trans (hserve.change (h.step hcome))
  | some x =>
    have hs : s.arrive now v = (s.come v, none) := by simp [Slot.arrive, Slot.come, hh]
    rw [hs]
    exact hcome.change h

section Holder
variable {x : Holder}

/-- The holder of the gate, if anything, does a step. -/
theorem enter_step (h : s.Lives) (hh : s.holder = some x) (now : Nat) :
    (s.enter now).1 = s ∨ s.Step x.call (s.enter now).1 := by
  obtain ⟨v, stage⟩ := x
  cases stage with
  | granted => exact .inr (.serve hh (h.valid.enter_serves hh now))
  | launching | stopping =>
    exact .inl (by simp only [Slot.enter, hh])

theorem launched_step (hh : s.holder = some x) (outcome : Except Error Process) :
    (s.launched outcome).1 = s ∨ s.Step x.call (s.launched outcome).1 := by
  obtain ⟨v, stage⟩ := x
  cases stage with
  | launching =>
    simp only [Slot.launched, hh]
    cases outcome with
    | ok p => exact .inr (.launched hh p)
    | error e => exact .inr (.failed hh e)
  | granted | stopping =>
    exact .inl (by simp only [Slot.launched, hh])

theorem stopped_step (hh : s.holder = some x) : s.stopped.1 = s ∨ s.Step x.call s.stopped.1 := by
  obtain ⟨v, stage⟩ := x
  cases stage with
  | stopping =>
    simp only [Slot.stopped, hh]
    exact .inr (.stopped hh)
  | granted | launching =>
    exact .inl (by simp only [Slot.stopped, hh])

end Holder

theorem abandon_step (s : Slot) (c : CallId) : s.abandon c = s ∨ s.Step c (s.abandon c) := by
  unfold Slot.abandon
  split
  · rename_i v stage hh
    split
    · rename_i hv
      subst hv
      cases stage with
      | granted => exact .inr (.dropGranted hh)
      | launching => exact .inr (.dropLaunch hh)
      | stopping => exact .inr (.dropStop hh)
    · split
      · rename_i hq
        obtain ⟨w, hw, hc⟩ := List.any_eq_true.1 hq
        obtain rfl : w.call = c := by simpa using hc
        exact .inr (.dropQueued hw)
      · exact .inl rfl
  · exact .inl rfl

theorem change_of_step (h : s.Lives) {s' : Slot} {c : CallId} (hs : s' = s ∨ s.Step c s') : s.Change c s' := by
  rcases hs with rfl | hs
  · exact .refl h c
  · exact hs.change h

theorem enter (h : s.Lives) {x : Holder} (hh : s.holder = some x) (now : Nat) :
    s.Change x.call (s.enter now).1 := h.change_of_step (h.enter_step hh now)

theorem launched (h : s.Lives) {x : Holder} (hh : s.holder = some x) (outcome : Except Error Process) :
    s.Change x.call (s.launched outcome).1 := h.change_of_step (launched_step hh outcome)

theorem stopped (h : s.Lives) {x : Holder} (hh : s.holder = some x) : s.Change x.call s.stopped.1 :=
  h.change_of_step (stopped_step hh)

theorem abandon (h : s.Lives) (c : CallId) : s.Change c (s.abandon c) := h.change_of_step (abandon_step s c)

end Lives

/-- A call that comes either joins the others or has its answer and is gone again. -/
theorem Valid.arrive_leaves (h : s.Valid) {v : Visit} (ha : s.Admits v) (now : Nat) :
    ((s.arrive now v).2 = none ∧ (s.arrive now v).1.visits = s.visits ++ [v] ∧ (s.arrive now v).1.turns = s.turns) ∨
    ∃ e a, (s.arrive now v).2 = some a ∧ (s.arrive now v).1.visits = s.visits ∧
      (s.arrive now v).1.turns = ⟨v, e, some a⟩ :: s.turns := by
  obtain ⟨hvisits, _, hlog, _⟩ := h.come_eq v
  have hturns : (s.come v).turns = s.turns := by
    rw [turns, hlog]
    exact List.filterMap_cons_none rfl
  cases hh : s.holder with
  | none =>
    have hempty : s.visits = [] := by simp [visits, hh, h.idle hh]
    have hqueue : (s.come v).queue = [] := by simp [Slot.come, hh, note, h.idle hh]
    have hleaves := (h.arrive_serves hh ha now).leaves
    generalize s.arrive now v = r at hleaves
    cases hleaves with
    | waits hv hl => exact .inl ⟨rfl, by rw [hv, hqueue, hempty]; rfl, by rw [turns, hl]; exact hturns⟩
    | @answered _ a e hv hl =>
      refine .inr ⟨e, a, rfl, by rw [hv, hqueue, hempty], ?_⟩
      rw [turns, hl, ← hturns]
      rfl
  | some x =>
    have hs : s.arrive now v = (s.come v, none) := by simp [Slot.arrive, Slot.come, hh]
    rw [hs]
    exact .inl ⟨rfl, hvisits, hturns⟩

section Holder
variable {v : Visit} {stage : Stage}

theorem waits_refl (hh : s.holder = some ⟨v, stage⟩) : s.Leaves v (s, none) := .waits (by simp [visits, hh]) rfl

theorem launched_leaves (hh : s.holder = some ⟨v, stage⟩) (outcome : Except Error Process) :
    s.Leaves v (s.launched outcome) := by
  cases stage with
  | launching =>
    simp only [launched, hh]
    cases outcome <;> exact .answered (leave_visits _ _) (leave_log _ _)
  | granted | stopping =>
    simp only [launched, hh]
    exact waits_refl hh

theorem stopped_leaves (hh : s.holder = some ⟨v, stage⟩) : s.Leaves v s.stopped := by
  cases stage with
  | stopping =>
    simp only [stopped, hh]
    exact .answered (leave_visits _ _) (leave_log _ _)
  | granted | launching =>
    simp only [stopped, hh]
    exact waits_refl hh

end Holder

theorem abandon_visits (h : s.Valid) (c : CallId) :
    (s.abandon c).visits = s.visits.filter fun v => v.call ≠ c := by
  unfold Slot.abandon
  split
  · rename_i v stage hh
    split
    · rename_i hv
      subst hv
      rw [h.without_holder hh]
      cases stage <;> simp [note, modify]
    · rename_i hv
      split
      · simp [visits, note, hh, hv]
      · rename_i hany
        have hq : s.queue.filter (fun w => w.call ≠ c) = s.queue := by simpa using hany
        rw [visits, List.filter_append, hq]
        simp [hh, hv]
  · rename_i hh
    simp [visits, hh, h.idle hh]

end LanguageHost.Slot
