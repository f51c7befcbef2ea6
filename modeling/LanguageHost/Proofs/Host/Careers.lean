import LanguageHost.Proofs.Host.Happens
import LanguageHost.Proofs.Registry.Closing

/-! The life of every connection, from one moment of a run to the next, and who closes it. -/
namespace LanguageHost

namespace ConnectionId

theorem sort_increasing {ids : List ConnectionId} (h : ids.Nodup) :
    (sort ids).Pairwise fun a b => a.before b = true := by
  have htrans (a b c : ConnectionId) (hab : !b.before a) (hbc : !c.before b) : !c.before a := by
    simp [before] at *
    omega
  have htotal (a b : ConnectionId) : !b.before a || !a.before b := by
    simp [before]
    omega
  have hsorted : (sort ids).Pairwise fun a b => !b.before a := List.pairwise_mergeSort htrans htotal ids
  have hnodup : (sort ids).Nodup := (List.mergeSort_perm ids _).nodup_iff.2 h
  refine (hsorted.and hnodup).imp ?_
  rintro ⟨i, g⟩ ⟨j, k⟩ ⟨hle, hne⟩
  simp [before] at *
  omega

end ConnectionId

namespace Connection
variable {c : Connection}

/-- What can be seen of a connection at any moment. -/
structure Lived (c : Connection) : Prop where
  states : (c.status :: c.past).reverse <+: [.starting, .ready, .shuttingDown, .closed] ∨
    (c.status :: c.past).reverse <+: [.starting, .failed]
  refs : (c.status = .starting ∧ c.refs = 1) ∨ (c.status = .ready ∧ 0 < c.refs) ∨
    ((c.status = .failed ∨ c.status = .shuttingDown ∨ c.status = .closed) ∧ c.refs = 0)
  process : c.process.isSome = true ↔ c.status = .ready
  pid : c.pid?.isSome = true → c.status = .ready
  /-- Its server has been told to stop once, if the connection has left the ready state, and else never. -/
  stops : c.stops = if .ready ∈ c.past then 1 else 0

theorem Lawful.lived (h : c.Lawful) : c.Lived := by
  unfold Lawful at h
  split at h <;> rename_i hs <;> obtain ⟨hrefs, hprocess, hstops, hpast⟩ := h <;>
    refine ⟨?_, ?_, ?_, ?_, ?_⟩ <;> simp_all [pid?, List.prefix_iff_eq_take]

end Connection

namespace Slot
variable {s : Slot}

/-- What can be seen of the connections of a slot at any moment. -/
structure Careers (s : Slot) : Prop where
  lived : ∀ d ∈ s.connections, d.Lived
  closed : ∀ d ∈ s.connections, d.status = .closed ↔
    ∃! p : List Record × Turn × List Record, s.log = p.1 ++ .turn p.2.1 :: p.2.2 ∧
      Log.Closes s.number d.id p.2.2 p.2.1

theorem Lives.careers (h : s.Lives) : s.Careers := by
  refine ⟨fun d hd => ?_, fun d hd => ?_⟩
  · obtain ⟨j, hj⟩ := List.mem_iff_getElem?.1 hd
    exact (h.valid.lawful hj).lived
  · obtain ⟨j, hj⟩ := List.mem_iff_getElem?.1 hd
    rw [h.closings j d hj]
    constructor
    · rintro ⟨newer, t, older, hlog, ht⟩
      refine ⟨(newer, t, older), ⟨hlog, ht⟩, ?_⟩
      rintro ⟨newer', t', older'⟩ ⟨hlog', ht'⟩
      obtain ⟨rfl, rfl, rfl⟩ := ht'.unique ht (hlog'.symm.trans hlog)
      rfl
    · rintro ⟨⟨newer, t, older⟩, ⟨hlog, ht⟩, _⟩
      exact ⟨newer, t, older, hlog, ht⟩

end Slot

/-- The connection that was closed, by what the call was answered. -/
def Answer.closes : Answer → List ConnectionId
  | .cleared id => id.toList
  | _ => []

namespace Host
variable {h h' : Host} {c : CallId} {i : Nat} {id : ConnectionId} {waiting : List Nat} {closed : List ConnectionId}

/-- The call has closed the connection as it cleared the slot. -/
def ClearedAt (h : Host) (c : CallId) (i : Nat) (id : ConnectionId) : Prop :=
  ∃ (s : Slot) (t : Turn), h.registry.slots[i]? = some s ∧ .turn t ∈ s.log ∧ t.call = c ∧ t.request = .clear ∧
    t.answer = some (.cleared (some id))

/-- What a call that clears has closed so far, each in a slot of its own in which it does not wait any more. -/
def Swept (h : Host) (c : CallId) (waiting : List Nat) (closed : List ConnectionId) : Prop :=
  ∃ slots : List Nat, List.Forall₂ (h.ClearedAt c) slots closed ∧ (slots ++ waiting).Nodup

/-- A call that clears accounts for what it has closed. -/
def Accounts (h : Host) (c : CallId) : Progress → Prop
  | .clearing waiting closed _ => h.Swept c waiting closed
  | .ended (.closed ids) => ∃ closed, ids = ConnectionId.sort closed ∧ h.Swept c [] closed
  | _ => True

theorem ClearedAt.since (hc : h.ClearedAt c i id) (hs : h.Since h') : h'.ClearedAt c i id := by
  obtain ⟨s, t, hi, ht, hrest⟩ := hc
  obtain ⟨s', hi', hg⟩ := hs.slots i s hi
  obtain ⟨newer, hlog, _⟩ := hg.log
  exact ⟨s', t, hi', by simp [hlog, ht], hrest⟩

theorem Swept.since (hw : h.Swept c waiting closed) (hs : h.Since h') : h'.Swept c waiting closed := by
  obtain ⟨slots, hall, hnodup⟩ := hw
  exact ⟨slots, hall.imp fun _ _ hc => hc.since hs, hnodup⟩

theorem Accounts.since {p : Progress} (ha : h.Accounts c p) (hs : h.Since h') : h'.Accounts c p := by
  cases p with
  | clearing => exact Swept.since ha hs
  | ended r =>
    cases r with
    | closed ids =>
      obtain ⟨closed, he, hw⟩ := ha
      exact ⟨closed, he, hw.since hs⟩
    | connection | failed | released | done | dropped | crashed => trivial
  | fresh | acquiring | releasing | releasingSession | reopening | opening | discarding | closing => trivial

theorem clearSlots_since (h : Host) (c : CallId) (l : List Nat) : h.Since (h.clearSlots c l).1 :=
  .of_works ((Works.refl (t := .shutdownAll) (c := c)).clearSlots l)

theorem visit_clearedAt (hv : h.visit c i .clear = (h', some (.cleared (some id)))) : h'.ClearedAt c i id := by
  cases hs : h.registry.slots[i]? with
  | none => simp [Host.visit, hs] at hv
  | some s =>
    rw [visit_eq h hs] at hv
    obtain ⟨rfl, ha⟩ := Prod.mk.inj hv
    obtain ⟨e, hlog⟩ := (s.arrive_goes h.now ⟨c, .clear⟩).log
    refine ⟨_, ⟨⟨c, .clear⟩, e, some (.cleared (some id))⟩, setSlot_slot hs _, ?_, rfl, rfl, rfl⟩
    rw [hlog, ha]
    simp

theorem clearSlots_swept (l : List Nat) (hl : l.Nodup) (h : Host) :
    ∃ slots : List Nat, List.Forall₂ ((h.clearSlots c l).1.ClearedAt c) slots (h.clearSlots c l).2.2 ∧
      (slots ++ (h.clearSlots c l).2.1).Nodup ∧ ∀ j ∈ slots ++ (h.clearSlots c l).2.1, j ∈ l := by
  induction l generalizing h with
  | nil => exact ⟨[], .nil, by simp [clearSlots], by simp [clearSlots]⟩
  | cons i rest ih =>
    obtain ⟨hi, hrest⟩ := List.nodup_cons.1 hl
    cases hv : h.visit c i .clear with
    | mk h₁ ans =>
      obtain ⟨slots, hall, hnodup, hsub⟩ := ih hrest h₁
      have hwaits : ∃ slots' : List Nat, List.Forall₂ ((h₁.clearSlots c rest).1.ClearedAt c) slots'
          (h₁.clearSlots c rest).2.2 ∧ (slots' ++ i :: (h₁.clearSlots c rest).2.1).Nodup ∧
          ∀ j ∈ slots' ++ i :: (h₁.clearSlots c rest).2.1, j ∈ i :: rest := by
        refine ⟨slots, hall, ?_, fun j hj => ?_⟩
        · rw [List.nodup_middle]
          exact List.nodup_cons.2 ⟨fun hm => hi (hsub i hm), hnodup⟩
        · rcases List.perm_middle.mem_iff.1 hj |> List.mem_cons.1 with rfl | hj
          · exact List.mem_cons_self
          · exact List.mem_cons_of_mem _ (hsub j hj)
      unfold clearSlots
      rw [hv]
      cases ans with
      | none => exact hwaits
      | some a =>
        cases a with
        | acquired | refused | released => exact hwaits
        | cleared closed =>
          cases closed with
          | none => exact ⟨slots, hall, hnodup, fun j hj => List.mem_cons_of_mem _ (hsub j hj)⟩
          | some id =>
            have hat := (visit_clearedAt hv).since (clearSlots_since h₁ c rest)
            refine ⟨i :: slots, .cons hat hall, ?_, fun j hj => ?_⟩
            · exact List.nodup_cons.2 ⟨fun hm => hi (hsub i hm), hnodup⟩
            · rcases List.mem_cons.1 hj with rfl | hj
              · exact List.mem_cons_self
              · exact List.mem_cons_of_mem _ (hsub j hj)

theorem shutdownAll_accounts (h : Host) (c : CallId) {x : Call} (hx : h.call? c = some x) (report : Bool) :
    ∃ p, (h.shutdownAll c report).progress? c = some p ∧ (h.shutdownAll c report).Accounts c p := by
  have hswept := clearSlots_swept (c := c) _ (List.nodup_range (n := h.registry.slots.length)) h
  have hx' := ((Works.refl (t := .shutdownAll) (c := c)).clearSlots (List.range h.registry.slots.length)).call hx
  unfold shutdownAll
  generalize h.clearSlots c (List.range h.registry.slots.length) = out at hswept hx'
  obtain ⟨h₁, waiting, closed⟩ := out
  obtain ⟨slots, hall, hnodup, _⟩ := hswept
  obtain ⟨x', hx', _⟩ := hx'
  have hset (p : Progress) := progress?_setProgress hx' p
  cases waiting with
  | nil =>
    refine ⟨_, hset _, ?_⟩
    cases report
    · trivial
    · exact ⟨closed, rfl, slots, hall, hnodup⟩
  | cons i waiting => exact ⟨_, hset _, slots, hall, hnodup⟩

theorem answered_clearing {report : Bool} (hp : h.progress? c = some (.clearing waiting closed report)) (a : Answer) :
    h.answered c i a = match waiting.filter (· ≠ i) with
      | [] => h.finishClear c (a.closes ++ closed) report
      | waiting => h.setProgress c (.clearing waiting (a.closes ++ closed) report) := by
  unfold answered
  rw [hp]
  cases a <;> rfl

theorem answered_accounts {s' : Slot} {s : Slot} {v : Visit} {a : Answer} {x : Call} {report : Bool}
    (hs : h.registry.slots[i]? = some s) (hg : s.Goes v (s', some a)) (hspares : s.Spares v.call s')
    (hx : h.call? v.call = some x) (hw : h.Waits x i v.request) (hp : x.progress = .clearing waiting closed report)
    (ha : h.Swept v.call waiting closed) :
    ∃ p, ((h.setSlot i s').answered v.call i a).progress? v.call = some p ∧
      ((h.setSlot i s').answered v.call i a).Accounts v.call p := by
  have hsince : h.Since (h.setSlot i s') :=
    .of_works ((Works.refl (t := .shutdownAll)).setSlot hs hg.grows hspares)
  have hx' : (h.setSlot i s').call? v.call = some x := by
    rw [call?, setSlot_calls]
    exact hx
  have hset (p : Progress) := progress?_setProgress hx' p
  obtain ⟨hclear, hi⟩ : v.request = .clear ∧ i ∈ waiting := by
    generalize v.request = r at hw
    cases hw <;> simp_all [releasing?]
  obtain ⟨slots, hall, hnodup⟩ := ha.since hsince
  obtain ⟨_, _, hdisjoint⟩ := List.nodup_append.1 hnodup
  have hrest : (slots ++ waiting.filter (· ≠ i)).Nodup := hnodup.sublist (List.filter_sublist.append_left _)
  have hswept : (h.setSlot i s').Swept v.call (waiting.filter (· ≠ i)) (a.closes ++ closed) := by
    cases a with
    | acquired | refused | released => exact ⟨slots, hall, hrest⟩
    | cleared id =>
      cases id with
      | none => exact ⟨slots, hall, hrest⟩
      | some id =>
        obtain ⟨e, hlog⟩ := hg.log
        have hmem : Record.turn ⟨v, e, some (.cleared (some id))⟩ ∈ s'.log := by
          rw [show s'.log = _ from hlog]
          simp
        refine ⟨i :: slots, .cons ⟨s', _, setSlot_slot hs s', hmem, rfl, hclear, rfl⟩ hall, ?_⟩
        refine List.nodup_cons.2 ⟨?_, hrest⟩
        simpa using fun hm => hdisjoint i hm i hi rfl
  rw [answered_clearing (by rw [progress?, hx', Option.map_some, hp])]
  split
  · rename_i hnil
    rw [hnil] at hswept
    refine ⟨_, hset _, ?_⟩
    cases report
    · trivial
    · exact ⟨_, rfl, hswept⟩
  · exact ⟨_, hset _, hswept⟩

/-- Every call accounts for what it has closed. -/
def AllAccount (h : Host) : Prop := ∀ c x, h.call? c = some x → h.Accounts c x.progress

theorem accounts_of_other {t : Task} {p : Progress} (hp : t.Reaches p) (ht : ∀ report, ¬t.Clears report) :
    h.Accounts c p := by
  cases t with
  | shutdownAll => exact absurd trivial (ht true)
  | shutdownLifecycle => exact absurd trivial (ht false)
  | acquire | release | releaseConnection | releaseSession | openEditor | closeEditor =>
    cases p with
    | clearing => exact hp.elim
    | ended r => cases r <;> trivial
    | fresh | acquiring | releasing | releasingSession | reopening | opening | discarding | closing => trivial

theorem crash_ended {x : Call} (hx : h.call? c = some x) (hp : ∀ r, x.progress ≠ .ended r) :
    (h.crash c).progress? c = some (.ended .done) ∨ (h.crash c).progress? c = some (.ended .crashed) := by
  have hkeep {h₁ : Host} (hw : Works .shutdownLifecycle c h h₁) (r : Result) :
      (h₁.finish c r).progress? c = some (.ended r) := by
    obtain ⟨x', hx', _⟩ := hw.call hx
    exact progress?_setProgress hx' (.ended r)
  have hinterrupt := (Works.refl (t := .shutdownLifecycle) (c := c) (h := h)).interrupt x.progress
  rw [Ordered.crash_eq hx hp]
  split
  · exact .inl (hkeep (hinterrupt.withdraw trivial _ _) _)
  · exact .inl (hkeep (hinterrupt.withdraw trivial _ _) _)
  · exact .inl (hkeep (hinterrupt.withdraw trivial _ _) _)
  · exact .inl (hkeep hinterrupt _)
  · exact .inr (hkeep hinterrupt _)

theorem begin_accounts {task : Task} (hx : h.call? c = some ⟨task, .fresh⟩) (hstaged : (h.begin c task).Staged) :
    ∀ x, (h.begin c task).call? c = some x → (h.begin c task).Accounts c x.progress := by
  intro x hx'
  have hthis {p : Progress} (hp : (h.begin c task).progress? c = some p ∧ (h.begin c task).Accounts c p) :
      (h.begin c task).Accounts c x.progress := by
    rw [progress?, hx'] at hp
    obtain rfl := Option.some.inj hp.1
    exact hp.2
  obtain ⟨y, hy, htask, _⟩ := (Works.refl (h := h)).begin.call hx
  obtain rfl := Option.some.inj (hx'.symm.trans hy)
  cases task with
  | shutdownAll =>
    obtain ⟨p, hp⟩ := shutdownAll_accounts h c hx true
    exact hthis hp
  | shutdownLifecycle =>
    obtain ⟨z, hz, _⟩ := ((Works.refl (t := .shutdownLifecycle) (c := c)).drained trivial).call hx
    obtain ⟨p, hp⟩ := shutdownAll_accounts h.drained c hz false
    exact hthis hp
  | acquire | release | releaseConnection | releaseSession | openEditor | closeEditor =>
    refine accounts_of_other (hstaged c x hx') ?_
    rw [htask]
    exact fun report hr => by cases report <;> exact hr

theorem Happens.accounts {actor : Option CallId} {task : Option Task} (hh : h.Happens actor task h')
    (hstaged : h.Staged) (ha : h.AllAccount) : h'.AllAccount := by
  have hstaged' := hh.staged hstaged
  have hsince : h.Since h' := by
    obtain ⟨t, d, _, _, hw⟩ := hh.works hstaged
    exact .of_works hw
  intro c x' hx'
  rcases hh.call_back hstaged hx' with ⟨x, hx, htask, hother⟩ | ⟨_, hfresh⟩
  · have hthis {p : Progress} (hp : h'.progress? c = some p) (hp' : h'.Accounts c p) : h'.Accounts c x'.progress := by
      rw [progress?, hx'] at hp
      obtain rfl := Option.some.inj hp
      exact hp'
    have hkept (he : x' = x) : h'.Accounts c x'.progress := he ▸ (ha c x hx).since hsince
    by_cases hc : actor = some c
    · cases hh with
      | calm => exact hkept (Option.some.inj (hx'.symm.trans hx))
      | made | wrapped => cases hc
      | begins hd =>
        obtain rfl := Option.some.inj hc
        exact begin_accounts hd hstaged' x' hx'
      | waits =>
        rw [call?, setSlot_calls] at hx'
        exact hkept (Option.some.inj (hx'.symm.trans hx))
      | @answered i s v stage s' a y hs hl _ hg hm hy hw =>
        obtain rfl := Option.some.inj hc
        obtain rfl := Option.some.inj (hy.symm.trans hx)
        rcases hw.clears with ⟨waiting, closed, report, hp⟩ | hno
        · have hswept := ha _ y hx
          rw [hp] at hswept
          obtain ⟨p, hp, hp'⟩ := answered_accounts hs hg (hl.spares hm) hx hw hp hswept
          exact hthis hp hp'
        · exact accounts_of_other (hstaged' _ x' hx') (by rwa [htask])
      | @dropped d y hy _ =>
        obtain rfl := Option.some.inj hc
        obtain ⟨z, hz, _⟩ := ((Works.refl (t := .shutdownAll) (c := d)).interrupt y.progress).call hy
        exact hthis (progress?_setProgress hz (.ended .dropped)) trivial
      | crashed hy hp =>
        obtain rfl := Option.some.inj hc
        rcases crash_ended hy hp with he | he
        · exact hthis he trivial
        · exact hthis he trivial
    · exact hkept (hother hc)
  · rw [hfresh]
    trivial

theorem run_accounts (bounds : Bounds) (events : List Event) : ((Host.new bounds).run events).AllAccount :=
  run_chronicle bounds events (γ := Unit) (f := fun _ _ g => g) (P := fun h _ => h.AllAccount) (g := ())
    (fun c x hx => by simp [Host.new, call?] at hx) fun _ _ _ _ hstaged hh ha => hh.accounts hstaged ha

/-- What a call that clears has closed: each in its own slot, by the call's turn at the gate there. -/
theorem Swept.distinct (hsound : h.registry.Sound) (hw : h.Swept c waiting closed) :
    (closed.map ConnectionId.slot).Nodup ∧ ∀ id ∈ closed, h.ClearedAt c id.slot id := by
  obtain ⟨slots, hall, hnodup⟩ := hw
  have hslot {i : Nat} {id : ConnectionId} (hc : h.ClearedAt c i id) : i = id.slot := by
    obtain ⟨s, t, hs, ht, _, _, ha⟩ := hc
    obtain ⟨newer, older, hlog⟩ := List.append_of_mem ht
    have hcloses := (hsound.lives i s hs).cleared_closes hlog ha
    rw [(Tally.entry_latest hcloses.entry).1]
    exact (hsound.numbers i s hs).symm
  have hboth : slots = closed.map ConnectionId.slot ∧ ∀ id ∈ closed, h.ClearedAt c id.slot id := by
    clear hnodup
    induction hall with
    | nil => exact ⟨rfl, by simp⟩
    | cons hc _ ih =>
      rw [List.map_cons, ← hslot hc, ih.1]
      refine ⟨rfl, fun id hid => ?_⟩
      rcases List.mem_cons.1 hid with rfl | hid
      · rwa [← hslot hc]
      · exact ih.2 id hid
  exact ⟨hboth.1 ▸ (List.nodup_append.1 hnodup).1, hboth.2⟩

theorem ClearedAt.once (hsound : h.registry.Sound) (hc : h.ClearedAt c id.slot id) :
    (∃ d, h.registry.byId? id = some d ∧ d.status = .closed) ∧ ∀ c', h.ClearedAt c' id.slot id → c' = c := by
  obtain ⟨s, t, hs, ht, rfl, hr, ha⟩ := hc
  have hl := hsound.lives _ s hs
  obtain ⟨newer, older, hlog⟩ := List.append_of_mem ht
  have hcloses := hl.cleared_closes hlog ha
  refine ⟨?_, ?_⟩
  · obtain ⟨hpos, d, hd, _, hclosed⟩ := hl.closed_connection ⟨newer, t, older, hlog, hcloses⟩
    exact ⟨d, by simp [Registry.byId?, hs, Slot.connection?, Nat.ne_of_gt hpos, hd], hclosed⟩
  · rintro c' ⟨s', t', hs', ht', rfl, _, ha'⟩
    obtain rfl := Option.some.inj (hs.symm.trans hs')
    obtain ⟨newer', older', hlog'⟩ := List.append_of_mem ht'
    obtain ⟨_, rfl, _⟩ := (hl.cleared_closes hlog' ha').unique hcloses (hlog'.symm.trans hlog)
    rfl

/-- What a call that clears all slots returns. -/
theorem Accounts.returned (hsound : h.registry.Sound) {ids : List ConnectionId}
    (ha : h.Accounts c (.ended (.closed ids))) :
    ids.Pairwise (fun a b => a.before b = true) ∧ ∀ id ∈ ids, h.ClearedAt c id.slot id := by
  obtain ⟨closed, rfl, hswept⟩ := ha
  obtain ⟨hnodup, hclosed⟩ := hswept.distinct hsound
  exact ⟨ConnectionId.sort_increasing (List.Nodup.of_map _ hnodup),
    fun id hid => hclosed id ((List.mergeSort_perm closed _).mem_iff.1 hid)⟩

theorem Since.byId? (hs : h.Since h') {d : Connection} (hd : h.registry.byId? id = some d) :
    ∃ d', h'.registry.byId? id = some d' ∧ d.Ages d' := by
  obtain ⟨s, hi, hc⟩ := Option.bind_eq_some_iff.1 hd
  obtain ⟨s', hi', hg⟩ := hs.slots _ s hi
  unfold Slot.connection? at hc
  split at hc
  · cases hc
  · rename_i hpos
    obtain ⟨d', hd', hages⟩ := hg.connections _ d hc
    exact ⟨d', by simp [Registry.byId?, hi', Slot.connection?, hpos, hd'], hages⟩

/-- At every moment of every run each connection has been through a beginning of one of the two ways of a
connection's life, with the references, the process and the shutdowns that belong to where it is, and if it
is closed then by one turn at the gate of its key; what it has been through is never undone; and what calls
that clear all slots return is in strict order, closed by themselves, and returned by no other call. -/
theorem connection_careers (bounds : Bounds) (events : List Event) :
    let h := (Host.new bounds).run events
    (∀ s ∈ h.registry.slots, s.Careers) ∧
    (∀ events' id d, h.registry.byId? id = some d →
      ∃ d', (h.run events').registry.byId? id = some d' ∧ d.Ages d') ∧
    (∀ c ids, h.progress? c = some (.ended (.closed ids)) → ids.Pairwise (fun a b => a.before b = true) ∧
      ∀ id ∈ ids, h.ClearedAt c id.slot id ∧ ∃ d, h.registry.byId? id = some d ∧ d.status = .closed) ∧
    ∀ c c' ids ids' id, h.progress? c = some (.ended (.closed ids)) → h.progress? c' = some (.ended (.closed ids')) →
      id ∈ ids → id ∈ ids' → c = c' := by
  intro h
  have hsound : h.registry.Sound := (run_ordered bounds events).sound
  have hreturned {c : CallId} {ids : List ConnectionId} (hp : h.progress? c = some (.ended (.closed ids))) :
      ids.Pairwise (fun a b => a.before b = true) ∧ ∀ id ∈ ids, h.ClearedAt c id.slot id := by
    obtain ⟨x, hx, hp⟩ := Option.map_eq_some_iff.1 hp
    have ha := run_accounts bounds events c x hx
    rw [hp] at ha
    exact ha.returned hsound
  refine ⟨fun s hs => ?_, fun events' id d hd => (run_since bounds events events').byId? hd, fun c ids hp => ?_,
    fun c c' ids ids' id hp hp' hid hid' => ?_⟩
  · obtain ⟨i, hi⟩ := List.mem_iff_getElem?.1 hs
    exact (hsound.lives i s hi).careers
  · obtain ⟨hincreasing, hclosed⟩ := hreturned hp
    exact ⟨hincreasing, fun id hid => ⟨hclosed id hid, ((hclosed id hid).once hsound).1⟩⟩
  · exact (((hreturned hp').2 id hid').once hsound).2 c ((hreturned hp).2 id hid)

end Host
end LanguageHost
