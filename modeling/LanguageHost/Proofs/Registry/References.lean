import LanguageHost.Proofs.Registry.Closing
import LanguageHost.Proofs.Registry.Drops
import LanguageHost.Proofs.Registry.Moves

/-! References to one connection, by the turns at its gate: those that hand one out and those that give one
back. As long as the connection is ready, what is between them is its count. -/
namespace LanguageHost

namespace Turn

/-- The turn hands out a reference to the connection. -/
def grants (id : ConnectionId) (t : Turn) : Bool :=
  match t.answer with
  | some (.acquired x) => x = id
  | _ => false

/-- The turn was asked for to give a reference to the connection back, and was answered. -/
def returns (id : ConnectionId) (t : Turn) : Bool :=
  match t.request, t.answer with
  | .release expected, some _ => expected.all (· = id)
  | _, _ => false

end Turn

namespace Tally
variable {number : Nat} {turns : List Turn} {id : ConnectionId}

def granted (id : ConnectionId) (turns : List Turn) : Nat := turns.countP (·.grants id)

/-- References given back in some turns, the latest first. Nobody gives back what nobody was given. -/
def returned (id : ConnectionId) : List Turn → Nat
  | [] => 0
  | t :: older => returned id older + if t.returns id = true ∧ 0 < granted id older then 1 else 0

theorem granted_cons (id : ConnectionId) (t : Turn) (older : List Turn) :
    granted id (t :: older) = granted id older + if t.grants id = true then 1 else 0 := List.countP_cons ..

theorem Runs.granted_launched (h : Runs number turns) (hg : 0 < granted id turns) :
    id.slot = number ∧ id.generation ≤ (of number turns).launches := by
  induction turns with
  | nil => cases hg
  | cons t older ih =>
    have hle : (of number older).launches ≤ (of number (t :: older)).launches := launches_le_after _ _ _
    by_cases hold : 0 < granted id older
    · obtain ⟨hslot, hgen⟩ := ih h.2 hold
      exact ⟨hslot, Nat.le_trans hgen hle⟩
    · have hnew : t.grants id = true := by
        by_contra hno
        rw [granted_cons, if_neg hno] at hg
        exact hold hg
      obtain ⟨ha, -⟩ := h
      cases ha with
      | share hr hn he =>
        obtain rfl := of_decide_eq_true hnew
        obtain ⟨rfl, -⟩ := entry_latest he
        exact ⟨rfl, hle⟩
      | launched hr hn p =>
        obtain rfl := of_decide_eq_true hnew
        refine ⟨rfl, Nat.le_of_eq ?_⟩
        simp [next, of, after, hr, hn, launch]
      | failed | launchGivenUp | turnedAway | kept | stopped | stopGivenUp | nothing | cleared | clearGivenUp =>
        cases hnew

theorem returned_none {turns : List Turn} (hg : granted id turns = 0) : returned id turns = 0 := by
  induction turns with
  | nil => rfl
  | cons t older ih =>
    have hold : granted id older = 0 := by
      rw [granted_cons] at hg
      omega
    rw [returned, ih hold, if_neg (by omega)]

/-- A ready connection has as many references as were handed out and not given back. -/
theorem Runs.references (h : Runs number turns) (he : (of number turns).entry = some (id, .ready)) :
    granted id turns = returned id turns + (of number turns).count ∧ 0 < (of number turns).count := by
  induction turns with
  | nil => cases he
  | cons t older ih =>
    rw [granted_cons, returned]
    rw [of] at he ⊢
    obtain ⟨ha, hruns⟩ := h
    generalize ht : of number older = tally at ha ih he ⊢
    cases ha with
    | @share v key document seen x hr hn hentry =>
      simp only [after, hr, hn, if_true] at he ⊢
      obtain ⟨hcount, hpos⟩ := ih hruns he
      obtain rfl : x = id := by simpa [hentry] using he
      simp only [Turn.grants, Turn.returns, hr, decide_true, if_true, Bool.false_eq_true, false_and, if_false]
      omega
    | @launched v key document seen hr hn p =>
      simp only [after, hr, hn, Nat.lt_irrefl, if_false, launch] at he ⊢
      obtain rfl : tally.next number = id := by simpa using he
      -- The connection is new, so nobody had been given a reference to it.
      have hnone : granted (tally.next number) older = 0 := by
        by_contra hsome
        have hle := (hruns.granted_launched (Nat.pos_of_ne_zero hsome)).2
        rw [ht] at hle
        exact absurd hle (Nat.not_succ_le_self _)
      simp [Turn.grants, Turn.returns, hr, hnone, returned_none hnone]
    | failed hr hn | launchGivenUp hr hn => simp [after, hr, hn, launch] at he
    | turnedAway hr hn =>
      simp only [after, hr, hn, Nat.lt_irrefl, if_false] at he
      exact absurd hn (Nat.ne_of_gt (ih hruns he).2)
    | @kept v expected hr hn =>
      have hentry : tally.entry = some (id, .ready) := by
        simp only [after, hr] at he
        split at he
        · split at he
          · exact he
          · cases he
          · exact he
        · exact he
      obtain ⟨hcount, hpos⟩ := ih hruns hentry
      have hmeans : tally.Means expected ↔ expected.all (· = id) = true := by
        cases expected <;> simp [Means, hentry, eq_comm]
      by_cases hm : tally.Means expected
      · obtain ⟨n, hn'⟩ : ∃ n, tally.count = n + 2 := ⟨tally.count - 2, by have := mt hn (not_not.2 hm); omega⟩
        simp only [after, hr, if_pos hm, hn', Turn.grants, Turn.returns, hmeans.1 hm, Bool.false_eq_true, if_false]
        rw [if_pos ⟨trivial, by omega⟩]
        omega
      · simp only [after, hr, if_neg hm, Turn.grants, Turn.returns, mt hmeans.2 hm, Bool.false_eq_true, false_and,
          if_false]
        omega
    | stopped hr hn hm | stopGivenUp hr hn hm => simp [after, hr, hn, hm, stop] at he
    | nothing hr hn => simp [after, hr, hn] at he
    | cleared hr hn | clearGivenUp hr hn => simp [after, hr, hn, stop] at he

/-- A turn that is over has taken back what it was asked to, and may have handed something out. -/
theorem answered_repays {t : Turn} {a : Answer} {n : Nat} (ha : t.answer = some a)
    (h : granted id turns ≤ returned id turns + (if t.request.returns id = true then 1 else 0) + n) :
    granted id (t :: turns) ≤ returned id (t :: turns) + n + if Answer.hand t.answer = some id then 1 else 0 := by
  have hgrants : t.grants id = true ↔ Answer.hand t.answer = some id := by
    rw [ha]
    cases a <;> simp [Turn.grants, Answer.hand, ha]
  have hreturns (hr : t.request.returns id = true) : t.returns id = true := by
    unfold Request.returns at hr
    split at hr
    · rename_i x hx
      simpa [Turn.returns, hx, ha] using hr
    · cases hr
  rw [granted_cons, returned, if_congr hgrants rfl rfl]
  by_cases hr : t.request.returns id = true
  · rw [if_pos hr] at h
    by_cases hg : 0 < granted id turns
    · have hboth : t.returns id = true ∧ 0 < granted id turns := ⟨hreturns hr, hg⟩
      rw [if_pos hboth]
      omega
    · omega
  · rw [if_neg hr] at h
    omega

theorem givenUp_cons {t : Turn} (ha : t.answer = none) (turns : List Turn) :
    granted id (t :: turns) = granted id turns ∧ returned id (t :: turns) = returned id turns := by
  have hgrants : t.grants id = false := by simp [Turn.grants, ha]
  have hreturns : t.returns id = false := by
    unfold Turn.returns
    split
    · rename_i hn
      cases ha.symm.trans hn
    · rfl
  simp [granted_cons, returned, hgrants, hreturns]

theorem after_clear {t : Turn} (hr : t.request = .clear) (number : Nat) (tally : Tally) :
    (tally.after number t).entry = none := by
  simp only [after, hr]
  split <;> rfl

theorem cleared_gone {newer older : List Turn} {t : Turn} (hr : t.request = .clear)
    (hid : id.generation ≤ (of number older).launches) (st : Status) :
    (of number (newer ++ t :: older)).entry ≠ some (id, st) := by
  refine entry_gone (Nat.le_trans hid (launches_le_after _ _ _)) (fun st => ?_) st
  simp [of, after_clear hr]

end Tally

namespace Slot
variable {s s' : Slot} {id : ConnectionId} {v : Visit} {n : Nat}

/-- All references to the connection that were handed out have been given back, but for those that are on their
way at the gate, and `n` elsewhere. -/
def Repays (s : Slot) (id : ConnectionId) (n : Nat) : Prop :=
  Tally.granted id s.turns ≤ Tally.returned id s.turns + s.releases id + n

/-- A call that goes on stays at the gate, or has its answer and is gone; only an acquire is handed something. -/
theorem serve_gate (s : Slot) (now : Nat) (v : Visit) :
    (s.serve now v).1.visits = ((s.serve now v).2.elim [v] fun _ => []) ++ s.queue ∧
      (¬v.request.Acquires → Answer.hand (s.serve now v).2 = none) := by
  have hstop {x : Slot} {d : Connection} {a : Answer} (hx : x.queue = s.queue) (ha : Answer.hand (some a) = none) :
      (x.stop now v d a).1.visits = ((x.stop now v d a).2.elim [v] fun _ => []) ++ s.queue ∧
        (¬v.request.Acquires → Answer.hand (x.stop now v d a).2 = none) := by
    unfold Slot.stop
    dsimp only
    split
    · exact ⟨congrArg (v :: ·) hx, fun _ => rfl⟩
    · exact ⟨(leave_visits _ _).trans hx, fun _ => ha⟩
  unfold serve
  split
  · rename_i hr
    refine ⟨?_, fun hno => absurd ⟨_, _, _, hr⟩ hno⟩
    unfold acquire
    split
    · exact leave_visits _ _
    · split
      · exact leave_visits _ _
      · rfl
  · unfold release
    split
    · exact ⟨leave_visits _ _, fun _ => rfl⟩
    · split
      · exact ⟨leave_visits _ _, fun _ => rfl⟩
      · exact hstop rfl rfl
      · exact ⟨leave_visits _ _, fun _ => rfl⟩
  · unfold clear
    dsimp only
    split
    · exact ⟨leave_visits _ _, fun _ => rfl⟩
    · split
      · exact hstop rfl rfl
      · exact ⟨leave_visits _ _, fun _ => rfl⟩

theorem repays_turn {e : Ending} {a : Answer} (hturns : s'.turns = ⟨v, e, some a⟩ :: s.turns)
    (h : Tally.granted id s.turns ≤
      Tally.returned id s.turns + s'.releases id + (if v.request.returns id = true then 1 else 0) + n) :
    s'.Repays id (n + if Answer.hand (some a) = some id then 1 else 0) := by
  have hover : Tally.granted id (⟨v, e, some a⟩ :: s.turns) ≤ Tally.returned id (⟨v, e, some a⟩ :: s.turns) +
      (s'.releases id + n) + if Answer.hand (some a) = some id then 1 else 0 :=
    Tally.answered_repays rfl (by dsimp only; omega)
  unfold Repays
  rw [hturns]
  omega

theorem Repays.leaves (h : s.Repays id n) {stage : Stage} (hh : s.holder = some ⟨v, stage⟩) {ans : Option Answer}
    (hl : s.Leaves v (s', ans)) : s'.Repays id (n + if Answer.hand ans = some id then 1 else 0) := by
  unfold Repays at h
  cases hl with
  | waits hv hlog =>
    have hreleases : s'.releases id = s.releases id := by
      rw [releases, hv, releases_holder hh, List.countP_cons]
    simpa [Repays, turns, hlog, hreleases, Answer.hand] using h
  | @answered _ a e hv hlog =>
    have hturns : s'.turns = ⟨v, e, some a⟩ :: s.turns := by
      rw [turns, hlog]
      rfl
    refine repays_turn hturns ?_
    rw [releases_holder hh] at h
    rw [releases, hv]
    omega

theorem Repays.arrive (h : s.Repays id (n + if v.request.returns id = true then 1 else 0)) (now : Nat) :
    (s.arrive now v).1.Repays id (n + if Answer.hand (s.arrive now v).2 = some id then 1 else 0) := by
  obtain ⟨e, hlog⟩ := (s.arrive_goes now v).log
  have hturns : (s.arrive now v).1.turns = ((s.arrive now v).2.toList.map fun a => ⟨v, e, some a⟩) ++ s.turns := by
    rw [turns, hlog, List.filterMap_append]
    cases (s.arrive now v).2 <;> rfl
  have hreleases : (s.arrive now v).1.releases id =
      s.releases id + if (s.arrive now v).2 = none ∧ v.request.returns id = true then 1 else 0 := by
    unfold Slot.arrive
    split
    · rename_i hh
      rw [releases, (serve_gate _ now v).1]
      cases ((s.note (.came v)).serve now v).2 <;> simp [releases, visits, hh, note, List.countP_cons]
    · rename_i hh
      simp only [releases, visits, hh, note, ← List.append_assoc, List.countP_append, List.countP_singleton, true_and]
  unfold Repays at h
  generalize s.arrive now v = out at hreleases hturns
  obtain ⟨s', ans⟩ := out
  cases ans with
  | none =>
    simp only [true_and] at hreleases
    have hturns : s'.turns = s.turns := hturns
    simp only [Repays, hturns, hreleases, Answer.hand, reduceCtorEq, if_false]
    omega
  | some a =>
    simp only [reduceCtorEq, false_and, if_false, Nat.add_zero] at hreleases
    refine repays_turn hturns ?_
    rw [hreleases]
    omega

theorem arrive_hand (s : Slot) (now : Nat) (hv : ¬v.request.Acquires) : Answer.hand (s.arrive now v).2 = none := by
  unfold arrive
  split
  · exact (serve_gate _ now v).2 hv
  · rfl

/-- A call that is given up leaves what it was about to give back to somebody else. -/
theorem Repays.abandon (h : s.Repays id n) (hs : s.Valid) {c : CallId} {m : Nat}
    (hm : ∀ v ∈ s.visits, v.call = c → v.request.returns id = true → 0 < m) : (s.abandon c).Repays id (n + m) := by
  have hturns : Tally.granted id (s.abandon c).turns = Tally.granted id s.turns ∧
      Tally.returned id (s.abandon c).turns = Tally.returned id s.turns := by
    rcases s.abandon_log c with hlog | ⟨r, hlog, rfl | ⟨v, _, _, rfl⟩⟩
    · rw [turns, hlog]
      exact ⟨rfl, rfl⟩
    · rw [turns, hlog]
      exact ⟨rfl, rfl⟩
    · rw [turns, hlog]
      exact Tally.givenUp_cons rfl s.turns
  have hreleases : s.releases id ≤ (s.abandon c).releases id + m := by
    rw [releases, releases, abandon_visits hs]
    by_cases hv : ∃ v ∈ s.visits, v.call = c
    · obtain ⟨v, hv, rfl⟩ := hv
      have hcount := countP_without hs.distinct hv fun w => w.request.returns id
      have hpos := hm v hv rfl
      split at hcount
      · have := hpos (by assumption)
        omega
      · omega
    · have hall : s.visits.filter (fun w => w.call ≠ c) = s.visits := by
        simpa using fun w hw hc => hv ⟨w, hw, hc⟩
      rw [hall]
      exact Nat.le_add_right _ _
  unfold Repays at h ⊢
  omega

/-- The connection was launched and is out of the slot's hands. -/
def Gone (s : Slot) (id : ConnectionId) : Prop :=
  id.generation ≤ s.tally.launches ∧ ∀ st, s.tally.entry ≠ some (id, st)

theorem Gone.grows {P : Record → Prop} (h : s.Gone id) (hg : s.Grows P s') : s'.Gone id := by
  obtain ⟨newer, hlog, _⟩ := hg.log
  have htally : s'.tally = .of s.number (newer.filterMap Record.turn? ++ s.turns) := by
    rw [tally, hg.number, turns, hlog, List.filterMap_append]
    rfl
  rw [Gone, htally]
  exact ⟨Nat.le_trans h.1 (Tally.launches_le_of ..), fun st => Tally.entry_gone h.1 h.2 st⟩

/-- A call that is given up while it gives back what it waits inside for has taken that out of the slot's hands. -/
theorem Lives.abandon_gone (h : s.Lives) {w : Work} (hw : s.work? = some (v, w))
    (hr : v.request = .release (some id)) : (s.abandon v.call).Gone id := by
  cases w with
  | launch =>
    obtain ⟨⟨_, _, _, hacquire⟩, _⟩ := h.counts.launching v hw
    cases hr.symm.trans hacquire
  | stop g answer =>
    obtain ⟨_, hentry, _, _, hfor⟩ := h.counts.stopping v g answer hw
    obtain ⟨expected, hr', hcount, hmeans, _⟩ | ⟨hr', _⟩ := hfor
    · obtain rfl := Request.release.inj (hr.symm.trans hr')
      obtain ⟨since, hh⟩ := holder_of_stop hw
      have htally : (s.abandon v.call).tally = s.tally.stop := by
        rw [abandon_stopping hh, leave_tally]
        show s.tally.after s.number ⟨v, .givenUp, none⟩ = _
        simp only [Tally.after, hr, if_pos hmeans, hcount]
      obtain rfl : id = ⟨s.number, g⟩ := by simpa [hentry, eq_comm] using hmeans id rfl
      refine ⟨?_, fun st => by simp [htally, Tally.stop]⟩
      have hlatest := (Tally.entry_latest hentry).1
      rw [ConnectionId.mk.injEq] at hlatest
      rw [htally]
      exact Nat.le_of_eq hlatest.2
    · cases hr.symm.trans hr'

/-- Whoever has come to a gate is there, or has had a turn, or has left before. -/
theorem Log.whereabouts {P : List Record → Turn → Prop} {newer older : List Record}
    (h : EachTurn (fun older t => (gate older).head? = some t.toVisit ∧ P older t) (newer ++ .came v :: older)) :
    v ∈ gate (newer ++ .came v :: older) ∨ (∃ t, t.toVisit = v ∧ .turn t ∈ newer) ∨ .left v.call ∈ newer := by
  induction newer with
  | nil => exact .inl (by simp [gate])
  | cons r newer ih =>
    rw [List.cons_append] at h ⊢
    obtain ⟨hturn, h⟩ := eachTurn_cons.1 h
    rcases ih h with hthere | ⟨t, ht, hmem⟩ | hleft
    · cases r with
      | came w => exact .inl (List.mem_append_left _ hthere)
      | left c =>
        by_cases hc : v.call = c
        · exact .inr (.inr (by rw [hc]; exact List.mem_cons_self))
        · exact .inl (List.mem_filter.2 ⟨hthere, decide_eq_true hc⟩)
      | turn t =>
        obtain ⟨hhead, _⟩ := hturn t rfl
        rw [List.eq_cons_of_mem_head? hhead] at hthere
        rcases List.mem_cons.1 hthere with he | hthere
        · exact .inr (.inl ⟨t, he.symm, List.mem_cons_self⟩)
        · exact .inl hthere
    · exact .inr (.inl ⟨t, ht, List.mem_cons_of_mem _ hmem⟩)
    · exact .inr (.inr (List.mem_cons_of_mem _ hleft))

/-- A call that came to clear a slot, and is neither there any more nor was given up before its turn, has taken all
that was launched before it came out of the slot's hands. -/
theorem Lives.cleared_gone (h : s'.Lives) {newer : List Record} (hnumber : s'.number = s.number)
    (hlog : s'.log = newer ++ .came v :: s.log) (hr : v.request = .clear) (hgone : v ∉ s'.visits)
    (hleft : .left v.call ∉ s'.log) (hid : id.generation ≤ s.tally.launches) : s'.Gone id := by
  obtain ⟨t, rfl, ht⟩ : ∃ t, t.toVisit = v ∧ .turn t ∈ newer := by
    rcases Log.whereabouts (hlog ▸ h.recalls.turns) with hthere | hturn | hl
    · rw [← hlog, ← h.recalls.gate] at hthere
      exact absurd hthere hgone
    · exact hturn
    · exact absurd (hlog ▸ List.mem_append_left _ hl) hleft
  obtain ⟨last, first, rfl⟩ := List.append_of_mem ht
  have hturns : s'.turns = last.filterMap Record.turn? ++ t :: (first.filterMap Record.turn? ++ s.turns) := by
    simp only [turns, hlog, List.append_assoc, List.cons_append, List.filterMap_append, List.filterMap_cons, Record.turn?]
  have hlaunched : id.generation ≤ (Tally.of s'.number (first.filterMap Record.turn? ++ s.turns)).launches := by
    rw [hnumber]
    exact Nat.le_trans hid (Tally.launches_le_of ..)
  rw [Gone, tally, hturns]
  refine ⟨?_, Tally.cleared_gone hr hlaunched⟩
  have hturn := Tally.launches_le_of s'.number [t] (first.filterMap Record.turn? ++ s.turns)
  exact Nat.le_trans hlaunched (Nat.le_trans hturn (Tally.launches_le_of ..))

/-- The count of a ready connection is what has not been given back. -/
theorem Lives.repays_iff (h : s.Lives) {i : Nat} {c : Connection} (hc : s.Ready i c) :
    s.Repays ⟨s.number, i + 1⟩ n ↔ c.refs ≤ s.releases ⟨s.number, i + 1⟩ + n := by
  obtain ⟨hcount, hentry, _⟩ := h.valid.shown_ready hc
  rw [h.counts.outside (h.valid.outside_of_ready hc)] at hcount hentry
  have hgranted : Tally.granted ⟨s.number, i + 1⟩ s.turns =
      Tally.returned ⟨s.number, i + 1⟩ s.turns + s.tally.count := (h.counts.runs.references hentry).1
  unfold Repays
  omega

/-- A connection that is ready had been ready, or has yet to be handed to anybody. -/
theorem Lives.ready_before (h : s.Lives) (h' : s'.Lives) {P : Record → Prop} (hg : s.Grows P s') {i : Nat}
    {c : Connection} (hc : s'.Ready i c) :
    (∃ d, s.Ready i d) ∨ Tally.granted ⟨s.number, i + 1⟩ s.turns = 0 := by
  have hnew (hlaunches : s.tally.launches ≤ i) : Tally.granted ⟨s.number, i + 1⟩ s.turns = 0 := by
    by_contra hsome
    have hlaunched : i + 1 ≤ s.tally.launches := (h.counts.runs.granted_launched (Nat.pos_of_ne_zero hsome)).2
    omega
  cases hd : s.connections[i]? with
  | none => exact .inr (hnew (Nat.le_trans h.launches_le (List.getElem?_eq_none_iff.1 hd)))
  | some d =>
    obtain ⟨c', hc', hages⟩ := hg.connections i d hd
    obtain rfl := Option.some.inj (hc.2.1.symm.trans hc')
    have hstates := hages.states
    have hlawful := h'.valid.lawful hc.2.1
    simp only [Connection.Lawful, hc.2.2] at hlawful
    rw [hc.2.2, hlawful.2.2.2] at hstates
    have hfits := h.valid.table.fits i d hd
    -- It has been starting, and nothing else before.
    have hstatus : d.status = .ready ∨ d.status = .starting := by
      have hmem : d.status ∈ [Status.ready, Status.starting] := hstates.subset List.mem_cons_self
      simpa using hmem
    rcases hstatus with hs | hs
    · rw [hs] at hfits
      exact .inl ⟨d, hfits, hd, hs⟩
    · rw [hs] at hfits
      obtain ⟨-, hlast, hwork⟩ := hfits
      obtain ⟨⟨v, w⟩, hw, rfl⟩ := Option.map_eq_some_iff.1 hwork
      have hgen := (h.counts.launching v hw).2.2.1
      have hlen : s.generation = s.connections.length := rfl
      exact .inr (hnew (by omega))

theorem Lives.cleared_not_ready (h : s.Lives) {older : List Record} {t : Turn} (hlog : s.log = .turn t :: older)
    (hr : t.request = .clear) {i : Nat} {c : Connection} : ¬s.Ready i c := by
  intro hc
  obtain ⟨_, hentry, _⟩ := h.valid.shown_ready hc
  rw [h.counts.outside (h.valid.outside_of_ready hc), tally, turns, hlog] at hentry
  rw [List.filterMap_cons] at hentry
  simp [Record.turn?, Tally.of, Tally.after_clear hr] at hentry

theorem Lives.arrive_not_ready (h : s.Lives) (hh : s.holder = none) (now : Nat) (c : CallId) {i : Nat}
    {d : Connection} : ¬(s.arrive now ⟨c, .clear⟩).1.Ready i d := by
  have hidle : s.visits = [] := by simp [visits, hh, h.valid.idle hh]
  have hserves := h.valid.arrive_serves (v := ⟨c, .clear⟩) hh ⟨by simp [hidle], by simp⟩ now
  rintro ⟨hcurrent, _⟩
  generalize s.arrive now ⟨c, .clear⟩ = r at hserves hcurrent
  cases hserves with
  | forget => simp at hcurrent
  | close => cases hcurrent
  | share hr | refuse hr | launch hr | ignore hr | drop hr | last hr => cases hr

theorem Lives.gone_not_ready (h : s.Lives) {i : Nat} {c : Connection} (hgone : s.Gone ⟨s.number, i + 1⟩) :
    ¬s.Ready i c := by
  intro hc
  obtain ⟨_, hentry, _⟩ := h.valid.shown_ready hc
  rw [h.counts.outside (h.valid.outside_of_ready hc)] at hentry
  exact hgone.2 _ hentry

/-- At a gate that nobody is at, a connection all of whose references were given back is not ready. -/
theorem Lives.not_ready (h : s.Lives) (hidle : s.visits = []) {i : Nat} {c : Connection}
    (hid : s.Gone ⟨s.number, i + 1⟩ ∨ s.Repays ⟨s.number, i + 1⟩ 0) : ¬s.Ready i c := by
  intro hc
  rcases hid with hgone | hrepaid
  · exact h.gone_not_ready hgone hc
  · have hrefs := (h.repays_iff hc).1 hrepaid
    have hpos := (h.valid.ready_process hc).1
    have hnobody : s.releases ⟨s.number, i + 1⟩ = 0 := by simp [releases, hidle]
    omega

end Slot

end LanguageHost
