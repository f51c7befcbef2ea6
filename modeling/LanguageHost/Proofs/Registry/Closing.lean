import LanguageHost.Proofs.Registry.Growth
import LanguageHost.Proofs.Registry.Sharing

/-! Which turn at the gate closes a connection: exactly one for each connection that is closed. -/
namespace LanguageHost

namespace Tally
variable {t : Tally} {number : Nat} {turn : Turn} {id : ConnectionId} {st : Status} {newer older : List Turn}

/-- A turn counts references, launches a connection, stops one, or takes away an entry without references. -/
theorem after_cases (number : Nat) (t : Tally) (turn : Turn) :
    (∃ n, t.after number turn = { t with count := n }) ∨ (∃ n st, t.after number turn = t.launch number n st) ∨
    t.after number turn = t.stop ∨ t.after number turn = { t with entry := none } := by
  have hsame : ∃ n, t = { t with count := n } := ⟨t.count, rfl⟩
  unfold after
  split
  · split
    · exact .inl ⟨_, rfl⟩
    · split
      · exact .inr (.inl ⟨_, _, rfl⟩)
      · exact .inr (.inl ⟨_, _, rfl⟩)
      · exact .inr (.inl ⟨_, _, rfl⟩)
      · exact .inl hsame
      · exact .inl hsame
  · split
    · split
      · exact .inl hsame
      · exact .inr (.inr (.inl rfl))
      · exact .inl ⟨_, rfl⟩
    · exact .inl hsame
  · split
    · exact .inr (.inr (.inl rfl))
    · exact .inr (.inr (.inr rfl))

/-- An entry stays until it is taken away, and a new one is that of a new launch. -/
theorem entry_after (h : (t.after number turn).entry = some (id, st)) :
    (t.entry = some (id, st) ∧ (t.after number turn).launches = t.launches) ∨
      (id = t.next number ∧ (t.after number turn).launches = t.launches + 1) := by
  rcases after_cases number t turn with ⟨n, he⟩ | ⟨n, st', he⟩ | he | he <;> rw [he] at h ⊢
  · exact .inl ⟨h, rfl⟩
  · exact .inr ⟨(Prod.mk.inj (Option.some.inj h)).1.symm, rfl⟩
  · cases h
  · cases h

theorem launches_le_after (number : Nat) (t : Tally) (turn : Turn) :
    t.launches ≤ (t.after number turn).launches := by
  rcases after_cases number t turn with ⟨n, he⟩ | ⟨n, st', he⟩ | he | he
  · exact Nat.le_of_eq (congrArg launches he).symm
  · exact Nat.le_trans (Nat.le_succ _) (Nat.le_of_eq (congrArg launches he).symm)
  · exact Nat.le_of_eq (congrArg launches he).symm
  · exact Nat.le_of_eq (congrArg launches he).symm

theorem after_stops (h : (t.after number turn).stops = t.stops + 1) : t.after number turn = t.stop := by
  rcases after_cases number t turn with ⟨n, he⟩ | ⟨n, st', he⟩ | he | he
  · rw [he] at h
    exact absurd h.symm (Nat.succ_ne_self _)
  · rw [he] at h
    exact absurd h.symm (Nat.succ_ne_self _)
  · exact he
  · rw [he] at h
    exact absurd h.symm (Nat.succ_ne_self _)

theorem launches_le_of (number : Nat) (newer older : List Turn) :
    (of number older).launches ≤ (of number (newer ++ older)).launches := by
  induction newer with
  | nil => exact Nat.le_refl _
  | cons turn newer ih => exact Nat.le_trans ih (launches_le_after _ _ _)

theorem entry_latest {turns : List Turn} (h : (of number turns).entry = some (id, st)) :
    id = ⟨number, (of number turns).launches⟩ ∧ 0 < (of number turns).launches := by
  induction turns with
  | nil => cases h
  | cons turn turns ih =>
    rcases entry_after h with ⟨ho, hl⟩ | ⟨rfl, hl⟩
    · rw [of, hl]
      exact ih ho
    · rw [of, hl]
      exact ⟨rfl, Nat.succ_pos _⟩

/-- A connection that was launched and is no entry will never be one again. -/
theorem entry_gone (hid : id.generation ≤ (of number older).launches)
    (hno : ∀ st, (of number older).entry ≠ some (id, st)) (st : Status) :
    (of number (newer ++ older)).entry ≠ some (id, st) := by
  induction newer generalizing st with
  | nil => exact hno st
  | cons turn newer ih =>
    intro h
    rcases entry_after h with ⟨ho, _⟩ | ⟨rfl, _⟩
    · exact ih st ho
    · have hle := launches_le_of number newer older
      exact absurd (Nat.le_trans hid hle) (Nat.not_succ_le_self _)

end Tally

namespace Connection
variable {c d : Connection}

theorem Ages.closed (h : c.Ages d) (hc : c.Lawful) (hd : d.Lawful) (hs : c.status = .closed) : d.status = .closed := by
  simp only [Lawful, hs] at hc
  have hlen := h.states.length_le
  rw [List.length_cons, List.length_cons, hc.2.2.2] at hlen
  unfold Lawful at hd
  split at hd
  · simp_all
  · simp_all
  · simp_all
  · simp_all
  · assumption

end Connection

namespace Slot

namespace Log
variable {number : Nat} {id : ConnectionId} {log older : List Record} {t : Turn} {r : Record}

/-- The turn closes the connection: it was the ready entry, and its server has been told to stop. -/
structure Closes (number : Nat) (id : ConnectionId) (older : List Record) (t : Turn) : Prop where
  entry : (tally number older).entry = some (id, .ready)
  stops : (tally number (.turn t :: older)).stops = (tally number older).stops + 1

theorem Closes.after (h : Closes number id older t) : tally number (.turn t :: older) = (tally number older).stop :=
  Tally.after_stops h.stops

def Closed (number : Nat) (id : ConnectionId) (log : List Record) : Prop :=
  ∃ newer t older, log = newer ++ .turn t :: older ∧ Closes number id older t

theorem closed_cons : Closed number id (r :: log) ↔
    (∃ t, r = .turn t ∧ Closes number id log t) ∨ Closed number id log := by
  constructor
  · rintro ⟨newer, t, older, hlog, ht⟩
    cases newer with
    | nil =>
      obtain ⟨rfl, rfl⟩ := List.cons.inj hlog
      exact .inl ⟨t, rfl, ht⟩
    | cons r' newer => exact .inr ⟨newer, t, older, (List.cons.inj hlog).2, ht⟩
  · rintro (⟨t, rfl, ht⟩ | ⟨newer, t, older, rfl, ht⟩)
    · exact ⟨[], t, log, rfl, ht⟩
    · exact ⟨r :: newer, t, older, rfl, ht⟩

theorem closed_quiet (hr : r.turn? = none) : Closed number id (r :: log) ↔ Closed number id log := by
  rw [closed_cons]
  refine or_iff_right ?_
  rintro ⟨t, rfl, _⟩
  cases hr

theorem Closed.launched (h : Closed number id log) :
    id.slot = number ∧ 0 < id.generation ∧ id.generation ≤ (tally number log).launches := by
  obtain ⟨newer, t, older, rfl, ht⟩ := h
  have hle := Tally.launches_le_of number ((newer ++ [Record.turn t]).filterMap Record.turn?)
      (older.filterMap Record.turn?)
  rw [← List.filterMap_append, List.append_assoc] at hle
  obtain ⟨rfl, hpos⟩ := Tally.entry_latest ht.entry
  exact ⟨rfl, hpos, hle⟩

theorem Closed.gone (h : Closed number id log) (st : Status) : (tally number log).entry ≠ some (id, st) := by
  obtain ⟨newer, t, older, rfl, ht⟩ := h
  have hid := (Tally.entry_latest ht.entry).1
  have hafter := ht.after
  rw [tally, List.filterMap_append]
  refine Tally.entry_gone ?_ (fun st => ?_) st
  · show id.generation ≤ (tally number (.turn t :: older)).launches
    rw [hafter, hid]
    exact Nat.le_refl _
  · show (tally number (.turn t :: older)).entry ≠ _
    rw [hafter]
    simp [Tally.stop]

theorem Closes.unique {newer newer' older' : List Record} {t' : Turn}
    (h : Closes number id older t) (h' : Closes number id older' t')
    (hlog : newer ++ .turn t :: older = newer' ++ .turn t' :: older') : newer = newer' ∧ t = t' ∧ older = older' := by
  have hno {n o : List Record} {u u' : Turn} {n' o' : List Record} (hu : Closes number id o u)
      (hu' : Closes number id o' u') (he : .turn u :: o = n' ++ .turn u' :: o') : n' = [] := by
    cases n' with
    | nil => rfl
    | cons r n' =>
      obtain ⟨_, he⟩ := List.cons.inj he
      exact absurd hu.entry (Closed.gone ⟨n', u', o', he, hu'⟩ _)
  rcases List.append_eq_append_iff.1 hlog with ⟨as, rfl, he⟩ | ⟨as, rfl, he⟩
  · obtain rfl := hno (n := []) h h' he
    simpa using he
  · obtain rfl := hno (n := []) h' h he
    simpa [eq_comm] using he

end Log

variable {s s' : Slot} {c : Connection} {i : Nat}

theorem leave_tally (x : Slot) (t : Turn) : (x.leave t).tally = Log.tally x.number (.turn t :: x.log) := by
  rw [tally, leave_number, turns, leave_log]
  rfl

/-- The closed connections are those that a turn has closed. -/
def Closings (s : Slot) : Prop :=
  ∀ (j : Nat) (d : Connection), s.connections[j]? = some d → (d.status = .closed ↔ Log.Closed s.number d.id s.log)

/-- The same connections, as far as their identity and being closed go. -/
private def Alike (cs ds : List Connection) : Prop :=
  ∀ (j : Nat) (d : Connection), ds[j]? = some d →
    ∃ c : Connection, cs[j]? = some c ∧ d.id = c.id ∧ (d.status = .closed ↔ c.status = .closed)

private theorem alike_modify {cs : List Connection} (hc : cs[i]? = some c) {f : Connection → Connection}
    (hid : (f c).id = c.id) (hf : (f c).status ≠ .closed) (hs : c.status ≠ .closed) : Alike cs (cs.modify i f) := by
  intro j d hd
  rw [List.getElem?_modify] at hd
  by_cases hij : i = j
  · subst hij
    obtain rfl : f c = d := by simpa [hc] using hd
    exact ⟨c, hc, hid, iff_of_false hf hs⟩
  · exact ⟨d, by simpa [hij] using hd, rfl, .rfl⟩

private theorem sum_stops {cs : List Connection} (hc : cs[i]? = some c) {f : Connection → Connection}
    (hf : (f c).stops = c.stops) : ((cs.modify i f).map Connection.stops).sum = (cs.map Connection.stops).sum := by
  have := Connection.stops_modify hc f
  omega

namespace Closings

private theorem keep (h : s.Closings) (hnumber : s'.number = s.number) (hcs : Alike s.connections s'.connections)
    (hlog : ∀ id, Log.Closed s.number id s'.log ↔ Log.Closed s.number id s.log) : s'.Closings := by
  intro j d hd
  obtain ⟨c, hc, hid, hiff⟩ := hcs j d hd
  rw [hnumber, hid, hlog, hiff]
  exact h j c hc

private theorem turn (h : s.Closings) {x : Slot} {t : Turn} (hcount : (x.leave t).Counts)
    (hnumber : x.number = s.number)
    (hlog : x.log = s.log) (hcs : Alike s.connections x.connections)
    (hsum : (x.connections.map Connection.stops).sum = s.tally.stops) : (x.leave t).Closings := by
  refine h.keep (by simpa using hnumber) (by simpa using hcs) fun id => ?_
  rw [leave_log, hlog, Log.closed_cons, or_iff_right]
  rintro ⟨u, hu, hcloses⟩
  obtain rfl := Record.turn.inj hu
  have hstops := congrArg Tally.stops (hcount.outside (leave_work? _ _))
  rw [leave_tally, hnumber, hlog, leave_shown] at hstops
  have hkept : s.tally.stops = (Log.tally s.number (.turn t :: s.log)).stops := hsum.symm.trans hstops
  have hone := hcloses.stops
  rw [← hkept] at hone
  exact absurd hone.symm (Nat.succ_ne_self _)

theorem serve (h : s.Closings) (hv : s.Valid) (hc : s.Counts) {v : Visit} (hh : s.holder = some ⟨v, .granted⟩)
    {now : Nat} {r : Slot × Option Answer} (hr : s.Serves now v r) : r.1.Closings := by
  have hsum : (s.connections.map Connection.stops).sum = s.tally.stops :=
    congrArg Tally.stops (hc.outside (Valid.work?_granted hh))
  have hcount := hc.serve hv hh hr
  have halike : Alike s.connections s.connections := fun _ d hd => ⟨d, hd, rfl, .rfl⟩
  have hbegin {i c} (hready : s.Ready i c) : Alike s.connections (s.connections.modify i Connection.beginClose) := by
    have hstatus := ((hv.lawful hready.2.1).beginClose hready.2.2).2
    exact alike_modify hready.2.1 c.beginClose_id (by simp [hstatus]) (by simp [hready.2.2])
  cases hr with
  | @share _ _ _ i c _ hready | @drop _ i c _ _ hready =>
    refine h.turn hcount rfl rfl (alike_modify hready.2.1 rfl ?_ (by simp [hready.2.2])) ?_
    · simp [hready.2.2]
    · exact (sum_stops hready.2.1 rfl).trans hsum
  | refuse | ignore | forget => exact h.turn hcount rfl rfl halike hsum
  | last _ hready | close _ hready => exact h.keep rfl (hbegin hready) fun _ => .rfl
  | @launch key document _ _ _ _ =>
    intro j d hd
    have hd : (s.connections ++ [Connection.launching ⟨s.number, s.generation + 1⟩ key document])[j]? = some d := hd
    rw [List.getElem?_append] at hd
    split at hd
    · exact h j d hd
    · rw [List.getElem?_singleton] at hd
      split at hd
      · obtain rfl := Option.some.inj hd
        refine iff_of_false (by simp [Connection.launching]) fun hclosed => ?_
        have hgen : s.generation = s.tally.launches :=
          congrArg Tally.launches (hc.outside (Valid.work?_granted hh))
        have hle : s.generation + 1 ≤ s.tally.launches := hclosed.launched.2.2
        omega
      · cases hd

private theorem launchOver (h : s.Closings) (hv : s.Valid) (hc : s.Counts) {v : Visit} {since : Nat}
    (hh : s.holder = some ⟨v, .launching since⟩) {f : Connection → Connection} {x : Slot} {t : Turn}
    (hx : x.connections = s.connections.modify (s.generation - 1) f) (hnumber : x.number = s.number)
    (hlog : x.log = s.log) (hf : ∀ c, (f c).id = c.id ∧ (f c).stops = c.stops ∧ (f c).status ≠ .closed)
    (hcount : (x.leave t).Counts) : (x.leave t).Closings := by
  obtain ⟨_, c, hlast, hstarting, _⟩ := (hv.table_launching hh).launching_last
  obtain ⟨hid, hstops, hstatus⟩ := hf c
  have hsum : s.shown.stops = s.tally.stops := (hc.launching v (by simp [work?, hh])).2.2.2
  refine h.turn hcount hnumber hlog ?_ ?_
  · rw [hx]
    exact alike_modify hlast hid hstatus (by simp [hstarting])
  · rw [hx]
    exact (sum_stops hlast hstops).trans hsum

private theorem stopOver (h : s.Closings) (hv : s.Valid) (hc : s.Counts) {v : Visit} {g since : Nat} {answer : Answer}
    (hh : s.holder = some ⟨v, .stopping g answer since⟩) {e : Ending} {a : Option Answer}
    (hcount : ((s.modify g Connection.endStop).leave ⟨v, e, a⟩).Counts) :
    ((s.modify g Connection.endStop).leave ⟨v, e, a⟩).Closings := by
  obtain ⟨_, hpos, c, hstopped, hstatus⟩ := (hv.table_stopping hh).stopping g answer rfl
  obtain ⟨_, hentry, _, hstops, _⟩ := hc.stopping v g answer (by simp [work?, hh])
  have hsum := sum_stops (f := Connection.endStop) hstopped rfl
  have htold := congrArg Tally.stops (hcount.outside (leave_work? _ _))
  have hid : c.id = ⟨s.number, g⟩ := by
    rw [hv.id_eq hstopped, Nat.sub_add_cancel hpos]
  have hcloses : Log.Closes s.number ⟨s.number, g⟩ s.log ⟨v, e, a⟩ := by
    refine ⟨hentry, ?_⟩
    rw [leave_shown, leave_tally] at htold
    exact (htold.symm.trans hsum).trans hstops
  intro j d hd
  rw [leave_connections, Slot.modify, List.getElem?_modify] at hd
  rw [leave_log, leave_number]
  show d.status = .closed ↔ Log.Closed s.number d.id (.turn ⟨v, e, a⟩ :: s.log)
  by_cases hj : g - 1 = j
  · subst hj
    obtain rfl : c.endStop = d := by simpa [hstopped] using hd
    refine iff_of_true rfl (Log.closed_cons.2 (.inl ⟨_, rfl, ?_⟩))
    show Log.Closes s.number c.id s.log _
    rwa [hid]
  · obtain hd : s.connections[j]? = some d := by simpa [hj] using hd
    rw [Log.closed_cons, or_iff_right]
    · exact h j d hd
    · rintro ⟨u, hu, hu'⟩
      obtain rfl := Record.turn.inj hu
      have := Option.some.inj (hu'.entry.symm.trans hentry)
      rw [Prod.mk.injEq, hv.id_eq hd, ConnectionId.mk.injEq] at this
      omega

theorem step (h : s.Closings) (hv : s.Valid) (hc : s.Counts) {call : CallId} (hstep : s.Step call s') :
    s'.Closings := by
  have hcount := hc.step hv hstep
  have halike : Alike s.connections s.connections := fun _ d hd => ⟨d, hd, rfl, .rfl⟩
  cases hstep with
  | @come v ha =>
    obtain ⟨_, _, hlog, _, hnumber, hcs, _⟩ := hv.come_eq v
    refine h.keep hnumber (by rwa [hcs]) fun id => ?_
    rw [hlog]
    exact Log.closed_quiet rfl
  | serve hh hr => exact h.serve hv hc hh hr
  | launched hh p =>
    exact h.launchOver hv hc hh rfl rfl rfl
      (fun c => ⟨rfl, rfl, by simp [Connection.attach, Connection.setStatus]⟩) hcount
  | failed hh | dropLaunch hh =>
    exact h.launchOver hv hc hh rfl rfl rfl
      (fun c => ⟨rfl, rfl, by simp [Connection.fail, Connection.setStatus]⟩) hcount
  | stopped hh => exact h.stopOver hv hc hh hcount
  | dropStop hh => exact h.stopOver hv hc hh hcount
  | dropGranted hh =>
    refine h.keep (handOver_number _) (by simpa [note] using halike) fun id => ?_
    rw [handOver_log]
    exact Log.closed_quiet rfl
  | dropQueued hw => exact h.keep rfl halike fun id => Log.closed_quiet rfl

end Closings

/-- In every slot a connection is closed just if a turn has closed it. -/
theorem Lives.closings (h : s.Lives) : s.Closings := by
  induction h with
  | new key number => simp [Closings, Slot.new]
  | step h hs ih => exact ih.step h.valid h.counts hs

theorem Lives.launches_le (h : s.Lives) : s.tally.launches ≤ s.generation := by
  cases hw : s.work? with
  | none => exact Nat.le_of_eq (congrArg Tally.launches (h.counts.outside hw)).symm
  | some w =>
    obtain ⟨v, w⟩ := w
    cases w with
    | launch => exact Nat.le_of_succ_le (Nat.le_of_eq (h.counts.launching v hw).2.2.1.symm)
    | stop g answer => exact Nat.le_of_eq (h.counts.stopping v g answer hw).2.2.1.symm

theorem Lives.closed_connection (h : s.Lives) {id : ConnectionId} (hc : Log.Closed s.number id s.log) :
    0 < id.generation ∧ ∃ d, s.connections[id.generation - 1]? = some d ∧ d.id = id ∧ d.status = .closed := by
  obtain ⟨hslot, hpos, hle⟩ := hc.launched
  have hlt : id.generation - 1 < s.connections.length := by
    have : id.generation ≤ s.connections.length := Nat.le_trans hle h.launches_le
    omega
  obtain ⟨d, hd⟩ : ∃ d, s.connections[id.generation - 1]? = some d := ⟨_, List.getElem?_eq_getElem hlt⟩
  have hid : d.id = id := by
    rw [h.valid.id_eq hd, Nat.sub_add_cancel hpos, ← hslot]
  refine ⟨hpos, d, hd, hid, (h.closings _ d hd).2 ?_⟩
  rw [hid]
  exact hc

theorem Lives.allows (h : s.Lives) {newer older : List Record} {t : Turn} (hlog : s.log = newer ++ .turn t :: older) :
    (Log.tally s.number older).Allows s.number t := by
  have hruns := h.counts.runs
  rw [turns, hlog, List.filterMap_append] at hruns
  exact hruns.allows (t := t)

theorem Lives.cleared_closes (h : s.Lives) {newer older : List Record} {t : Turn} {id : ConnectionId}
    (hlog : s.log = newer ++ .turn t :: older) (ha : t.answer = some (.cleared (some id))) :
    Log.Closes s.number id older t := by
  cases h.allows hlog with
  | cleared hr hn he =>
    obtain rfl : _ = id := by simpa using ha
    refine ⟨he, ?_⟩
    show ((Log.tally s.number older).after s.number _).stops = _
    simp [Tally.after, hr, hn, Tally.stop]
  | share | launched | failed | launchGivenUp | turnedAway | kept | stopped | stopGivenUp | nothing | clearGivenUp =>
    simp at ha

end Slot
end LanguageHost
