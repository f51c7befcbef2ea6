import LanguageHost.Proofs.Registry.Owners

/-! All that a step of its holder can do to a slot: to who is there, to references, and to the
connection it hands out. -/
namespace LanguageHost.Slot

variable {s : Slot} {i : Nat} {v : Visit} {stage : Stage} {n : ConnectionId → Nat} {due : Prop} {now : Nat}

/-- What is handed out is the ready connection of the slot. -/
def Hands (s : Slot) (r : Slot × Option Answer) : Prop :=
  ∀ id, Answer.hand r.2 = some id → ∃ i, id = ⟨s.number, i + 1⟩ ∧ ∃ c, r.1.Ready i c

/-- The holder of the gate has done a step. -/
structure Moves (s : Slot) (v : Visit) (r : Slot × Option Answer) : Prop where
  change : s.Change v.call r.1
  leaves : s.Leaves v r
  owned : ∀ n due, s.Proper → n ⟨s.number, s.generation + 1⟩ = 0 → s.Owned n none due →
    r.1.Owned n (Answer.hand r.2) due
  serving : ∀ n due i, s.Proper → s.Owned n none due → s.Serving i → 0 < n ⟨s.number, i + 1⟩ → r.1.Serving i
  hands : s.Hands r
  empty : ¬v.request.Acquires → Answer.hand r.2 = none

theorem hands_none {a : Option Answer} (ha : Answer.hand a = none) (s' : Slot) : s.Hands (s', a) := by
  intro id hid
  simp [ha] at hid

theorem Serves.hands {r : Slot × Option Answer} (hr : s.Serves now v r) : s.Hands r := by
  cases hr with
  | @share _ _ _ i c _ hc =>
    intro id hid
    obtain rfl : ⟨s.number, i + 1⟩ = id := Option.some.inj hid
    refine ⟨i, rfl, { c with refs := c.refs + 1 }, by simpa using hc.1, by simp [hc.2.1], hc.2.2⟩
  | refuse | launch | ignore | drop | last | forget | close => exact hands_none rfl _

theorem Serves.empty {r : Slot × Option Answer} (hr : s.Serves now v r) (hv : ¬v.request.Acquires) :
    Answer.hand r.2 = none := by
  cases hr with
  | share hr => exact absurd ⟨_, _, _, hr⟩ hv
  | refuse | launch | ignore | drop | last | forget | close => rfl

namespace Lives

theorem arrive_hands (hl : s.Lives) (ha : s.Admits v) (now : Nat) : s.Hands (s.arrive now v) := by
  obtain ⟨_, _, _, _, hnumber, _⟩ := hl.valid.come_eq v
  cases hh : s.holder with
  | none =>
    intro id hid
    rw [← hnumber]
    exact (hl.valid.arrive_serves hh ha now).hands id hid
  | some x =>
    have hs : s.arrive now v = (s.come v, none) := by simp [Slot.arrive, Slot.come, hh]
    rw [hs]
    exact hands_none rfl _

theorem arrive_empty (hl : s.Lives) (ha : s.Admits v) (now : Nat) (hv : ¬v.request.Acquires) :
    Answer.hand (s.arrive now v).2 = none := by
  cases hh : s.holder with
  | none => exact (hl.valid.arrive_serves hh ha now).empty hv
  | some x => simp [Slot.arrive, hh, Answer.hand]

theorem stay (hl : s.Lives) (hh : s.holder = some ⟨v, stage⟩) : s.Moves v (s, none) :=
  ⟨.refl hl _, waits_refl hh, fun _ _ _ _ h => h, fun _ _ _ _ _ hi _ => hi, hands_none rfl _, fun _ => rfl⟩

theorem enter_moves (hl : s.Lives) (hh : s.holder = some ⟨v, stage⟩) (now : Nat) : s.Moves v (s.enter now) := by
  cases stage with
  | granted =>
    have hserves := hl.valid.enter_serves hh now
    exact ⟨hl.enter hh now, hserves.leaves, fun _ _ hp hn h => hserves.owned hl.valid hp hh hn h,
      fun _ _ _ hp h hi hn => hserves.serving hp hh h hi hn, hserves.hands, hserves.empty⟩
  | launching | stopping =>
    have hs : s.enter now = (s, none) := by simp only [Slot.enter, hh]
    rw [hs]
    exact hl.stay hh

/-- A launch that succeeds hands its reference out. -/
theorem launched_owned (hl : s.Lives) (h : s.Owned n none due) (outcome : Except Error Process) :
    (s.launched outcome).1.Owned n (Answer.hand (s.launched outcome).2) due := by
  unfold Slot.launched
  split
  · rename_i v since hh
    obtain ⟨⟨key, document, seen, hr⟩, _⟩ := hl.counts.launching v (by simp [work?, hh])
    obtain ⟨hpos, c, hc, hs, hcur⟩ := (hl.valid.table_launching hh).launching_last
    have hlast {j : Nat} (hj : s.current = some (j + 1)) : j = s.connections.length - 1 := by
      have := hj.symm.trans hcur
      simp only [Option.some.injEq] at this
      omega
    cases outcome with
    | ok p =>
      rw [reply_fst, reply_snd]
      refine h.leave hh (by simp [hr]) (by rfl) (by rfl) (by rfl) fun j c' hg hc' _ => ?_
      obtain rfl := hlast hg
      obtain rfl : c.attach p = c' := by simpa [Slot.modify, generation, hc] using hc'
      have hlen : s.connections.length - 1 + 1 = s.connections.length := Nat.sub_add_cancel hpos
      refine ⟨c, hc, by simp [Connection.isLive, hs, Status.isLive], ?_⟩
      simp [hr, Request.returns, Answer.hand, launchers, work?, hh, Connection.attach, Connection.setStatus,
        generation, hlen]
    | error e =>
      refine owned_of_dead fun j c' hg hc' => ?_
      simp only [reply_fst, leave_current, leave_connections, Slot.modify, generation] at hg hc'
      obtain rfl := hlast hg
      obtain rfl : c.fail = c' := by simpa [hc] using hc'
      rfl
  · exact h

theorem stopped_owned (hl : s.Lives) (h : s.Owned n none due) :
    s.stopped.1.Owned n (Answer.hand s.stopped.2) due := by
  unfold Slot.stopped
  split
  · rename_i v g answer since hh
    obtain ⟨hnone, _⟩ := (hl.valid.table_stopping hh).stopping g answer rfl
    exact owned_of_none (by simpa [Slot.modify] using hnone)
  · exact h

theorem launched_hands (hl : s.Lives) (outcome : Except Error Process) : s.Hands (s.launched outcome) := by
  unfold Slot.launched
  split
  · rename_i v since hh
    obtain ⟨hpos, c, hc, hs, hcur⟩ := (hl.valid.table_launching hh).launching_last
    have hlen : s.connections.length - 1 + 1 = s.connections.length := Nat.sub_add_cancel hpos
    cases outcome with
    | ok p =>
      intro id hid
      obtain rfl : ⟨s.number, s.generation⟩ = id := Option.some.inj hid
      refine ⟨s.connections.length - 1, by rw [hlen]; rfl, c.attach p, ?_, ?_, rfl⟩
      · simpa [Slot.modify, hlen] using hcur
      · simp [Slot.modify, generation, hc]
    | error e => exact hands_none rfl _
  · exact hands_none rfl _

theorem launched_moves (hl : s.Lives) (hh : s.holder = some ⟨v, stage⟩) (outcome : Except Error Process) :
    s.Moves v (s.launched outcome) := by
  cases stage with
  | launching since =>
    refine ⟨hl.launched hh outcome, launched_leaves hh outcome, fun _ _ _ _ h => hl.launched_owned h outcome, ?_,
      hl.launched_hands outcome, ?_⟩
    · rintro n due i _ _ ⟨⟨c, hc⟩, _⟩
      have := hl.valid.outside_of_ready hc
      simp [work?, hh] at this
    · exact fun hv => absurd (hl.counts.launching v (by simp [work?, hh])).1 hv
  | granted | stopping =>
    have hs : s.launched outcome = (s, none) := by simp only [Slot.launched, hh]
    rw [hs]
    exact hl.stay hh

theorem stopped_moves (hl : s.Lives) (hh : s.holder = some ⟨v, stage⟩) : s.Moves v s.stopped := by
  cases stage with
  | stopping g answer since =>
    have hnone : Answer.hand s.stopped.2 = none := by
      obtain ⟨_, _, _, _, ha⟩ := hl.counts.stopping v g answer (by simp [work?, hh])
      have hs : s.stopped.2 = some answer := by simp [Slot.stopped, hh]
      rw [hs]
      rcases ha with ⟨_, _, _, _, rfl⟩ | ⟨_, rfl⟩ <;> rfl
    refine ⟨hl.stopped hh, stopped_leaves hh, fun _ _ _ _ h => hl.stopped_owned h, ?_, hands_none hnone _,
      fun _ => hnone⟩
    rintro n due i _ _ ⟨⟨c, hc⟩, _⟩
    have := hl.valid.outside_of_ready hc
    simp [work?, hh] at this
  | granted | launching =>
    have hs : s.stopped = (s, none) := by simp only [Slot.stopped, hh]
    rw [hs]
    exact hl.stay hh

end Lives

end LanguageHost.Slot
