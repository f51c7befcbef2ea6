import LanguageHost.Proofs.Client.Conduct

/-! What a shutdown comes to, by the clock: when the server was told to exit, and whether it did so in time. -/
namespace LanguageHost.Client

variable {c c' : Client} {e : Event} {events : List Event} {p : Client → Bool}

section Clocks

def clockIf (p : Client → Bool) (c : Client) : Option Nat := if p c then some c.now else none

/-- The clock when something first holds on a run. -/
def since? (p : Client → Bool) (c : Client) : List Event → Option Nat
  | [] => clockIf p c
  | e :: events => (clockIf p c).or ((c.apply e).since? p events)

/-- The clock stands still while the caller can go on, and never passes a moment that it waits for. -/
def Timely (c : Client) : List Event → Prop
  | [] => True
  | e :: events =>
    (∀ nanos, e = .tick nanos → c.canProceed = false ∧
        ∀ deadline, c.deadline? = some deadline → c.now + nanos ≤ deadline) ∧
      (c.apply e).Timely events

theorem clockIf_eq_some {t : Nat} : clockIf p c = some t ↔ p c = true ∧ c.now = t := by
  simp [clockIf]

theorem since?_concat (p : Client → Bool) (c : Client) (events : List Event) (e : Event) :
    since? p c (events ++ [e]) = (since? p c events).or (clockIf p ((c.run events).apply e)) := by
  induction events generalizing c with
  | nil => rfl
  | cons d events ih =>
    rw [List.cons_append, since?, since?, ih, Option.or_assoc]
    rfl

theorem since?_eq_none (h : since? p c events = none) : p (c.run events) = false := by
  have hnot : clockIf p (c.run events) = none := by
    induction events generalizing c with
    | nil => exact h
    | cons e events ih => exact ih (Option.or_eq_none_iff.1 h).2
  by_contra hp
  rw [clockIf, if_pos (by simpa using hp)] at hnot
  cases hnot

theorem Step.now_le (h : Step c e c') : c.now ≤ c'.now := by
  cases h with
  | ticked => exact Nat.le_add_right _ _
  | _ => exact Nat.le_refl _

theorem since?_le {t : Nat} (h : since? p c events = some t) : t ≤ (c.run events).now := by
  induction events using List.reverseRecOn with
  | nil => exact Nat.le_of_eq (clockIf_eq_some.1 h).2.symm
  | append_singleton events e ih =>
    rw [run_concat]
    rw [since?_concat, Option.or_eq_some_iff] at h
    obtain h | ⟨-, h⟩ := h
    · exact Nat.le_trans (ih h) (step_apply _ e).now_le
    · exact Nat.le_of_eq (clockIf_eq_some.1 h).2.symm

theorem since?_holds (hlasts : ∀ c e, p c = true → p (apply c e) = true)
    {t : Nat} (h : since? p c events = some t) :
    p (c.run events) = true := by
  induction events using List.reverseRecOn with
  | nil => exact (clockIf_eq_some.1 h).1
  | append_singleton events e ih =>
    rw [run_concat]
    rw [since?_concat, Option.or_eq_some_iff] at h
    obtain h | ⟨-, h⟩ := h
    · exact hlasts _ e (ih h)
    · exact (clockIf_eq_some.1 h).1

theorem since?_same (h : p ((c.run events).apply e) = p (c.run events)) :
    since? p c (events ++ [e]) = since? p c events := by
  rw [since?_concat]
  cases hsince : since? p c events with
  | some t => rfl
  | none =>
    have hnot := since?_eq_none hsince
    simp [clockIf, h, hnot]

theorem timely_concat : c.Timely (events ++ [e]) ↔
    c.Timely events ∧ ∀ nanos, e = .tick nanos → (c.run events).canProceed = false ∧
      ∀ deadline, (c.run events).deadline? = some deadline → (c.run events).now + nanos ≤ deadline := by
  induction events generalizing c with
  | nil => simp [Timely, run]
  | cons d events ih =>
    rw [List.cons_append, Timely, Timely, ih, and_assoc]
    rfl

end Clocks

section Stages

/-- The server was told to exit, as far as that went. -/
def hasLeft (c : Client) : Bool :=
  match c.phase with
  | .leaving _ | .killing _ | .stopped _ => true
  | _ => false

def isGone (c : Client) : Bool := c.exit.isSome

/-- How a shutdown ends that told the server to exit at the time `left`. -/
inductive Ended (c : Client) (events : List Event) (left : Nat) : Except Error Unit → Prop where
  | exited {status : ExitStatus} {time : Nat} (hstatus : (c.run events).exit = some status)
      (htime : since? isGone c events = some time) (hintime : time ≤ left + exitWait.nanos)
      (halive : since? killed c events = none) : Ended c events left (outcome status)
  | killed (hkilled : since? killed c events = some (left + exitWait.nanos))
      (hlate : ∀ time, since? isGone c events = some time → left + exitWait.nanos ≤ time) :
      Ended c events left (.error (.timeout .exit exitWait))

/-- The server was told to exit no later than the wait for a reply allows. -/
def LeftAt (c : Client) (events : List Event) (left : Nat) : Prop :=
  since? hasLeft c events = some left ∧ left ≤ c.now + replyWait.nanos

/-- Where a shutdown that began at `c` stands in a phase. -/
inductive Stage (c : Client) (events : List Event) : Phase → Prop where
  | parting {n : Nat} (hleft : since? hasLeft c events = none) (hnow : (c.run events).now ≤ c.now + replyWait.nanos)
      (halive : since? killed c events = none) : Stage c events (.parting n (c.now + replyWait.nanos))
  | leaving {left : Nat} (hleft : c.LeftAt events left) (hnow : (c.run events).now ≤ left + exitWait.nanos)
      (halive : since? killed c events = none) : Stage c events (.leaving (left + exitWait.nanos))
  | killing {left : Nat} (hleft : c.LeftAt events left)
      (hnow : (c.run events).now ≤ left + exitWait.nanos + killWait.nanos)
      (hkilled : since? killed c events = some (left + exitWait.nanos))
      (hlate : ∀ time, since? isGone c events = some time → left + exitWait.nanos ≤ time) :
      Stage c events (.killing (left + exitWait.nanos + killWait.nanos))
  | stopped {left : Nat} {result : Except Error Unit} (hleft : c.LeftAt events left)
      (hended : Ended c events left result) :
      Stage c events (.stopped result)

theorem deadline?_parting {n deadline : Nat} (h : c.phase = .parting n deadline) : c.deadline? = some deadline := by
  simp only [deadline?, h]

theorem deadline?_leaving {deadline : Nat} (h : c.phase = .leaving deadline) : c.deadline? = some deadline := by
  simp only [deadline?, h]

theorem deadline?_killing {deadline : Nat} (h : c.phase = .killing deadline) : c.deadline? = some deadline := by
  simp only [deadline?, h]

theorem Stage.due {phase : Phase} (h : c.Stage events phase) (hphase : (c.run events).phase = phase) {deadline : Nat}
    (hdeadline : (c.run events).deadline? = some deadline) : (c.run events).now ≤ deadline := by
  cases h with
  | parting _ hnow => exact Option.some.inj ((deadline?_parting hphase).symm.trans hdeadline) ▸ hnow
  | leaving _ hnow => exact Option.some.inj ((deadline?_leaving hphase).symm.trans hdeadline) ▸ hnow
  | killing _ hnow => exact Option.some.inj ((deadline?_killing hphase).symm.trans hdeadline) ▸ hnow
  | stopped => simp [deadline?, hphase] at hdeadline

theorem hasLeft_congr (h : c'.phase = c.phase) : c'.hasLeft = c.hasLeft := by rw [hasLeft, hasLeft, h]

theorem since?_concat_of_some {t : Nat} (h : since? p c events = some t) (e : Event) :
    since? p c (events ++ [e]) = some t := by
  rw [since?_concat, h, Option.some_or]

theorem late_concat {bound : Nat} (hnow : bound ≤ (c.run events).now)
    (hlate : ∀ time, since? isGone c events = some time → bound ≤ time) (e : Event) :
    ∀ time, since? isGone c (events ++ [e]) = some time → bound ≤ time := by
  intro time htime
  rw [since?_concat, Option.or_eq_some_iff] at htime
  obtain htime | ⟨-, htime⟩ := htime
  · exact hlate time htime
  · exact (clockIf_eq_some.1 htime).2 ▸ Nat.le_trans hnow (step_apply _ e).now_le

theorem LeftAt.concat {left : Nat} (h : c.LeftAt events left) (e : Event) : c.LeftAt (events ++ [e]) left :=
  ⟨since?_concat_of_some h.1 e, h.2⟩

theorem Ended.concat {left : Nat} {result : Except Error Unit} (h : Ended c events left result)
    (hkilled : ((c.run events).apply e).killed = (c.run events).killed)
    (hexit : ∀ status, (c.run events).exit = some status → ((c.run events).apply e).exit = some status) :
    Ended c (events ++ [e]) left result := by
  cases h with
  | exited hstatus htime hintime halive =>
    refine .exited ?_ (since?_concat_of_some htime e) hintime ((since?_same hkilled).trans halive)
    rw [run_concat]
    exact hexit _ hstatus
  | killed hat hlate => exact .killed (since?_concat_of_some hat e) (late_concat (since?_le hat) hlate e)

theorem Stage.same (h : c.Stage events (c.run events).phase) (hnext : (c.run events).apply e = c')
    (hphase : c'.phase = (c.run events).phase) (hkilled : c'.killed = (c.run events).killed)
    (hexit : ∀ status, (c.run events).exit = some status → c'.exit = some status)
    (hdue : ∀ deadline, (c.run events).deadline? = some deadline → c'.now ≤ deadline) :
    c.Stage (events ++ [e]) c'.phase := by
  subst hnext
  have hdead : since? killed c (events ++ [e]) = since? killed c events := since?_same hkilled
  rw [hphase]
  generalize hbefore : (c.run events).phase = phase at h
  cases h with
  | parting hleft _ halive =>
    exact .parting ((since?_same (hasLeft_congr hphase)).trans hleft)
      (c.run_concat events e ▸ hdue _ (deadline?_parting hbefore)) (hdead.trans halive)
  | leaving hleft _ halive =>
    exact .leaving (hleft.concat e) (c.run_concat events e ▸ hdue _ (deadline?_leaving hbefore)) (hdead.trans halive)
  | killing hleft _ hat hlate =>
    exact .killing (hleft.concat e) (c.run_concat events e ▸ hdue _ (deadline?_killing hbefore)) (hdead.trans hat)
      (late_concat (since?_le hat) hlate e)
  | stopped hleft hended => exact .stopped (hleft.concat e) (hended.concat hkilled hexit)

theorem Step.exit (h : Step c e c') {status : ExitStatus} (hexit : c.exit = some status) : c'.exit = some status := by
  cases h with
  | exited => simp [hexit]
  | _ => exact hexit

theorem isGone_lasts (c : Client) (e : Event) (h : c.isGone = true) : (c.apply e).isGone = true := by
  obtain ⟨status, hstatus⟩ := Option.isSome_iff_exists.1 h
  rw [isGone, (step_apply c e).exit hstatus]
  rfl

section Turns
variable {n deadline : Nat} {status : ExitStatus} (h : c.Stage events (c.run events).phase)
include h

theorem Stage.left (hphase : (c.run events).phase = .parting n deadline)
    (hnext : (c.run events).apply e = (c.run events).leave) : c.Stage (events ++ [e]) (c.run events).leave.phase := by
  rw [hphase] at h
  cases h with
  | parting hleft hnow halive =>
    have hdead : since? Client.killed c (events ++ [e]) = none := (since?_same (by rw [hnext]; rfl)).trans halive
    refine .leaving ⟨?_, hnow⟩ ?_ hdead
    · rw [since?_concat, hleft, hnext]
      rfl
    · rw [run_concat, hnext]
      exact Nat.le_add_right _ _

theorem Stage.parted (hphase : (c.run events).phase = .leaving deadline) (hexit : (c.run events).exit = some status)
    (hnext : (c.run events).apply e = (c.run events).stop (outcome status)) :
    c.Stage (events ++ [e]) (.stopped (outcome status)) := by
  rw [hphase] at h
  cases h with
  | leaving hleft hnow halive =>
    have hdead : since? Client.killed c (events ++ [e]) = none := (since?_same (by rw [hnext]; rfl)).trans halive
    -- An exit that is known now was known at some time, and the clock has not passed the deadline.
    obtain ⟨time, htime⟩ : ∃ time, since? isGone c events = some time := by
      by_contra hnone
      have hnot := since?_eq_none (Option.eq_none_iff_forall_ne_some.2 fun time htime => hnone ⟨time, htime⟩)
      simp [isGone, hexit] at hnot
    refine .stopped (hleft.concat e)
      (.exited ?_ (since?_concat_of_some htime e) (Nat.le_trans (since?_le htime) hnow) hdead)
    rw [run_concat, hnext]
    exact hexit

theorem Stage.killed (hphase : (c.run events).phase = .leaving deadline) (hexit : (c.run events).exit = none)
    (hdue : deadline ≤ (c.run events).now)
    (hnext : (c.run events).apply e =
      { c.run events with phase := .killing ((c.run events).now + killWait.nanos), killed := true }) :
    c.Stage (events ++ [e]) (.killing ((c.run events).now + killWait.nanos)) := by
  rw [hphase] at h
  cases h with
  | @leaving left hleft hnow halive =>
    -- The clock never passes the deadline, so the kill comes at the deadline itself.
    have hat : (c.run events).now = left + exitWait.nanos := Nat.le_antisymm hnow hdue
    have hlate : ∀ time, since? isGone c events = some time → left + exitWait.nanos ≤ time := by
      intro time htime
      have hgone := since?_holds isGone_lasts htime
      simp [isGone, hexit] at hgone
    rw [hat]
    refine .killing (hleft.concat e) ?_ ?_ (late_concat (Nat.le_of_eq hat.symm) hlate e)
    · rw [run_concat, hnext, ← hat]
      exact Nat.le_add_right _ _
    · rw [since?_concat, halive, hnext, ← hat]
      rfl

theorem Stage.reaped (hphase : (c.run events).phase = .killing deadline) (e : Event) :
    c.Stage (events ++ [e]) (.stopped (.error (.timeout .exit exitWait))) := by
  rw [hphase] at h
  cases h with
  | killing hleft _ hat hlate =>
    exact .stopped (hleft.concat e) (.killed (since?_concat_of_some hat e) (late_concat (since?_le hat) hlate e))

end Turns

/-- One event takes the shutdown from one stage to the next, or leaves it where it stands. -/
theorem Stage.step (h : c.Stage events (c.run events).phase)
    (htimely : ∀ nanos, e = .tick nanos → (c.run events).canProceed = false ∧
      ∀ deadline, (c.run events).deadline? = some deadline → (c.run events).now + nanos ≤ deadline) :
    c.Stage (events ++ [e]) ((c.run events).apply e).phase := by
  have hs := step_apply (c.run events) e
  generalize hnext : (c.run events).apply e = c' at hs ⊢
  cases hs with
  | refused hphase =>
    rw [hphase] at h
    cases h
  | accepted hphase =>
    rw [hphase] at h
    cases h
  | unheard hphase =>
    rw [hphase] at h
    cases h
  | asked hphase =>
    rw [hphase] at h
    cases h
  | unasked hphase =>
    rw [hphase] at h
    cases h
  | left hphase => exact h.left hphase hnext
  | parted hphase hexit => exact h.parted hphase hexit hnext
  | killed hphase hexit hdue => exact h.killed hphase hexit hdue hnext
  | reaped hphase => exact h.reaped hphase _
  | exited status => exact h.same hnext rfl rfl (fun _ hexit => by rw [hexit]; rfl) fun _ => h.due rfl
  | ticked nanos => exact h.same hnext rfl rfl (fun _ hexit => hexit) (htimely nanos rfl).2
  | _ => exact h.same hnext rfl rfl (fun _ hexit => hexit) fun _ => h.due rfl

theorem stage_run (h : c.Stage [] c.phase) (htimely : c.Timely events) : c.Stage events (c.run events).phase := by
  induction events using List.reverseRecOn with
  | nil => exact h
  | append_singleton events e ih =>
    rw [timely_concat] at htimely
    rw [run_concat]
    exact (ih htimely.1).step htimely.2

/-- The shutdown begins at its first stage, or at the second where the request cannot be written. -/
theorem stage_shutdown {capabilities : Option Json} (hphase : c.phase = .ready capabilities)
    (halive : c.killed = false) :
    c.shutdown.Stage [] c.shutdown.phase := by
  have hnone {d : Client} (h : d.killed = c.killed) : since? killed d [] = none := by
    rw [since?, clockIf, h, halive]
    rfl
  rw [shutdown_ready hphase]
  split_ifs
  · exact .parting rfl (Nat.le_add_right _ _) (hnone rfl)
  · exact .leaving ⟨rfl, Nat.le_add_right _ _⟩ (Nat.le_add_right _ _) (hnone rfl)

end Stages

section Returning

/-- How many turns of the caller a shutdown still takes at most. -/
def turnsLeft (c : Client) : Nat :=
  match c.phase with
  | .parting _ _ => 3
  | .leaving _ => 2
  | .killing _ => 1
  | _ => 0

/-- The server is being shut down, or has been. -/
def isParting (c : Client) : Bool :=
  match c.phase with
  | .parting _ _ | .leaving _ | .killing _ | .stopped _ => true
  | _ => false

theorem proceed_turnsLeft (h : c.isParting = true) (hcan : c.canProceed = true) :
    c.proceed.isParting = true ∧ c.proceed.turnsLeft < c.turnsLeft := by
  have hs := step_proceed c
  generalize c.proceed = c' at hs ⊢
  cases hs with
  | waiting hnot => simp [hnot] at hcan
  | refused hphase => simp [isParting, hphase] at h
  | accepted hphase => simp [isParting, hphase] at h
  | unheard hphase => simp [isParting, hphase] at h
  | left hphase => exact ⟨rfl, by simp [turnsLeft, hphase, leave]⟩
  | parted hphase => exact ⟨rfl, by simp [turnsLeft, hphase, stop]⟩
  | killed hphase => exact ⟨rfl, by simp [turnsLeft, hphase]⟩
  | reaped hphase => exact ⟨rfl, by simp [turnsLeft, hphase, stop]⟩

theorem stopped_or_waits (h : c.isParting = true) :
    (∃ result, c.phase = .stopped result) ∨ ∃ deadline, c.deadline? = some deadline := by
  unfold isParting at h
  split at h
  next hphase => exact .inr ⟨_, deadline?_parting hphase⟩
  next hphase => exact .inr ⟨_, deadline?_leaving hphase⟩
  next hphase => exact .inr ⟨_, deadline?_killing hphase⟩
  next hphase => exact .inl ⟨_, hphase⟩
  next => cases h

theorem tick_canProceed {deadline : Nat} (h : c.deadline? = some deadline) :
    (c.apply (.tick (deadline - c.now))).canProceed = true := by
  have hdeadline : (c.apply (.tick (deadline - c.now))).deadline? = some deadline := h
  have hnow : deadline ≤ (c.apply (.tick (deadline - c.now))).now := by
    show deadline ≤ c.now + (deadline - c.now)
    omega
  simp [canProceed, hdeadline, hnow]

theorem now_lt_deadline {deadline : Nat} (h : c.canProceed = false) (hdeadline : c.deadline? = some deadline) :
    c.now < deadline := by
  simp only [canProceed, hdeadline, Option.any_some, Bool.or_eq_false_iff, decide_eq_false_iff_not] at h
  exact Nat.not_le.1 h.1

/-- Events that need nobody but the caller. -/
def Alone (events : List Event) : Prop := ∀ e ∈ events, e = .proceed ∨ ∃ nanos, e = .tick nanos

/-- Whatever the server does or does not do, the shutdown ends with time and the caller's turns. -/
theorem parting_returns (h : c.isParting = true) :
    ∃ more, c.Timely more ∧ Alone more ∧ ∃ result, (c.run more).phase = .stopped result := by
  -- By induction on the turns that are left. A turn that is not due yet becomes so when the clock reaches the deadline.
  induction hturns : c.turnsLeft using Nat.strongRecOn generalizing c with
  | ind turns ih =>
    have hturn {d : Client} (hd : d.isParting = true) (hcan : d.canProceed = true) (hle : d.turnsLeft ≤ turns) :
        ∃ more, d.Timely (.proceed :: more) ∧ Alone (.proceed :: more) ∧
          ∃ result, (d.run (.proceed :: more)).phase = .stopped result := by
      obtain ⟨hnext, hless⟩ := proceed_turnsLeft hd hcan
      obtain ⟨more, htimely, halone, hstopped⟩ := ih _ (Nat.lt_of_lt_of_le hless hle) hnext rfl
      exact ⟨more, ⟨by simp, htimely⟩, List.forall_mem_cons.2 ⟨.inl rfl, halone⟩, hstopped⟩
    obtain hstopped | ⟨deadline, hdeadline⟩ := stopped_or_waits h
    · exact ⟨[], trivial, by simp [Alone], hstopped⟩
    · cases hcan : c.canProceed with
      | true =>
        obtain ⟨more, hmore⟩ := hturn h hcan (Nat.le_of_eq hturns)
        exact ⟨_, hmore⟩
      | false =>
        have hlt := now_lt_deadline hcan hdeadline
        obtain ⟨more, htimely, halone, hstopped⟩ :=
          hturn (d := c.apply (.tick (deadline - c.now))) h (tick_canProceed hdeadline) (Nat.le_of_eq hturns)
        refine ⟨.tick (deadline - c.now) :: .proceed :: more, ⟨?_, htimely⟩, ?_, hstopped⟩
        · intro nanos he
          refine ⟨hcan, fun later hlater => ?_⟩
          obtain rfl := Option.some.inj (hdeadline.symm.trans hlater)
          obtain rfl := Event.tick.inj he
          omega
        · exact List.forall_mem_cons.2 ⟨.inr ⟨_, rfl⟩, halone⟩

end Returning

section Outcome

/-- The server exited with a status no later than the wait for that allows, and was not killed. -/
structure InTime (c : Client) (events : List Event) (left : Nat) (status : ExitStatus) : Prop where
  status : (c.run events).exit = some status
  time : ∃ time ≤ left + exitWait.nanos, since? isGone c events = some time
  alive : since? killed c events = none

/-- What a shutdown returns that told the server to exit at the time `left`. -/
structure Outcome (c : Client) (events : List Event) (left : Nat) (result : Except Error Unit) : Prop where
  ok : result = .ok () ↔ c.InTime events left .success
  failed {status : ExitStatus} (hstatus : status ≠ .success) (h : c.InTime events left status) :
    result = .error (.protocol ("language server exited with " ++ status.text))
  /-- A server that does not exit in time is killed when the wait is over. -/
  late (h : ∀ status, ¬c.InTime events left status) :
    result = .error (.timeout .exit exitWait) ∧ since? killed c events = some (left + exitWait.nanos)
  early {time : Nat} (h : since? isGone c events = some time) (hearly : time < left + exitWait.nanos) :
    ∃ status, c.InTime events left status

theorem outcome_eq_ok {status : ExitStatus} : outcome status = .ok () ↔ status = .success := by
  unfold outcome
  split_ifs with h <;> simp [h]

theorem Ended.outcome {left : Nat} {result : Except Error Unit} (h : Ended c events left result) :
    c.Outcome events left result := by
  cases h with
  | @exited status time hstatus htime hintime halive =>
    have hin : c.InTime events left status := ⟨hstatus, ⟨time, hintime, htime⟩, halive⟩
    have hsame {other : ExitStatus} (h : c.InTime events left other) : other = status :=
      Option.some.inj (h.status.symm.trans hstatus)
    refine ⟨?_, ?_, fun hnot => absurd hin (hnot status), fun _ _ => ⟨status, hin⟩⟩
    · rw [outcome_eq_ok]
      exact ⟨fun hsuccess => hsuccess ▸ hin, fun h => (hsame h).symm⟩
    · intro other hother h
      rw [← hsame h, Client.outcome, if_neg hother]
  | killed hat hlate =>
    have hnot (status : ExitStatus) : ¬c.InTime events left status := fun h => by simp [h.alive] at hat
    refine ⟨⟨fun h => (by cases h), fun h => absurd h (hnot _)⟩, fun _ h => absurd h (hnot _),
      fun _ => ⟨rfl, hat⟩, ?_⟩
    intro time htime hearly
    exact absurd (hlate time htime) (Nat.not_le.2 hearly)

/-- What holds of a run after the server was asked to shut down, whatever comes of that request. -/
structure Closing (c : Client) (events : List Event) : Prop where
  /-- The server is told to exit before the wait for a reply is over. -/
  told {left : Nat} (h : since? hasLeft c events = some left) : left ≤ c.now + replyWait.nanos
  bounded (h : ∀ result, (c.run events).phase ≠ .stopped result) :
    (c.run events).now ≤ c.now + replyWait.nanos + exitWait.nanos + killWait.nanos
  /-- It can always be brought to its end without the server. -/
  returns : ∃ more, (c.run events).Timely more ∧ Alone more ∧
    ∃ result, ((c.run events).run more).phase = .stopped result
  ends {result : Except Error Unit} (h : (c.run events).phase = .stopped result) :
    ∃ left, since? hasLeft c events = some left ∧ c.Outcome events left result

theorem Stage.isParting (h : c.Stage events c'.phase) : c'.isParting = true := by
  generalize hphase : c'.phase = phase at h
  cases h <;> simp [Client.isParting, hphase]

theorem Stage.told {phase : Phase} {left : Nat} (h : c.Stage events phase)
    (hleft : since? hasLeft c events = some left) :
    left ≤ c.now + replyWait.nanos := by
  have hsame {other : Nat} (hother : c.LeftAt events other) : left ≤ c.now + replyWait.nanos := by
    obtain rfl := Option.some.inj (hleft.symm.trans hother.1)
    exact hother.2
  cases h with
  | parting hnone => simp [hleft] at hnone
  | leaving hother => exact hsame hother
  | killing hother => exact hsame hother
  | stopped hother => exact hsame hother

theorem Stage.bounded {phase : Phase} (h : c.Stage events phase) (hnot : ∀ result, phase ≠ .stopped result) :
    (c.run events).now ≤ c.now + replyWait.nanos + exitWait.nanos + killWait.nanos := by
  cases h with
  | parting _ hnow => omega
  | leaving hleft hnow =>
    have hbound := hleft.2
    omega
  | killing hleft hnow =>
    have hbound := hleft.2
    omega
  | stopped => exact absurd rfl (hnot _)

theorem closing (h : c.Stage [] c.phase) (htimely : c.Timely events) : c.Closing events := by
  have hstage := stage_run h htimely
  refine ⟨hstage.told, hstage.bounded, parting_returns hstage.isParting, ?_⟩
  intro result hresult
  rw [hresult] at hstage
  cases hstage with
  | stopped hleft hended => exact ⟨_, hleft.1, hended.outcome⟩

/-- Only a client that failed or that is through with its server has killed it. -/
def Spared (c : Client) : Prop :=
  match c.phase with
  | .greeting _ | .ready _ | .parting _ _ | .leaving _ => c.killed = false
  | _ => True

theorem Spared.step (h : c.Spared) (hs : Step c e c') : c'.Spared := by
  cases hs with
  | refused => trivial
  | accepted hphase =>
    simp only [Spared, hphase] at h
    exact h
  | unheard => trivial
  | left hphase =>
    simp only [Spared, hphase] at h
    exact h
  | parted => trivial
  | killed => trivial
  | reaped => trivial
  | asked hphase =>
    simp only [Spared, hphase] at h
    exact h
  | unasked hphase =>
    simp only [Spared, hphase] at h
    exact h
  | _ => exact h

theorem spared_run (input : Sink) (greeting : Option Json) (events : List Event) :
    ((start input greeting).run events).Spared := by
  have hstart : (start input greeting).Spared := by
    cases greeting with
    | none => rfl
    | some params =>
      rw [start_greeting]
      split_ifs
      · rfl
      · trivial
  generalize start input greeting = c at hstart ⊢
  induction events generalizing c with
  | nil => exact hstart
  | cons e events ih => exact ih _ (hstart.step (c.step_apply e))

end Outcome

section Conduct

/-- How a client behaves towards its server on a run. -/
structure Conduct (greeting : Option Json) (events : List Event) (c : Client) : Prop where
  /-- Its own messages come in the order of the conversation, those that it tries to send as well as those that the
  server takes. -/
  order : c.own <+: conversation greeting
  taken : ((c.writes.filter fun w => !w.isReply && w.taken).map Write.message) <+: conversation greeting
  accepted (h : initializedNotice ∈ c.own) :
    ∃ reply capabilities, greetingReply? events = some (some reply) ∧ accepted? reply = some capabilities
  /-- It waits for an exit only after trying to tell the server. -/
  told (h : c.hasLeft = true) : c.own = conversation greeting
  /-- The server's input is the frames of the messages that it took, replies among them, one after another, and no
  message is taken after one was refused. -/
  frames : c.input.taken = Frame.stream c.sent ∧ c.writes.filter Write.taken <+: c.writes

theorem Said.told (h : c.Said greeting) (hleft : c.hasLeft = true) : c.own = conversation greeting := by
  unfold hasLeft at hleft
  unfold Said at h
  split at hleft
  · simp_all
  · simp_all
  · simp_all
  · cases hleft

theorem conduct_run {input : Sink} (hinput : input.Prompt) (hempty : input.taken = []) (greeting : Option Json)
    (events : List Event) : Conduct greeting events ((start input greeting).run events) := by
  have hsaid := said_run (said_start input greeting) events
  have hdelivered := (Delivered.start hinput hempty greeting).run events
  refine ⟨hsaid.in_order, ?_, accepted_of_initialized input greeting events,
    hsaid.told, hdelivered.bytes, hdelivered.first⟩
  -- What the server took is a first part of all writes, and remains one without the replies.
  have htaken := (hdelivered.first.filter fun w => !w.isReply).map Write.message
  rw [List.filter_filter] at htaken
  exact htaken.trans hsaid.in_order

end Conduct

/-- A client and its server from the start: what the client says, whatever the server does, and what a shutdown
returns, whatever becomes of the request for it. -/
theorem client_conduct (input : Sink) (hinput : input.Prompt) (hempty : input.taken = []) (greeting : Option Json)
    (events : List Event) :
    Conduct greeting events ((start input greeting).run events) ∧
      ∀ capabilities, ((start input greeting).run events).phase = .ready capabilities →
        ∀ later, ((start input greeting).run events).shutdown.Timely later →
          ((start input greeting).run events).shutdown.Closing later := by
  refine ⟨conduct_run hinput hempty greeting events, fun capabilities hphase later htimely => ?_⟩
  have hspared := spared_run input greeting events
  simp only [Spared, hphase] at hspared
  exact closing (stage_shutdown hphase hspared) htimely

/-- A server that was not greeted does not reply to the request, and exits with a status of its own when it is told
to exit. -/
theorem client_conduct_silent :
    let c := (start (.unbounded (some 7)) none).run []
    let later : List Event := [.tick replyWait.nanos, .proceed, .exited (.code 3), .proceed]
    (Sink.unbounded (some 7)).Prompt ∧ (Sink.unbounded (some 7)).taken = [] ∧ c.phase = .ready none ∧
      c.shutdown.Timely later ∧
      Conduct none [] c ∧ c.shutdown.Closing later ∧
      (c.shutdown.run later).phase = .stopped (.error (.protocol "language server exited with exit status: 3")) := by
  intro c later
  have hinput : (Sink.unbounded (some 7)).Open := ⟨by decide, rfl⟩
  have hphase : c.phase = .ready none := rfl
  have hshutdown : c.shutdown = { (c.request "shutdown" .null).1 with phase := .parting 0 replyWait.nanos } := by
    have htaken : (c.request "shutdown" .null).2 = true := write_taken (c := c) hinput _
    have hnow : c.now + replyWait.nanos = replyWait.nanos := Nat.zero_add _
    rw [shutdown_ready hphase, if_pos htaken, hnow]
    rfl
  have htimely : c.shutdown.Timely later := by
    rw [hshutdown]
    refine ⟨fun nanos he => ⟨rfl, fun deadline hdeadline => ?_⟩, by simp, by simp, by simp, trivial⟩
    obtain rfl := Event.tick.inj he
    obtain rfl := Option.some.inj hdeadline
    exact Nat.le_of_eq (Nat.zero_add _)
  obtain ⟨hconduct, hclosing⟩ := client_conduct (.unbounded (some 7)) hinput.prompt rfl none []
  refine ⟨hinput.prompt, rfl, hphase, htimely, hconduct, hclosing none hphase later htimely, ?_⟩
  have hleave : (c.shutdown.apply (.tick replyWait.nanos)).proceed =
      (c.shutdown.apply (.tick replyWait.nanos)).leave := by
    have hdue : replyWait.nanos ≤ (c.shutdown.apply (.tick replyWait.nanos)).now := Nat.le_add_left _ _
    have hparting : (c.shutdown.apply (.tick replyWait.nanos)).phase = .parting 0 replyWait.nanos := by
      rw [hshutdown]
      rfl
    simp only [proceed, hparting]
    exact if_pos (.inr hdue)
  have hstopped : (c.shutdown.run later).phase = .stopped (outcome (.code 3)) := by
    show (((c.shutdown.apply (.tick replyWait.nanos)).proceed.apply (.exited (.code 3))).proceed).phase = _
    rw [hleave, hshutdown]
    rfl
  rw [hstopped, outcome, if_neg (by decide)]
  rfl

end LanguageHost.Client
