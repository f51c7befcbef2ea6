import LanguageHost.Proofs.Registry.Tally

/-! What the log of a gate tells: who is there, and whose failed launch a call shares. -/
namespace LanguageHost.Slot

namespace Log

/-- Launches that have finished, well or badly. -/
def finished : List Record → Nat
  | [] => 0
  | .turn ⟨_, .launched _, _⟩ :: older => finished older + 1
  | _ :: older => finished older

/-- Launches that had finished when a call came last. -/
def seen (call : CallId) : List Record → Nat
  | [] => 0
  | .came v :: older => if v.call = call then finished older else seen call older
  | _ :: older => seen call older

/-- The latest launch to finish, if it failed and no clear came after it, with its number. -/
def failure? : List Record → Option (Nat × Error)
  | [] => none
  | .turn ⟨_, .launched (.error e), _⟩ :: older => some (finished older + 1, e)
  | .turn ⟨_, .launched (.ok _), _⟩ :: _ => none
  | .turn ⟨⟨_, .clear⟩, _, _⟩ :: _ => none
  | _ :: older => failure? older

def tally (number : Nat) (log : List Record) : Tally := .of number (log.filterMap Record.turn?)

/-- Everybody at the gate, in the order of their turns. -/
def gate : List Record → List Visit
  | [] => []
  | .came v :: older => gate older ++ [v]
  | .left call :: older => (gate older).filter fun v => v.call ≠ call
  | .turn _ :: older => (gate older).tail

/-- Failures before this are not shared with the call: it came, or another launch finished, or the
slot was cleared. -/
def Divides (call : CallId) : Record → Prop
  | .came v => v.call = call
  | .left _ => False
  | .turn t => (∃ outcome, t.ending = .launched outcome) ∨ t.request = .clear

/-- The latest launch to finish failed with this error, after the call came and with no clear since. -/
def FailedSince (call : CallId) (log : List Record) (e : Error) : Prop :=
  ∃ newer t older, log = newer ++ .turn t :: older ∧ t.ending = .launched (.error e) ∧ ∀ r ∈ newer, ¬Divides call r

variable {call : CallId} {log : List Record} {e : Error}

theorem came_of_mem_gate {v : Visit} (hv : v ∈ gate log) : .came v ∈ log := by
  induction log with
  | nil => cases hv
  | cons r log ih =>
    cases r with
    | came w =>
      rcases List.mem_append.1 hv with hv | hv
      · exact List.mem_cons_of_mem _ (ih hv)
      · rw [List.mem_singleton.1 hv]
        exact List.mem_cons_self
    | left c => exact List.mem_cons_of_mem _ (ih (List.mem_filter.1 hv).1)
    | turn t => exact List.mem_cons_of_mem _ (ih (List.mem_of_mem_tail hv))

theorem seen_le (call : CallId) (log : List Record) : seen call log ≤ finished log := by
  induction log with
  | nil => exact Nat.le_refl 0
  | cons r log ih =>
    cases r with
    | came v =>
      simp only [seen, finished]
      split <;> omega
    | left => exact ih
    | turn t =>
      obtain ⟨v, ending, a⟩ := t
      cases ending <;> simp only [seen, finished] <;> omega

theorem failure?_le {n : Nat} (h : failure? log = some (n, e)) : n ≤ finished log := by
  induction log with
  | nil => simp [failure?] at h
  | cons r log ih =>
    cases r with
    | came | left => exact ih h
    | turn t =>
      obtain ⟨⟨c, request⟩, ending, a⟩ := t
      cases ending with
      | launched outcome =>
        cases outcome with
        | ok => simp [failure?] at h
        | error =>
          simp only [failure?, Option.some.injEq, Prod.mk.injEq] at h
          simp only [finished]
          omega
      | atOnce | stopped | givenUp =>
        cases request with
        | clear => simp [failure?] at h
        | acquire | release => exact ih h

theorem failedSince_cons {r : Record} : FailedSince call (r :: log) e ↔
    (∃ t, r = .turn t ∧ t.ending = .launched (.error e)) ∨ (¬Divides call r ∧ FailedSince call log e) := by
  constructor
  · rintro ⟨newer, t, older, hlog, he, hnewer⟩
    cases newer with
    | nil => exact .inl ⟨t, (List.cons.inj hlog).1, he⟩
    | cons r' newer =>
      obtain ⟨rfl, htail⟩ := List.cons.inj hlog
      exact .inr ⟨hnewer _ (by simp), newer, t, older, htail, he, fun r hr => hnewer r (by simp [hr])⟩
  · rintro (⟨t, rfl, he⟩ | ⟨hr, newer, t, older, rfl, he, hnewer⟩)
    · exact ⟨[], t, log, rfl, he, by simp⟩
    · refine ⟨r :: newer, t, older, rfl, he, ?_⟩
      simpa using ⟨hr, hnewer⟩

/-- The two counters tell whether a call shares the latest failure. -/
theorem failedSince_iff : FailedSince call log e ↔ ∃ n, failure? log = some (n, e) ∧ seen call log < n := by
  induction log with
  | nil => simp [FailedSince, failure?]
  | cons r log ih =>
    have hle := seen_le call log
    rw [failedSince_cons, ih]
    cases r with
    | came v =>
      by_cases hv : v.call = call
      · simp only [seen, failure?, Divides, hv, if_true]
        simp
        intro n hn
        exact failure?_le hn
      · simp [seen, failure?, Divides, hv]
    | left => simp [seen, failure?, Divides]
    | turn t =>
      obtain ⟨⟨c, request⟩, ending, a⟩ := t
      cases ending with
      | launched outcome => cases outcome <;> simp [seen, failure?, Divides] ; omega
      | atOnce | stopped | givenUp => cases request <;> simp [seen, failure?, Divides]

variable {v : Visit} {ending : Ending} {a : Option Answer}

theorem finished_turn (he : ∀ outcome, ending ≠ .launched outcome) :
    finished (.turn ⟨v, ending, a⟩ :: log) = finished log := by
  cases ending with
  | launched outcome => exact absurd rfl (he outcome)
  | atOnce | stopped | givenUp => rfl

theorem failure?_turn (he : ∀ outcome, ending ≠ .launched outcome) (hr : v.request ≠ .clear) :
    failure? (.turn ⟨v, ending, a⟩ :: log) = failure? log := by
  obtain ⟨c, request⟩ := v
  cases ending with
  | launched outcome => exact absurd rfl (he outcome)
  | atOnce | stopped | givenUp => cases request <;> first | rfl | exact absurd rfl hr

theorem failure?_clear (he : ∀ outcome, ending ≠ .launched outcome) (hr : v.request = .clear) :
    failure? (.turn ⟨v, ending, a⟩ :: log) = none := by
  obtain ⟨c, request⟩ := v
  obtain rfl : request = .clear := hr
  cases ending with
  | launched outcome => exact absurd rfl (he outcome)
  | atOnce | stopped | givenUp => rfl

/-- A fact about each turn and the log before it. -/
def EachTurn (P : List Record → Turn → Prop) (log : List Record) : Prop :=
  ∀ newer t older, log = newer ++ .turn t :: older → P older t

theorem eachTurn_cons {P : List Record → Turn → Prop} {r : Record} :
    EachTurn P (r :: log) ↔ (∀ t, r = .turn t → P log t) ∧ EachTurn P log := by
  constructor
  · intro h
    exact ⟨fun t ht => h [] t log (by rw [ht]; rfl),
      fun newer t older he => h (r :: newer) t older (by rw [he]; rfl)⟩
  · rintro ⟨hr, h⟩ newer t older he
    cases newer with
    | nil =>
      obtain ⟨rfl, rfl⟩ := List.cons.inj he
      exact hr t rfl
    | cons r' newer => exact h newer t older (List.cons.inj he).2

/-- How an acquire goes that has the gate: it shares the connection, or the failure of the latest
launch if that failed since the call came, or it launches. -/
def Judges (number : Nat) (older : List Record) (t : Turn) : Prop :=
  ∀ key document n, t.request = .acquire key document n →
    (0 < (tally number older).count → ∃ id, (tally number older).entry = some (id, .ready) ∧
      t.ending = .atOnce ∧ t.answer = some (.acquired id)) ∧
    ((tally number older).count = 0 → ∀ e, FailedSince t.call older e →
      t.ending = .atOnce ∧ t.answer = some (.refused (.launchFailed key.text e.message))) ∧
    ((tally number older).count = 0 → (∀ e, ¬FailedSince t.call older e) →
      (∃ outcome, t.ending = .launched outcome) ∨ t.ending = .givenUp)

end Log

structure Recalls (s : Slot) : Prop where
  gate : s.visits = Log.gate s.log
  finished : s.finished = Log.finished s.log
  failure : (∀ v w, s.work? = some (v, w) → v.request ≠ .clear) →
    s.failure = (Log.failure? s.log).map fun f => ⟨f.1, f.2.message⟩
  clearing : ∀ v w, s.work? = some (v, w) → v.request = .clear → s.failure = none
  seen : ∀ v ∈ s.visits, ∀ key document n, v.request = .acquire key document n → n = Log.seen v.call s.log
  turns : Log.EachTurn (fun older t => (Log.gate older).head? = some t.toVisit ∧ Log.Judges s.number older t) s.log
  launching : ∀ v, s.work? = some (v, .launch) → ∀ e, ¬Log.FailedSince v.call s.log e

namespace Recalls
variable {s : Slot} {v : Visit}

theorem new (key : ServerKey) (number : Nat) : (Slot.new key number).Recalls :=
  ⟨rfl, rfl, fun _ => rfl, by simp [work?, Slot.new], by simp [visits, Slot.new], by simp [Log.EachTurn, Slot.new],
    by simp [work?, Slot.new]⟩

theorem leave (h : s.Recalls) {stage : Stage} (hh : s.holder = some ⟨v, stage⟩) {x : Slot} {ending : Ending}
    {a : Option Answer} (hnumber : x.number = s.number) (hlog : x.log = s.log) (hqueue : x.queue = s.queue)
    (hfinished : x.finished = Log.finished (.turn ⟨v, ending, a⟩ :: s.log))
    (hfailure : x.failure = (Log.failure? (.turn ⟨v, ending, a⟩ :: s.log)).map fun f => ⟨f.1, f.2.message⟩)
    (hj : Log.Judges s.number s.log ⟨v, ending, a⟩) : (x.leave ⟨v, ending, a⟩).Recalls := by
  have hvisits : s.visits = v :: s.queue := by simp [visits, hh]
  have hgate : Log.gate s.log = v :: s.queue := h.gate.symm.trans hvisits
  refine ⟨?_, ?_, ?_, by simp, ?_, ?_, by simp⟩
  · simp [Log.gate, hlog, hqueue, hgate]
  · simpa [hlog] using hfinished
  · intro _
    simpa [hlog] using hfailure
  · intro w hw key document n hr
    rw [leave_visits, hqueue] at hw
    rw [leave_log, hlog]
    exact h.seen w (by simp [hvisits, hw]) key document n hr
  · rw [leave_log, leave_number, hlog, hnumber]
    refine Log.eachTurn_cons.2 ⟨?_, h.turns⟩
    intro t ht
    obtain rfl := Record.turn.inj ht
    exact ⟨by rw [hgate]; rfl, hj⟩

theorem inside (h : s.Recalls) {stage : Stage} (hh : s.holder = some ⟨v, stage⟩) {x : Slot} {w : Work}
    (hnumber : x.number = s.number) (hlog : x.log = s.log) (hqueue : x.queue = s.queue)
    (hfinished : x.finished = s.finished) (hw : x.work? = some (v, w))
    (hfailure : v.request ≠ .clear → x.failure = (Log.failure? s.log).map fun f => ⟨f.1, f.2.message⟩)
    (hclear : v.request = .clear → x.failure = none)
    (hlaunch : w = .launch → ∀ e, ¬Log.FailedSince v.call s.log e) : x.Recalls := by
  have hx : x.visits = s.visits := by
    unfold work? at hw
    split at hw <;> simp_all [visits]
  refine ⟨by rw [hx, hlog, h.gate], by rw [hfinished, hlog, h.finished], ?_, ?_, ?_, ?_, ?_⟩
  · intro hv
    rw [hlog]
    exact hfailure (hv v w hw)
  · intro v' w' hw' hv'
    obtain ⟨rfl, rfl⟩ : v = v' ∧ w = w' := by simpa [hw] using hw'
    exact hclear hv'
  · rw [hx, hlog]
    exact h.seen
  · rw [hlog, hnumber]
    exact h.turns
  · intro v' hw'
    obtain ⟨rfl, rfl⟩ : v = v' ∧ w = .launch := by simpa [hw] using hw'
    rw [hlog]
    exact hlaunch rfl

theorem failedSince_failure (h : s.Recalls) (hw : s.work? = none) {key : ServerKey} {document : Option Path}
    {n : Nat} (hv : v ∈ s.visits) (hr : v.request = .acquire key document n) {e : Error}
    (he : Log.FailedSince v.call s.log e) :
    ∃ f, s.failure = some f ∧ n < f.attempt ∧ f.reason = e.message := by
  obtain ⟨m, hm, hlt⟩ := Log.failedSince_iff.1 he
  refine ⟨⟨m, e.message⟩, ?_, ?_, rfl⟩
  · rw [h.failure (by simp [hw]), hm]
    rfl
  · rwa [h.seen v hv key document n hr]

theorem failure_failedSince (h : s.Recalls) (hw : s.work? = none) {key : ServerKey} {document : Option Path}
    {n : Nat} (hv : v ∈ s.visits) (hr : v.request = .acquire key document n) {f : LaunchFailure}
    (hf : s.failure = some f)
    (hlt : n < f.attempt) : ∃ e, Log.FailedSince v.call s.log e := by
  rw [h.failure (by simp [hw]), Option.map_eq_some_iff] at hf
  obtain ⟨⟨m, e⟩, hm, rfl⟩ := hf
  exact ⟨e, Log.failedSince_iff.2 ⟨m, hm, h.seen v hv key document n hr ▸ hlt⟩⟩

theorem serve (h : s.Recalls) (hs : s.Valid) (hc : s.Counts) (hh : s.holder = some ⟨v, .granted⟩) {now : Nat}
    {r : Slot × Option Answer} (hr : s.Serves now v r) : r.1.Recalls := by
  have hw := Valid.work?_granted hh
  have hv : v ∈ s.visits := by simp [visits, hh]
  have hshown := hc.outside hw
  have hfailure := h.failure (by simp [hw])
  have hzero (hv : s.Vacant) : s.tally.count = 0 := hshown ▸ hs.shown_vacant hw hv
  -- A turn that is over at once counts for nothing but a clear.
  have hleave {x : Slot} {a : Answer} (hnumber : x.number = s.number) (hlog : x.log = s.log)
      (hqueue : x.queue = s.queue) (hfinished : x.finished = s.finished) (hfail : x.failure = s.failure)
      (hr : v.request ≠ .clear) (hj : Log.Judges s.number s.log ⟨v, .atOnce, some a⟩) :
      (x.leave ⟨v, .atOnce, some a⟩).Recalls := by
    refine h.leave hh hnumber hlog hqueue ?_ ?_ hj
    · rw [Log.finished_turn (by simp), hfinished, h.finished]
    · rw [Log.failure?_turn (by simp) hr, hfail, hfailure]
  have hrelease {x : Slot} {a : Answer} {expected : Option ConnectionId} (hr : v.request = .release expected)
      (hnumber : x.number = s.number) (hlog : x.log = s.log) (hqueue : x.queue = s.queue)
      (hfinished : x.finished = s.finished) (hfail : x.failure = s.failure) :
      (x.leave ⟨v, .atOnce, some a⟩).Recalls :=
    hleave hnumber hlog hqueue hfinished hfail (by simp [hr]) fun key document n he => by simp [hr] at he
  cases hr with
  | share hr hc =>
    obtain ⟨hn, he, hpos⟩ := hshown ▸ hs.shown_ready hc
    have hcount : 0 < s.tally.count := by omega
    refine hleave rfl rfl rfl rfl rfl (by simp [hr]) fun key document n _ => ⟨fun _ => ⟨_, he, rfl, rfl⟩, ?_, ?_⟩
    · exact fun hzero => absurd hzero (Nat.ne_of_gt hcount)
    · exact fun hzero => absurd hzero (Nat.ne_of_gt hcount)
  | @refuse key document n f hr hv' hf hlt =>
    refine hleave rfl rfl rfl rfl rfl (by simp [hr]) fun key' document' n' hr' => ⟨?_, ?_, ?_⟩
    · exact fun hpos => absurd (hzero hv') (Nat.ne_of_gt hpos)
    · intro _ e he
      obtain ⟨f', hf', _, hreason⟩ := h.failedSince_failure hw hv hr he
      obtain rfl : f = f' := Option.some.inj (hf.symm.trans hf')
      obtain ⟨rfl, _, _⟩ : key = key' ∧ document = document' ∧ n = n' := by simpa [hr] using hr'
      exact ⟨rfl, by rw [hreason]⟩
    · intro _ hno
      obtain ⟨e, he⟩ := h.failure_failedSince hw hv hr hf hlt
      exact absurd he (hno e)
  | launch hr hv' hf =>
    refine h.inside hh rfl rfl rfl rfl rfl (fun _ => hfailure) (by simp [hr]) fun _ e he => ?_
    obtain ⟨f, hf', hlt, _⟩ := h.failedSince_failure hw hv hr he
    have := hf f hf'
    omega
  | ignore hr => exact hrelease hr rfl rfl rfl rfl rfl
  | drop hr => exact hrelease hr rfl rfl rfl rfl rfl
  | last hr => exact h.inside hh rfl rfl rfl rfl rfl (fun _ => hfailure) (by simp [hr]) (by simp)
  | forget hr =>
    refine h.leave hh rfl rfl rfl ?_ ?_ fun key document n he => by simp [hr] at he
    · rw [Log.finished_turn (by simp), ← h.finished]
    · rw [Log.failure?_clear (by simp) hr]
      rfl
  | close hr => exact h.inside hh rfl rfl rfl rfl rfl (by simp [hr]) (fun _ => rfl) (by simp)

theorem noted (h : s.Recalls) {x : Slot} {r : Record} (hr : r.turn? = none) (hlog : x.log = r :: s.log)
    (hnumber : x.number = s.number) (hfinished : x.finished = s.finished) (hfailure : x.failure = s.failure)
    (hw : x.work? = s.work?) (hgate : x.visits = Log.gate (r :: s.log))
    (hseen : ∀ v ∈ x.visits, ∀ key document n, v.request = .acquire key document n →
      n = Log.seen v.call (r :: s.log)) : x.Recalls := by
  have hturn : ∀ t, r ≠ .turn t := by
    rintro t rfl
    simp [Record.turn?] at hr
  have hlogs : Log.finished (r :: s.log) = Log.finished s.log ∧ Log.failure? (r :: s.log) = Log.failure? s.log := by
    cases r with
    | came | left => exact ⟨rfl, rfl⟩
    | turn t => exact absurd rfl (hturn t)
  refine ⟨by rw [hgate, hlog], ?_, ?_, ?_, by rw [hlog]; exact hseen, ?_, ?_⟩
  · rw [hfinished, hlog, hlogs.1, h.finished]
  · rw [hw, hfailure, hlog, hlogs.2]
    exact h.failure
  · rw [hw, hfailure]
    exact h.clearing
  · rw [hlog, hnumber]
    exact Log.eachTurn_cons.2 ⟨fun t ht => absurd ht (hturn t), h.turns⟩
  · intro v hv e he
    rw [hlog, Log.failedSince_cons] at he
    rcases he with ⟨t, ht, _⟩ | ⟨_, he⟩
    · exact hturn t ht
    · exact h.launching v (hw ▸ hv) e he

theorem come (h : s.Recalls) (hs : s.Valid) (ha : s.Admits v) : (s.come v).Recalls := by
  obtain ⟨hvisits, hw, hlog, _, hnumber, _, _, hfinished, hfailure⟩ := hs.come_eq v
  refine h.noted rfl hlog hnumber hfinished hfailure hw (by rw [hvisits, h.gate]; rfl) ?_
  intro w hw key document n hr
  rw [hvisits, List.mem_append, List.mem_singleton] at hw
  rcases hw with hw | rfl
  · have hne : v.call ≠ w.call := fun he => ha.absent w hw he.symm
    rw [Log.seen, if_neg hne]
    exact h.seen w hw key document n hr
  · rw [Log.seen, if_pos rfl, ← h.finished]
    exact (ha.asks key document n hr).2

theorem left (h : s.Recalls) {x : Slot} {c : CallId} (hlog : x.log = .left c :: s.log)
    (hnumber : x.number = s.number) (hfinished : x.finished = s.finished) (hfailure : x.failure = s.failure)
    (hw : x.work? = s.work?)
    (hvisits : x.visits = s.visits.filter fun v => v.call ≠ c) : x.Recalls := by
  refine h.noted rfl hlog hnumber hfinished hfailure hw (by rw [hvisits, h.gate]; rfl) ?_
  intro v hv key document n hr
  rw [hvisits] at hv
  exact h.seen v (List.mem_filter.1 hv).1 key document n hr

theorem step (h : s.Recalls) (hs : s.Valid) (hc : s.Counts) {s' : Slot} {c : CallId} (hstep : s.Step c s') :
    s'.Recalls := by
  -- Whoever waits for a launch found the count at zero, and no failure to share.
  have hlaunch {v since} (hh : s.holder = some ⟨v, .launching since⟩) {ending a}
      (he : (∃ outcome, ending = .launched outcome) ∨ ending = .givenUp) :
        Log.Judges s.number s.log ⟨v, ending, a⟩ := by
    have hw : s.work? = some (v, .launch) := by simp [work?, hh]
    obtain ⟨_, hzero, _⟩ := hc.launching v hw
    exact fun key document n _ => ⟨fun hpos => absurd hzero (Nat.ne_of_gt hpos),
      fun _ e hf => absurd hf (h.launching v hw e), fun _ _ => he⟩
  have hacquire {v since} (hh : s.holder = some ⟨v, .launching since⟩) : v.request ≠ .clear := by
    obtain ⟨⟨key, document, n, hr⟩, _⟩ := hc.launching v (by simp [work?, hh])
    simp [hr]
  have hstop {v g answer since ending a} (hh : s.holder = some ⟨v, .stopping g answer since⟩)
      (he : ∀ outcome, ending ≠ .launched outcome) :
        ((s.modify g Connection.endStop).leave ⟨v, ending, a⟩).Recalls := by
    have hw : s.work? = some (v, .stop g answer) := by simp [work?, hh]
    obtain ⟨_, _, _, _, hv⟩ := hc.stopping v g answer hw
    refine h.leave hh rfl rfl rfl ?_ ?_ ?_
    · rw [Log.finished_turn he, ← h.finished]
      rfl
    · show s.failure = _
      by_cases hclear : v.request = .clear
      · rw [Log.failure?_clear he hclear, h.clearing v _ hw hclear]
        rfl
      · rw [Log.failure?_turn he hclear]
        refine h.failure fun v' w' hw' => ?_
        obtain ⟨rfl, _⟩ : v = v' ∧ _ = w' := by simpa [hw] using hw'
        exact hclear
    · intro key document n hr
      rcases hv with ⟨_, hr', _⟩ | ⟨hr', _⟩ <;> simp [hr'] at hr
  cases hstep with
  | come ha => exact h.come hs ha
  | serve hh hr => exact h.serve hs hc hh hr
  | launched hh p =>
    exact h.leave hh rfl rfl rfl (congrArg (· + 1) h.finished) rfl (hlaunch hh (.inl ⟨_, rfl⟩))
  | failed hh e =>
    refine h.leave hh rfl rfl rfl (congrArg (· + 1) h.finished) ?_ (hlaunch hh (.inl ⟨_, rfl⟩))
    rw [h.finished]
    rfl
  | dropLaunch hh =>
    refine h.leave hh rfl rfl rfl ?_ ?_ (hlaunch hh (.inr rfl))
    · rw [Log.finished_turn (by simp), ← h.finished]
      rfl
    · rw [Log.failure?_turn (by simp) (hacquire hh)]
      refine h.failure fun v' w' hw' => ?_
      obtain ⟨rfl, _⟩ : _ = v' ∧ _ = w' := by simpa [work?, hh] using hw'
      exact hacquire hh
  | stopped hh => exact hstop hh (by simp)
  | dropStop hh => exact hstop hh (by simp)
  | @dropGranted v hh =>
    refine h.left (c := v.call) (by simp [note]) (by simp [note]) (by simp [note]) (by simp [note])
      ((handOver_work? _).trans (Valid.work?_granted hh).symm) ?_
    rw [hs.without_holder hh, handOver_visits]
    rfl
  | @dropQueued v hv =>
    exact h.left (c := v.call) rfl rfl rfl rfl rfl (hs.without_queued hv).symm

end Recalls

theorem Lives.recalls {s : Slot} (h : s.Lives) : s.Recalls := by
  induction h with
  | new key number => exact .new key number
  | step h hs ih => exact ih.step h.valid h.counts hs

end LanguageHost.Slot
