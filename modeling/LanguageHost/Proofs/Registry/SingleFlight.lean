import LanguageHost.Proofs.Registry.Sharing

/-! Callers that queue behind a launch share what comes of it. -/
namespace LanguageHost.Slot

namespace Log
variable {log : List Record}

theorem gate_came (came : List Visit) : gate (came.map Record.came ++ log) = gate log ++ came.reverse := by
  induction came with
  | nil => simp
  | cons v came ih => simp [gate, ih]

theorem gate_turns {P : List Record → Turn → Prop} (turns : List Turn)
    (h : EachTurn (fun older t => (gate older).head? = some t.toVisit ∧ P older t) (turns.map Record.turn ++ log)) :
    gate log = (turns.map Turn.toVisit).reverse ++ gate (turns.map Record.turn ++ log) := by
  induction turns with
  | nil => rfl
  | cons t turns ih =>
    rw [List.map_cons, List.cons_append] at h
    obtain ⟨ht, h⟩ := eachTurn_cons.1 h
    have hhead := List.eq_cons_of_mem_head? (ht t rfl).1
    rw [ih h, hhead]
    simp [gate]

theorem tally_turn (number : Nat) (t : Turn) :
    tally number (.turn t :: log) = (tally number log).after number t := rfl

theorem tally_came (number : Nat) (came : List Visit) :
    tally number (came.map Record.came ++ log) = tally number log := by
  induction came with
  | nil => rfl
  | cons v came ih => exact ih

/-- At zero a failure is shared by acquires in a row, and nothing else happens. -/
theorem judges_failed {number : Nat} {t₀ : Turn} {e : Error} (he : t₀.ending = .launched (.error e))
    (turns : List Turn) (hzero : (tally number (.turn t₀ :: log)).count = 0)
    (hacquire : ∀ t ∈ turns, ∃ key document n, t.request = .acquire key document n)
    (h : EachTurn (fun older t => Judges number older t) (turns.map Record.turn ++ .turn t₀ :: log)) :
    tally number (turns.map Record.turn ++ .turn t₀ :: log) = tally number (.turn t₀ :: log) ∧
      ∀ t ∈ turns, ∀ key document n, t.request = .acquire key document n →
        t.ending = .atOnce ∧ t.answer = some (.refused (.launchFailed key.text e.message)) := by
  induction turns with
  | nil => exact ⟨rfl, by simp⟩
  | cons t turns ih =>
    rw [List.map_cons, List.cons_append] at h ⊢
    obtain ⟨ht, h⟩ := eachTurn_cons.1 h
    obtain ⟨htally, hturns⟩ := ih (fun t' ht' => hacquire t' (by simp [ht'])) h
    obtain ⟨key, document, n, hr⟩ := hacquire t (by simp)
    have hsince : FailedSince t.call (turns.map Record.turn ++ .turn t₀ :: log) e := by
      refine ⟨turns.map Record.turn, t₀, log, rfl, he, ?_⟩
      intro r hr' hd
      obtain ⟨t', ht', rfl⟩ := List.mem_map.1 hr'
      obtain ⟨key', document', n', hr''⟩ := hacquire t' (by simp [ht'])
      obtain ⟨hending, _⟩ := hturns t' ht' key' document' n' hr''
      simp [Divides, hending, hr''] at hd
    obtain ⟨_, hshare, _⟩ := ht t rfl key document n hr
    obtain ⟨hending, hanswer⟩ := hshare (by rw [htally]; exact hzero) e hsince
    refine ⟨?_, ?_⟩
    · rw [tally_turn, htally]
      simp [Tally.after, hr, hzero, hending]
    · intro t' ht' key' document' n' hr'
      rcases List.mem_cons.1 ht' with rfl | ht'
      · obtain ⟨rfl, _, _⟩ : key = key' ∧ document = document' ∧ n = n' := by simpa [hr] using hr'
        exact ⟨hending, hanswer⟩
      · exact hturns t' ht' key' document' n' hr'

theorem judges_ready {number : Nat} (turns : List Turn) {m : Tally} {id : ConnectionId}
    (hm : tally number log = m) (hpos : 0 < m.count) (hentry : m.entry = some (id, .ready))
    (hacquire : ∀ t ∈ turns, ∃ key document n, t.request = .acquire key document n)
    (h : EachTurn (fun older t => Judges number older t) (turns.map Record.turn ++ log)) :
    tally number (turns.map Record.turn ++ log) =
        { m with count := m.count + turns.length } ∧
      ∀ t ∈ turns, t.ending = .atOnce ∧ t.answer = some (.acquired id) := by
  induction turns with
  | nil => exact ⟨hm, by simp⟩
  | cons t turns ih =>
    rw [List.map_cons, List.cons_append] at h ⊢
    obtain ⟨ht, h⟩ := eachTurn_cons.1 h
    obtain ⟨htally, hturns⟩ := ih (fun t' ht' => hacquire t' (by simp [ht'])) h
    obtain ⟨key, document, n, hr⟩ := hacquire t (by simp)
    obtain ⟨hshare, _, _⟩ := ht t rfl key document n hr
    have hcount : 0 < m.count + turns.length := by omega
    rw [htally] at hshare
    obtain ⟨id', hid, hending, hanswer⟩ := hshare hcount
    obtain rfl : id = id' := by simpa [hentry] using hid
    refine ⟨?_, ?_⟩
    · rw [tally_turn, htally]
      simp only [Tally.after, hr, hcount, if_true, List.length_cons]
      rfl
    · intro t' ht'
      rcases List.mem_cons.1 ht' with rfl | ht'
      · exact ⟨hending, hanswer⟩
      · exact hturns t' ht'

end Log

variable {s s' : Slot} {v₀ : Visit} {since : Nat} {turns : List Turn} {came : List Visit}
  {outcome : Except Error Process}
  {a : Option Answer}

/-- The calls that wait while a launch is in flight have their turns in order when it is over. -/
theorem Lives.flight_callers (h : s.Lives) (h' : s'.Lives) (hh : s.holder = some ⟨v₀, .launching since⟩)
    {t₀ : Turn} (hlog : s'.log = turns.map Record.turn ++ .turn t₀ :: (came.map Record.came ++ s.log))
    (hfree : s'.holder = none) :
    t₀.toVisit = v₀ ∧ (turns.map Turn.toVisit).reverse = s.queue ++ came.reverse := by
  have hgate : Log.gate (came.map Record.came ++ s.log) = v₀ :: (s.queue ++ came.reverse) := by
    rw [Log.gate_came, ← h.recalls.gate, visits, hh]
    rfl
  have hall := h'.recalls.turns
  rw [hlog] at hall
  have hturns := Log.gate_turns turns hall
  have hdone : Log.gate s'.log = [] := by
    rw [← h'.recalls.gate, visits, hfree, h'.valid.idle hfree]
    rfl
  rw [← hlog, hdone, List.append_nil] at hturns
  have hhead := (hall (turns.map Record.turn) t₀ _ rfl).1
  rw [hgate] at hhead
  exact ⟨(Option.some.inj hhead).symm, by rw [← hturns, Log.gate, hgate]; rfl⟩

/-- What a launch in flight comes to is allowed by the counter as it was before. -/
theorem Lives.flight_allows (h : s.Lives) (h' : s'.Lives) (hh : s.holder = some ⟨v₀, .launching since⟩)
    (hnumber : s'.number = s.number) {t₀ : Turn}
    (hlog : s'.log = turns.map Record.turn ++ .turn t₀ :: (came.map Record.came ++ s.log)) :
    s.tally.count = 0 ∧ s.generation = s.tally.launches + 1 ∧ s.tally.Allows s.number t₀ := by
  obtain ⟨_, hzero, hgen, _⟩ := h.counts.launching v₀ (by simp [work?, hh])
  refine ⟨hzero, hgen, ?_⟩
  have hruns := h'.counts.runs
  rw [Slot.turns, hlog, hnumber, List.filterMap_append] at hruns
  have hruns : Tally.Runs s.number (_ ++ t₀ :: (came.map Record.came ++ s.log).filterMap Record.turn?) := hruns
  have hallows := hruns.allows
  rwa [← Log.tally, Log.tally_came] at hallows

/-- A launch that succeeds serves its caller and all who queue: one connection, and a reference for
each of them. -/
theorem Lives.flight_ok (h : s.Lives) (h' : s'.Lives) (hh : s.holder = some ⟨v₀, .launching since⟩)
    (hnumber : s'.number = s.number) {t₀ : Turn}
    (hlog : s'.log = turns.map Record.turn ++ .turn t₀ :: (came.map Record.came ++ s.log))
    (hfree : s'.holder = none) {p : Process} (ht₀ : t₀.ending = .launched (.ok p))
    (hacquire : ∀ v ∈ s.queue ++ came.reverse, ∃ key document n, v.request = .acquire key document n) :
    s'.shown = s.tally.launch s.number (turns.length + 1) .ready ∧ s'.generation = s.generation ∧
      t₀.answer = some (.acquired ⟨s.number, s.generation⟩) ∧
      ∀ t ∈ turns, t.answer = some (.acquired ⟨s.number, s.generation⟩) := by
  obtain ⟨hvisit, hcallers⟩ := h.flight_callers h' hh hlog hfree
  obtain ⟨hzero, hgen, hallows⟩ := h.flight_allows h' hh hnumber hlog
  obtain ⟨⟨key, document, n, hr⟩, _⟩ := h.counts.launching v₀ (by simp [work?, hh])
  have hid : s.tally.next s.number = ⟨s.number, s.generation⟩ := by rw [hgen]; rfl
  have hr₀ : t₀.request = .acquire key document n := by rw [hvisit, hr]
  have htally : Log.tally s.number (.turn t₀ :: (came.map Record.came ++ s.log)) =
      s.tally.launch s.number 1 .ready := by
    rw [Log.tally_turn, Log.tally_came]
    show s.tally.after s.number t₀ = _
    simp [Tally.after, hr₀, hzero, ht₀]
  have hall := h'.recalls.turns
  rw [hlog, hnumber] at hall
  have hready := Log.judges_ready turns htally (Nat.zero_lt_one) rfl ?_
    fun newer t older he => (hall newer t older he).2
  · have hshown : s'.shown = _ := (h'.counts.outside (by simp [work?, hfree])).trans (by
      rw [Slot.tally, Slot.turns, ← Log.tally, hnumber, hlog, hready.1])
    refine ⟨?_, ?_, ?_, ?_⟩
    · rw [hshown]
      simp [Tally.launch, Nat.add_comm]
    · exact (congrArg Tally.launches hshown).trans hgen.symm
    · cases hallows <;> simp_all
    · intro t ht
      rw [← hid]
      exact (hready.2 t ht).2
  · intro t ht
    exact hacquire t.toVisit (hcallers ▸ by simpa using ⟨t, ht, rfl⟩)

/-- A launch that fails refuses its caller, and all who queue share the failure. -/
theorem Lives.flight_failed (h : s.Lives) (h' : s'.Lives) (hh : s.holder = some ⟨v₀, .launching since⟩)
    (hnumber : s'.number = s.number) {t₀ : Turn}
    (hlog : s'.log = turns.map Record.turn ++ .turn t₀ :: (came.map Record.came ++ s.log))
    (hfree : s'.holder = none) {e : Error} (ht₀ : t₀.ending = .launched (.error e))
    (hacquire : ∀ v ∈ s.queue ++ came.reverse, ∃ key document n, v.request = .acquire key document n) :
    s'.shown = s.tally.launch s.number 0 .failed ∧ s'.generation = s.generation ∧ t₀.answer = some (.refused e) ∧
      ∀ t ∈ turns, ∀ key document n, t.request = .acquire key document n →
        t.answer = some (.refused (.launchFailed key.text e.message)) := by
  obtain ⟨hvisit, hcallers⟩ := h.flight_callers h' hh hlog hfree
  obtain ⟨hzero, hgen, hallows⟩ := h.flight_allows h' hh hnumber hlog
  obtain ⟨⟨key, document, n, hr⟩, _⟩ := h.counts.launching v₀ (by simp [work?, hh])
  have hr₀ : t₀.request = .acquire key document n := by rw [hvisit, hr]
  have htally : Log.tally s.number (.turn t₀ :: (came.map Record.came ++ s.log)) =
      s.tally.launch s.number 0 .failed := by
    rw [Log.tally_turn, Log.tally_came]
    show s.tally.after s.number t₀ = _
    simp [Tally.after, hr₀, hzero, ht₀]
  have hall := h'.recalls.turns
  rw [hlog, hnumber] at hall
  have hfailed := Log.judges_failed ht₀ turns (by rw [htally]; rfl) ?_
    fun newer t older he => (hall newer t older he).2
  · have hshown : s'.shown = _ := (h'.counts.outside (by simp [work?, hfree])).trans (by
      rw [Slot.tally, Slot.turns, ← Log.tally, hnumber, hlog, hfailed.1, htally])
    refine ⟨hshown, ?_, ?_, fun t ht key document n hr => (hfailed.2 t ht key document n hr).2⟩
    · exact (congrArg Tally.launches hshown).trans hgen.symm
    · cases hallows <;> simp_all
  · intro t ht
    exact hacquire t.toVisit (hcallers ▸ by simpa using ⟨t, ht, rfl⟩)

/-- An acquire that comes to a free gate with nothing to share launches. Whatever failed before has
finished before the call came. -/
theorem Lives.arrive_launches (h : s.Lives) (hfree : s.holder = none) (hzero : s.shown.count = 0) {v : Visit}
    (ha : s.Admits v) {key : ServerKey} {document : Option Path} {n : Nat}
    (hr : v.request = .acquire key document n)
    (now : Nat) : (s.arrive now v).2 = none ∧ (s.arrive now v).1.generation = s.generation + 1 := by
  have hcome : s.come v = { s.note (.came v) with holder := some ⟨v, .granted⟩ } := by simp [come, hfree]
  have hserves := h.valid.arrive_serves hfree ha now
  generalize s.arrive now v = r at hserves
  rw [hcome] at hserves
  cases hserves with
  | share _ hc =>
    obtain ⟨hcount, _, hpos⟩ := h.valid.shown_ready (s := s) hc
    omega
  | @refuse _ _ n' f hr' _ hf hlt =>
    have hfail : s.failure = some f := hf
    rw [h.recalls.failure (by simp [work?, hfree]), Option.map_eq_some_iff] at hfail
    obtain ⟨⟨m, e⟩, hm, rfl⟩ := hfail
    have hle := Log.failure?_le hm
    have hseen := (ha.asks _ _ _ hr').2
    rw [h.recalls.finished] at hseen
    simp only at hlt
    omega
  | launch => exact ⟨rfl, by simp [generation, Slot.launch, note]⟩
  | ignore hr' | drop hr' | last hr' | forget hr' | close hr' => simp [hr] at hr'

end LanguageHost.Slot
