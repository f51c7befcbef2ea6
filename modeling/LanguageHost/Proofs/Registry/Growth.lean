import LanguageHost.Proofs.Registry.Lives

/-! What a slot never loses: the identity and the past of its connections, and what its log has noted. -/
namespace LanguageHost

def Record.call : Record → CallId
  | .came v => v.call
  | .left c => c
  | .turn t => t.call

namespace Connection
variable {c d e : Connection}

/-- The connection at a later moment: every state it has been in is kept in mind. -/
structure Ages (c d : Connection) : Prop where
  id : d.id = c.id
  key : d.key = c.key
  states : c.status :: c.past <:+ d.status :: d.past

theorem Ages.refl (c : Connection) : c.Ages c := ⟨rfl, rfl, List.suffix_rfl⟩

theorem Ages.trans (h : c.Ages d) (h' : d.Ages e) : c.Ages e :=
  ⟨h'.id.trans h.id, h'.key.trans h.key, h.states.trans h'.states⟩

theorem ages_setRefs (c : Connection) (n : Nat) : c.Ages { c with refs := n } := ⟨rfl, rfl, List.suffix_rfl⟩

theorem ages_setStatus (c : Connection) (s : Status) : c.Ages (c.setStatus s) := ⟨rfl, rfl, List.suffix_cons _ _⟩

theorem ages_attach (c : Connection) (p : Process) : c.Ages (c.attach p) := ⟨rfl, rfl, List.suffix_cons _ _⟩

theorem ages_fail (c : Connection) : c.Ages c.fail := ⟨rfl, rfl, List.suffix_cons _ _⟩

theorem ages_beginStop (c : Connection) : c.Ages c.beginStop := by
  have h := c.ages_setStatus .shuttingDown
  unfold beginStop
  dsimp only
  split
  · exact ⟨h.id, h.key, h.states⟩
  · exact h

theorem ages_endStop (c : Connection) : c.Ages c.endStop := ages_setStatus c .closed

/-- Connections at a later moment, when there may be more of them. -/
def AllAge (cs ds : List Connection) : Prop :=
  ∀ (i : Nat) (c : Connection), cs[i]? = some c → ∃ d, ds[i]? = some d ∧ c.Ages d

variable {cs ds es : List Connection}

theorem AllAge.refl (cs : List Connection) : AllAge cs cs := fun _ c hc => ⟨c, hc, .refl c⟩

theorem AllAge.trans (h : AllAge cs ds) (h' : AllAge ds es) : AllAge cs es := by
  intro i c hc
  obtain ⟨d, hd, hcd⟩ := h i c hc
  obtain ⟨e, he, hde⟩ := h' i d hd
  exact ⟨e, he, hcd.trans hde⟩

theorem allAge_modify (cs : List Connection) (i : Nat) {f : Connection → Connection}
    (hf : ∀ c : Connection, c.Ages (f c)) : AllAge cs (cs.modify i f) := by
  intro j c hc
  rw [List.getElem?_modify, hc]
  by_cases hij : i = j
  · exact ⟨f c, by simp [hij], hf c⟩
  · exact ⟨c, by simp [hij], .refl c⟩

theorem allAge_append (cs ds : List Connection) : AllAge cs (cs ++ ds) := by
  intro i c hc
  exact ⟨c, by rw [List.getElem?_append_left (List.getElem?_eq_some_iff.1 hc).1, hc], .refl c⟩

end Connection

namespace Slot
variable {s s' s'' : Slot} {c : CallId} {v : Visit} {now : Nat}

/-- The slot at a later moment, when all that has been noted since is of the kind `P`. -/
structure Grows (P : Record → Prop) (s s' : Slot) : Prop where
  key : s'.key = s.key
  number : s'.number = s.number
  connections : Connection.AllAge s.connections s'.connections
  log : ∃ newer, s'.log = newer ++ s.log ∧ ∀ r ∈ newer, P r

variable {P P' : Record → Prop}

theorem Grows.refl (P : Record → Prop) (s : Slot) : s.Grows P s := ⟨rfl, rfl, .refl _, [], rfl, by simp⟩

theorem Grows.trans (h : s.Grows P s') (h' : s'.Grows P s'') : s.Grows P s'' := by
  obtain ⟨newer, hn, hP⟩ := h.log
  obtain ⟨newer', hn', hP'⟩ := h'.log
  refine ⟨h'.key.trans h.key, h'.number.trans h.number, h.connections.trans h'.connections, newer' ++ newer, ?_, ?_⟩
  · rw [hn', hn, List.append_assoc]
  · intro r hr
    exact (List.mem_append.1 hr).elim (hP' r) (hP r)

theorem Grows.mono (h : s.Grows P s') (hP : ∀ r, P r → P' r) : s.Grows P' s' := by
  obtain ⟨newer, hn, hr⟩ := h.log
  exact ⟨h.key, h.number, h.connections, newer, hn, fun r hm => hP r (hr r hm)⟩

/-- The call has left the others where they were, and whoever waits inside at its work. -/
structure Spares (s : Slot) (c : CallId) (s' : Slot) : Prop where
  visits : ∀ v, v.call ≠ c → (v ∈ s'.visits ↔ v ∈ s.visits)
  work : ∀ v w, v.call ≠ c → s.work? = some (v, w) → s'.work? = some (v, w)

theorem Spares.refl (s : Slot) (c : CallId) : s.Spares c s := ⟨fun _ _ => .rfl, fun _ _ _ hw => hw⟩

theorem Spares.trans (h : s.Spares c s') (h' : s'.Spares c s'') : s.Spares c s'' :=
  ⟨fun v hv => (h'.visits v hv).trans (h.visits v hv), fun v w hv hw => h'.work v w hv (h.work v w hv hw)⟩

theorem Step.spares (h : s.Lives) (hs : s.Step c s') : s.Spares c s' := by
  refine ⟨(hs.change h).visits, fun w x hw hx => ?_⟩
  have hholder {v : Visit} {stage : Stage} (hh : s.holder = some ⟨v, stage⟩) : w = v := by
    cases stage <;> simp [work?, hh] at hx
    · exact hx.1.symm
    · exact hx.1.symm
  cases hs with
  | @come v ha => exact (h.valid.come_eq v).2.1.trans hx
  | dropQueued => exact hx
  | serve hh | launched hh | failed hh | stopped hh | dropLaunch hh | dropStop hh | dropGranted hh =>
    exact absurd (congrArg Visit.call (hholder hh)) hw

theorem Lives.spares (h : s.Lives) (hs : s' = s ∨ s.Step c s') : s.Spares c s' := by
  rcases hs with rfl | hs
  · exact .refl s' c
  · exact hs.spares h

/-- A call has gone on: if it has its answer, its turn is noted. -/
structure Goes (s : Slot) (v : Visit) (r : Slot × Option Answer) : Prop where
  key : r.1.key = s.key
  number : r.1.number = s.number
  connections : Connection.AllAge s.connections r.1.connections
  log : ∃ e, r.1.log = (r.2.toList.map fun a => .turn ⟨v, e, some a⟩) ++ s.log

theorem Goes.grows {r : Slot × Option Answer} (h : s.Goes v r) : s.Grows (Record.call · = v.call) r.1 := by
  obtain ⟨e, he⟩ := h.log
  refine ⟨h.key, h.number, h.connections, _, he, ?_⟩
  intro x hx
  obtain ⟨a, _, rfl⟩ := List.mem_map.1 hx
  rfl

theorem goes_stay (s : Slot) (v : Visit) : s.Goes v (s, none) := ⟨rfl, rfl, .refl _, .atOnce, rfl⟩

theorem goes_reply {x : Slot} {e : Ending} {a : Answer} (hkey : x.key = s.key) (hnumber : x.number = s.number)
    (hlog : x.log = s.log) (hcs : Connection.AllAge s.connections x.connections) : s.Goes v (x.reply v e a) := by
  refine ⟨?_, ?_, ?_, e, ?_⟩
  · simpa using hkey
  · simpa using hnumber
  · simpa using hcs
  · simp [hlog]

theorem goes_stop {x : Slot} {d : Connection} {a : Answer} (hkey : x.key = s.key) (hnumber : x.number = s.number)
    (hlog : x.log = s.log) (hcs : Connection.AllAge s.connections x.connections) : s.Goes v (x.stop now v d a) := by
  unfold Slot.stop
  dsimp only
  split
  · exact ⟨hkey, hnumber, hcs.trans (Connection.allAge_modify _ _ Connection.ages_beginStop), .atOnce, hlog⟩
  · refine goes_reply hkey hnumber hlog (hcs.trans (Connection.allAge_modify _ _ fun c => ?_))
    exact c.ages_beginStop.trans (Connection.ages_endStop _)

theorem serve_goes (s : Slot) (now : Nat) (v : Visit) : s.Goes v (s.serve now v) := by
  have hrefs (g n : Nat) : Connection.AllAge s.connections (s.modify g fun c => { c with refs := n }).connections :=
    Connection.allAge_modify _ _ fun c => c.ages_setRefs n
  unfold serve
  split
  · unfold acquire
    split
    · exact goes_reply rfl rfl rfl (Connection.allAge_modify _ _ fun c => c.ages_setRefs _)
    · split
      · exact goes_reply rfl rfl rfl (.refl _)
      · exact ⟨rfl, rfl, Connection.allAge_append _ _, .atOnce, rfl⟩
  · unfold release
    split
    · exact goes_reply rfl rfl rfl (.refl _)
    · split
      · exact goes_reply rfl rfl rfl (.refl _)
      · exact goes_stop rfl rfl rfl (hrefs _ _)
      · exact goes_reply rfl rfl rfl (hrefs _ _)
  · unfold clear
    dsimp only
    split
    · exact goes_reply rfl rfl rfl (.refl _)
    · split
      · exact goes_stop rfl rfl rfl (hrefs _ _)
      · exact goes_reply rfl rfl rfl (.refl _)

/-- A call that comes is noted, and its turn with it if it has its answer at once. -/
theorem arrive_goes (s : Slot) (now : Nat) (v : Visit) : (s.note (.came v)).Goes v (s.arrive now v) := by
  unfold arrive
  split
  · exact serve_goes _ now v
  · exact ⟨rfl, rfl, .refl _, .atOnce, rfl⟩

theorem arrive_grows (s : Slot) (now : Nat) (v : Visit) : s.Grows (Record.call · = v.call) (s.arrive now v).1 := by
  have hnote : s.Grows (Record.call · = v.call) (s.note (.came v)) :=
    ⟨rfl, rfl, .refl _, [.came v], rfl, by simp [Record.call]⟩
  exact hnote.trans (s.arrive_goes now v).grows

theorem serve_visits (s : Slot) (now : Nat) (v : Visit) :
    (s.serve now v).1.visits = s.queue ∨ (s.serve now v).1.visits = v :: s.queue := by
  have hstop {x : Slot} {d : Connection} {a : Answer} (hx : x.queue = s.queue) :
      (x.stop now v d a).1.visits = s.queue ∨ (x.stop now v d a).1.visits = v :: s.queue := by
    unfold Slot.stop
    dsimp only
    split
    · exact .inr (congrArg (v :: ·) hx)
    · exact .inl ((leave_visits _ _).trans hx)
  unfold serve
  split
  · unfold acquire
    split
    · exact .inl (leave_visits _ _)
    · split
      · exact .inl (leave_visits _ _)
      · exact .inr rfl
  · unfold release
    split
    · exact .inl (leave_visits _ _)
    · split
      · exact .inl (leave_visits _ _)
      · exact hstop rfl
      · exact .inl (leave_visits _ _)
  · unfold clear
    dsimp only
    split
    · exact .inl (leave_visits _ _)
    · split
      · exact hstop rfl
      · exact .inl (leave_visits _ _)

theorem arrive_spares (s : Slot) (now : Nat) (v : Visit) : s.Spares v.call (s.arrive now v).1 := by
  have hother {w : Visit} (hw : w.call ≠ v.call) : w ≠ v := fun he => hw (congrArg Visit.call he)
  unfold arrive
  split
  · rename_i hh
    refine ⟨fun w hw => ?_, fun w x _ hx => by simp [work?, hh] at hx⟩
    have hvisits : s.visits = s.queue := by simp [visits, hh]
    rw [hvisits]
    rcases (s.note (.came v)).serve_visits now v with he | he <;> rw [he]
    · exact .rfl
    · simp [note, hother hw]
  · rename_i hh
    refine ⟨fun w hw => ?_, fun w x _ hx => hx⟩
    simp [visits, note, hh, hother hw]

section Holder
variable {stage : Stage} (hh : s.holder = some ⟨v, stage⟩)
include hh

theorem enter_goes (now : Nat) : s.Goes v (s.enter now) := by
  unfold enter
  rw [hh]
  cases stage with
  | granted => exact serve_goes s now v
  | launching | stopping => exact goes_stay s v

theorem launched_goes (outcome : Except Error Process) : s.Goes v (s.launched outcome) := by
  unfold launched
  rw [hh]
  cases stage with
  | launching =>
    cases outcome with
    | ok p => exact goes_reply rfl rfl rfl (Connection.allAge_modify _ _ fun c => c.ages_attach p)
    | error e => exact goes_reply rfl rfl rfl (Connection.allAge_modify _ _ Connection.ages_fail)
  | granted | stopping => exact goes_stay s v

theorem stopped_goes : s.Goes v s.stopped := by
  unfold stopped
  rw [hh]
  cases stage with
  | stopping => exact goes_reply rfl rfl rfl (Connection.allAge_modify _ _ Connection.ages_endStop)
  | granted | launching => exact goes_stay s v

end Holder

/-- A call that is given up leaves a note of it, or the turn that it did not bring to an answer. -/
theorem abandon_log (s : Slot) (c : CallId) : (s.abandon c).log = s.log ∨ ∃ r, (s.abandon c).log = r :: s.log ∧
    (r = .left c ∨ ∃ v ∈ s.visits, v.call = c ∧ r = .turn ⟨v, .givenUp, none⟩) := by
  unfold abandon
  split
  · rename_i v stage hh
    have hv : v ∈ s.visits := by simp [visits, hh]
    split
    · rename_i hc
      split
      · exact .inr ⟨.left c, by simp [note], .inl rfl⟩
      · exact .inr ⟨_, leave_log _ _, .inr ⟨v, hv, hc, rfl⟩⟩
      · exact .inr ⟨_, leave_log _ _, .inr ⟨v, hv, hc, rfl⟩⟩
    · split
      · exact .inr ⟨.left c, rfl, .inl rfl⟩
      · exact .inl rfl
  · exact .inl rfl

theorem abandon_grows (s : Slot) (c : CallId) : s.Grows (Record.call · = c) (s.abandon c) := by
  have hlog : ∃ newer, (s.abandon c).log = newer ++ s.log ∧ ∀ r ∈ newer, r.call = c := by
    rcases s.abandon_log c with he | ⟨r, he, hr⟩
    · exact ⟨[], he, by simp⟩
    · refine ⟨[r], he, fun r' hr' => ?_⟩
      obtain rfl := List.mem_singleton.1 hr'
      rcases hr with rfl | ⟨v, _, hv, rfl⟩
      · rfl
      · exact hv
  suffices h : (s.abandon c).key = s.key ∧ (s.abandon c).number = s.number ∧
      Connection.AllAge s.connections (s.abandon c).connections from ⟨h.1, h.2.1, h.2.2, hlog⟩
  unfold abandon
  split
  · split
    · split
      · exact ⟨by simp [note], by simp [note], by simpa [note] using .refl _⟩
      · exact ⟨leave_key _ _, leave_number _ _, by
          simpa [modify] using Connection.allAge_modify _ _ Connection.ages_fail⟩
      · exact ⟨leave_key _ _, leave_number _ _, by
          simpa [modify] using Connection.allAge_modify _ _ Connection.ages_endStop⟩
    · split
      · exact ⟨rfl, rfl, .refl _⟩
      · exact ⟨rfl, rfl, .refl _⟩
  · exact ⟨rfl, rfl, .refl _⟩

theorem abandon_spares (s : Slot) (c : CallId) : s.Spares c (s.abandon c) := by
  unfold abandon
  split
  · rename_i v stage hh
    split
    · rename_i hv
      have hvisits (w : Visit) (hw : w.call ≠ c) : w ∈ s.queue ↔ w ∈ s.visits := by
        have hne : w ≠ v := fun he => hw (he ▸ hv)
        simp [visits, hh, hne]
      have hwork (w : Visit) (x : Work) (hw : w.call ≠ c) : s.work? ≠ some (w, x) := by
        intro hx
        cases stage <;> simp [work?, hh] at hx <;> exact hw (hx.1 ▸ hv)
      split
      · exact ⟨fun w hw => by simpa [note] using hvisits w hw, fun w x hw hx => absurd hx (hwork w x hw)⟩
      · exact ⟨fun w hw => by simpa [modify] using hvisits w hw, fun w x hw hx => absurd hx (hwork w x hw)⟩
      · exact ⟨fun w hw => by simpa [modify] using hvisits w hw, fun w x hw hx => absurd hx (hwork w x hw)⟩
    · split
      · exact ⟨fun w hw => by simp [visits, note, hw], fun _ _ _ hx => hx⟩
      · exact .refl s c
  · exact .refl s c

end Slot
end LanguageHost
