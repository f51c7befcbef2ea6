import LanguageHost.Proofs.Client.Writes
import LanguageHost.Proofs.Frame.Messages

/-! How the launch of a server ends: the first reply to the greeting decides it, whatever else the server sends. -/
namespace LanguageHost.Client

variable {c c' : Client} {e : Event} {events : List Event} {n : Nat}

section Runs

theorem run_cons (c : Client) (e : Event) (events : List Event) : c.run (e :: events) = (c.apply e).run events := rfl

theorem run_append (c : Client) (first second : List Event) : c.run (first ++ second) = (c.run first).run second :=
  List.foldl_append

theorem run_concat (c : Client) (events : List Event) (e : Event) : c.run (events ++ [e]) = (c.run events).apply e :=
  c.run_append events [e]

end Runs

section Greeting

/-- What an event makes known about the greeting: the reply to it, or that none will come. -/
def word? : Event → Option (Option Json)
  | .received m => if replyTo? m = some 0 then some (some m) else none
  | .outputEnded => some none
  | _ => none

def greetingReply? (events : List Event) : Option (Option Json) := events.findSome? word?

/-- The client waits for the reply to the greeting, or that reply waits for the client. -/
structure Waiting (c : Client) (events : List Event) (n : Nat) : Prop where
  number : n = 0
  reply : c.replies.lookup 0 = greetingReply? events
  pending : c.pending = if (greetingReply? events).isNone then [0] else []
  reading : greetingReply? events = none → c.reading = true

theorem greetingReply?_concat (events : List Event) (e : Event) :
    greetingReply? (events ++ [e]) = (greetingReply? events).or (word? e) := by
  rw [greetingReply?, List.findSome?_append, List.findSome?_singleton]
  rfl

theorem word?_request {m : Json} (h : request? m ≠ none) : word? (.received m) = none := by
  have hreply : replyTo? m ≠ some 0 := fun hreply => h (request?_of_replyTo? hreply)
  rw [word?, if_neg hreply]

theorem Step.greeting (h : Step c e c') (hphase : c'.phase = .greeting n) : c.phase = .greeting n := by
  cases h with
  | refused => cases hphase
  | accepted => cases hphase
  | unheard => cases hphase
  | left => cases hphase
  | parted => cases hphase
  | killed => cases hphase
  | reaped => cases hphase
  | asked => cases hphase
  | unasked => cases hphase
  | _ => exact hphase

theorem Waiting.same (h : c.Waiting events n) (hword : word? e = none ∨ (greetingReply? events).isSome)
    (hreplies : c'.replies = c.replies) (hpending : c'.pending = c.pending) (hreading : c'.reading = c.reading) :
    c'.Waiting (events ++ [e]) n := by
  have hknown : greetingReply? (events ++ [e]) = greetingReply? events := by
    rw [greetingReply?_concat]
    obtain hword | hword := hword
    · rw [hword, Option.or_none]
    · obtain ⟨reply, hreply⟩ := Option.isSome_iff_exists.1 hword
      rw [hreply, Option.some_or]
  exact ⟨h.number, by rw [hreplies, hknown, h.reply], by rw [hpending, hknown, h.pending],
    by rw [hreading, hknown]; exact h.reading⟩

theorem Waiting.unknown (h : c.Waiting events n) (hmem : 0 ∈ c.pending) : greetingReply? events = none := by
  by_contra hsome
  obtain ⟨reply, hreply⟩ := Option.ne_none_iff_exists'.1 hsome
  simp [h.pending, hreply] at hmem

theorem Waiting.step (h : c.Waiting events n) (hs : Step c e c') (hphase : c'.phase = .greeting n) :
    c'.Waiting (events ++ [e]) n := by
  cases hs with
  | @dropped m hdropped =>
    refine h.same ?_ rfl rfl rfl
    cases hknown : greetingReply? events with
    | some reply => exact .inr rfl
    | none =>
      have hreply : replyTo? m ≠ some 0 := fun hreply =>
        (hdropped (h.reading hknown)).2 0 hreply (by simp [h.pending, hknown])
      exact .inl (by rw [word?, if_neg hreply])
  | @resolved m k hreading hreply hmem =>
    -- While the greeting goes on no other request waits.
    have hk : k = 0 := by
      rw [h.pending] at hmem
      split_ifs at hmem
      · exact List.mem_singleton.1 hmem
      · cases hmem
    subst hk
    have hnone := h.unknown hmem
    have hword : greetingReply? (events ++ [.received m]) = some (some m) := by
      rw [greetingReply?_concat, hnone, word?, if_pos hreply, Option.none_or]
    refine ⟨h.number, ?_, ?_, fun hnone' => absurd (hword.symm.trans hnone') (by simp)⟩
    · rw [hword]
      show (c.replies ++ [(0, some m)]).lookup 0 = _
      rw [List.lookup_append, h.reply, hnone]
      rfl
    · rw [hword]
      show c.pending.erase 0 = _
      rw [h.pending, hnone]
      rfl
  | answered _ hrequest => exact h.same (.inl (word?_request (by simp [hrequest]))) rfl rfl rfl
  | deaf hdeaf =>
    refine h.same (.inr ?_) rfl rfl rfl
    by_contra hnot
    rw [h.reading (by simpa using hnot)] at hdeaf
    cases hdeaf
  | ended =>
    have hword : greetingReply? (events ++ [.outputEnded]) = some ((greetingReply? events).getD none) := by
      rw [greetingReply?_concat]
      cases greetingReply? events <;> rfl
    refine ⟨h.number, ?_, by rw [hword]; rfl, fun hnone => absurd (hword.symm.trans hnone) (by simp)⟩
    show (c.replies ++ c.pending.map fun k => (k, none)).lookup 0 = _
    rw [hword, List.lookup_append, h.reply, h.pending]
    cases greetingReply? events <;> rfl
  | refused => cases hphase
  | accepted => cases hphase
  | unheard => cases hphase
  | left => cases hphase
  | parted => cases hphase
  | killed => cases hphase
  | reaped => cases hphase
  | asked => cases hphase
  | unasked => cases hphase
  | _ => exact h.same (.inl rfl) rfl rfl rfl

/-- While the greeting goes on the client knows what the reader has made known. -/
theorem run_waiting (input : Sink) (params : Json) (events : List Event)
    (h : ((start input (some params)).run events).phase = .greeting n) :
    ((start input (some params)).run events).Waiting events n := by
  induction events using List.reverseRecOn generalizing n with
  | nil =>
    rw [run, List.foldl_nil, start_greeting] at h ⊢
    split_ifs at h ⊢ with htaken
    · cases h
      exact ⟨rfl, rfl, if_pos htaken, fun _ => rfl⟩
    · cases h
  | append_singleton events e ih =>
    -- No event leads back to the greeting, so it went on before the last event too.
    rw [run_concat] at h ⊢
    have hs := step_apply ((start input (some params)).run events) e
    exact (ih (hs.greeting h)).step hs h

end Greeting

section Ends

/-- How the launch has ended, unless the greeting still goes on. -/
def launched? (c : Client) : Option Phase :=
  match c.phase with
  | .greeting _ => none
  | phase => some phase

def launchedAs? (c : Client) : List Event → Option Phase
  | [] => c.launched?
  | e :: events => c.launched?.or ((c.apply e).launchedAs? events)

theorem launched?_eq_none : c.launched? = none ↔ ∃ n, c.phase = .greeting n := by
  unfold launched?
  split
  next n hphase => simp [hphase]
  next hphase => simpa using hphase

theorem launched?_eq_some {phase : Phase} (h : c.launched? = some phase) : c.phase = phase := by
  unfold launched? at h
  split at h
  · cases h
  · exact Option.some.inj h

theorem launchedAs?_eq_some {phase : Phase} (h : c.launchedAs? events = some phase)
    (hgreeting : c.phase = .greeting n) :
    ∃ before e m, before ++ [e] <+: events ∧ (c.run before).phase = .greeting m ∧
      ((c.run before).apply e).launched? = some phase := by
  induction events generalizing c n with
  | nil => simp [launchedAs?, launched?, hgreeting] at h
  | cons e events ih =>
    have hnone : c.launched? = none := launched?_eq_none.2 ⟨n, hgreeting⟩
    rw [launchedAs?, hnone, Option.none_or] at h
    cases hnext : (c.apply e).launched? with
    | some phase' =>
      have hsame : phase' = phase := by
        cases events <;> simpa [launchedAs?, hnext] using h
      exact ⟨[], e, n, by simp, hgreeting, hsame ▸ hnext⟩
    | none =>
      obtain ⟨m, hm⟩ := launched?_eq_none.1 hnext
      obtain ⟨before, e', k, hpart, hk, hphase⟩ := ih h hm
      exact ⟨e :: before, e', k, (List.prefix_cons_inj e).2 hpart, hk, hphase⟩

theorem launchedAs?_isSome {before : List Event} (hpart : before <+: events) (h : (c.run before).launched?.isSome) :
    (c.launchedAs? events).isSome := by
  induction before generalizing c events with
  | nil => cases events <;> simp_all [run, launchedAs?]
  | cons e before ih =>
    obtain ⟨rest, rfl⟩ := hpart
    rw [List.cons_append, launchedAs?, Option.isSome_or, ih (List.prefix_append before rest) h, Bool.or_true]

theorem proceed_launched (input : Sink) (params : Json) (h : (greetingReply? events).isSome) :
    ((start input (some params)).run (events ++ [.proceed])).launched?.isSome := by
  rw [run_concat]
  by_contra hnot
  obtain ⟨n, hn⟩ := launched?_eq_none.1 (Option.not_isSome_iff_eq_none.1 hnot)
  have hs := step_apply ((start input (some params)).run events) .proceed
  have hgreeting := hs.greeting hn
  have hwait := run_waiting input params events hgreeting
  obtain rfl := hwait.number
  generalize ((start input (some params)).run events).apply .proceed = c' at hn hs
  cases hs with
  | waiting hcannot => simp [canProceed, hgreeting, hwait.reply, h] at hcannot
  | _ => cases hn

/-- Only the caller ends the greeting, with what came of it. -/
theorem Step.launched (h : Step c e c') (hgreeting : c.phase = .greeting n) (hlaunched : c'.launched?.isSome) :
    e = .proceed ∧ ∃ reply, c.replies.lookup n = some reply := by
  have hnot : c.launched? = none := launched?_eq_none.2 ⟨n, hgreeting⟩
  have hsame {m : Nat} (hphase : c.phase = .greeting m) : m = n := by simpa [hphase] using hgreeting
  cases h with
  | refused hphase hreply => exact ⟨rfl, _, hsame hphase ▸ hreply⟩
  | accepted hphase hreply => exact ⟨rfl, _, hsame hphase ▸ hreply⟩
  | unheard hphase hreply => exact ⟨rfl, _, hsame hphase ▸ hreply⟩
  | left hphase => simp [hgreeting] at hphase
  | parted hphase => simp [hgreeting] at hphase
  | killed hphase => simp [hgreeting] at hphase
  | reaped hphase => simp [hgreeting] at hphase
  | asked hphase => simp [hgreeting] at hphase
  | unasked hphase => simp [hgreeting] at hphase
  | _ => exact absurd hlaunched (by rw [Option.not_isSome_iff_eq_none]; exact hnot)

theorem proceed_greeted {reply : Option Json} (hgreeting : c.phase = .greeting n)
    (hreply : c.replies.lookup n = some reply) : c.apply .proceed = c.greeted reply := by
  simp only [apply, proceed, hgreeting, hreply]

end Ends

end LanguageHost.Client
