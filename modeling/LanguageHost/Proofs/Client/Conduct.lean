import LanguageHost.Proofs.Client.Launching

/-! The messages that a client sends on its own account, from the greeting to the exit, and what each waits for. -/
namespace LanguageHost.Client

variable {c c' : Client} {e : Event} {events : List Event} {greeting : Option Json}

section Conversation

def greetingRequest (params : Json) : Json := Message.request 0 "initialize" params
def exitNotice : Json := Message.notification "exit" .null

/-- What is said before a server is handed out. -/
def opening : Option Json → List Json
  | some params => [greetingRequest params, initializedNotice]
  | none => []

/-- The number of the request to shut down, which is the first where there is no greeting. -/
def closingNumber (greeting : Option Json) : Nat := if greeting.isSome then 1 else 0

def shutdownRequest (greeting : Option Json) : Json := Message.request (closingNumber greeting) "shutdown" .null

/-- All that a client ever says on its own account. -/
def conversation (greeting : Option Json) : List Json := opening greeting ++ [shutdownRequest greeting, exitNotice]

/-- How far the conversation has come in a phase. -/
def Said (greeting : Option Json) (c : Client) : Prop :=
  match c.phase with
  | .greeting _ => c.nextRequest = 1 ∧ ∃ params, greeting = some params ∧ c.own = [greetingRequest params]
  | .failed _ => ∃ params, greeting = some params ∧
      (c.own = [greetingRequest params] ∨ c.own = [greetingRequest params, initializedNotice])
  | .ready _ => c.nextRequest = closingNumber greeting ∧ c.own = opening greeting
  | .parting _ _ => c.own = opening greeting ++ [shutdownRequest greeting]
  | .leaving _ | .killing _ | .stopped _ => c.own = conversation greeting

theorem Said.in_order (h : c.Said greeting) : c.own <+: conversation greeting := by
  unfold Said at h
  split at h
  · obtain ⟨-, params, rfl, hown⟩ := h
    rw [hown]
    exact ⟨_, rfl⟩
  · obtain ⟨params, rfl, hown | hown⟩ := h
    · rw [hown]
      exact ⟨_, rfl⟩
    · rw [hown]
      exact ⟨_, rfl⟩
  · rw [h.2]
    exact List.prefix_append _ _
  · rw [h]
    exact (List.prefix_append_right_inj _).2 ⟨_, rfl⟩
  · rw [h]
  · rw [h]
  · rw [h]

theorem said_start (input : Sink) (greeting : Option Json) : (start input greeting).Said greeting := by
  cases greeting with
  | none => exact ⟨rfl, rfl⟩
  | some params =>
    have hown := ((start input none).request_own "initialize" params).1
    rw [start_greeting]
    split_ifs
    · exact ⟨rfl, params, rfl, hown⟩
    · exact ⟨params, rfl, .inl hown⟩

theorem Said.same (h : c.Said greeting) (hphase : c'.phase = c.phase) (hnext : c'.nextRequest = c.nextRequest)
    (hown : c'.own = c.own) : c'.Said greeting := by
  unfold Said at h ⊢
  rwa [hphase, hnext, hown]

theorem request_said (h : c.nextRequest = closingNumber greeting ∧ c.own = opening greeting) :
    (c.request "shutdown" .null).1.own = opening greeting ++ [shutdownRequest greeting] := by
  rw [(c.request_own ..).1, h.1, h.2]
  rfl

theorem Said.step (h : c.Said greeting) (hs : Step c e c') : c'.Said greeting := by
  cases hs with
  | answered => exact h.same rfl rfl (answers_write (isReply_reply ..)).1
  | refused hphase =>
    simp only [Said, hphase] at h
    obtain ⟨-, params, rfl, hown⟩ := h
    exact ⟨params, rfl, .inl hown⟩
  | accepted hphase =>
    simp only [Said, hphase] at h
    obtain ⟨hnext, params, rfl, hown⟩ := h
    exact ⟨hnext, (initialized_own c).1.trans (by rw [hown]; rfl)⟩
  | unheard hphase =>
    simp only [Said, hphase] at h
    obtain ⟨-, params, rfl, hown⟩ := h
    exact ⟨params, rfl, .inr ((initialized_own c).1.trans (by rw [hown]; rfl))⟩
  | left hphase =>
    simp only [Said, hphase] at h
    show c.leave.own = _
    rw [c.leave_own.1, h, conversation, List.append_assoc]
    rfl
  | parted hphase =>
    simp only [Said, hphase] at h
    exact h
  | killed hphase =>
    simp only [Said, hphase] at h
    exact h
  | reaped hphase =>
    simp only [Said, hphase] at h
    exact h
  | asked hphase =>
    simp only [Said, hphase] at h
    exact request_said h
  | unasked hphase =>
    simp only [Said, hphase] at h
    show (leave _).own = _
    rw [(leave_own _).1, request_said h, conversation, List.append_assoc]
    rfl
  | _ => exact h.same rfl rfl rfl

theorem said_run (h : c.Said greeting) (events : List Event) : (c.run events).Said greeting := by
  induction events generalizing c with
  | nil => exact h
  | cons e events ih => exact ih (h.step (c.step_apply e))

end Conversation

section Acceptance

/-- A client that has said no more than its greeting says more only to a reply that announces capabilities. -/
theorem Step.says_more {params : Json} (h : Step c e c') (hsaid : c.Said (some params)) (hfew : c.own.length ≤ 1)
    (hmore : 1 < c'.own.length) :
    ∃ n reply capabilities, c.phase = .greeting n ∧ c.replies.lookup n = some (some reply) ∧
      accepted? reply = some capabilities := by
  cases h with
  | answered =>
    rw [(answers_write (isReply_reply ..)).1] at hmore
    omega
  | accepted hphase hreply haccepted => exact ⟨_, _, _, hphase, hreply, haccepted⟩
  | unheard hphase hreply haccepted => exact ⟨_, _, _, hphase, hreply, haccepted⟩
  | left hphase =>
    simp only [Said, hphase] at hsaid
    simp [hsaid, opening] at hfew
  | asked hphase =>
    simp only [Said, hphase] at hsaid
    simp [hsaid.2, opening] at hfew
  | unasked hphase =>
    simp only [Said, hphase] at hsaid
    simp [hsaid.2, opening] at hfew
  | _ => exact absurd hmore (Nat.not_lt.2 hfew)

/-- The client greets back only when it has heard a reply that announces capabilities. -/
theorem run_accepted (input : Sink) (params : Json) (events : List Event)
    (h : 1 < ((start input (some params)).run events).own.length) :
    ∃ reply capabilities, greetingReply? events = some (some reply) ∧ accepted? reply = some capabilities := by
  induction events using List.reverseRecOn with
  | nil =>
    have hown := ((start input none).request_own "initialize" params).1
    have hlength : ((start input none).request "initialize" params).1.own.length = 1 := congrArg List.length hown
    rw [run, List.foldl_nil, start_greeting] at h
    split_ifs at h
    · exact absurd h (Nat.not_lt.2 (Nat.le_of_eq hlength))
    · exact absurd h (Nat.not_lt.2 (Nat.le_of_eq hlength))
  | append_singleton events e ih =>
    rw [run_concat] at h
    -- Either more was said before the last event, or that event says it.
    by_cases hbefore : 1 < ((start input (some params)).run events).own.length
    · obtain ⟨reply, capabilities, hreply, haccepted⟩ := ih hbefore
      exact ⟨reply, capabilities, by rw [greetingReply?_concat, hreply]; rfl, haccepted⟩
    · have hsaid := said_run (said_start input (some params)) events
      obtain ⟨n, reply, capabilities, hphase, hlookup, haccepted⟩ :=
        (step_apply _ e).says_more hsaid (Nat.not_lt.1 hbefore) h
      have hwait := run_waiting input params events hphase
      have hreply : greetingReply? events = some (some reply) := by rw [← hwait.reply, ← hwait.number, hlookup]
      exact ⟨reply, capabilities, by rw [greetingReply?_concat, hreply]; rfl, haccepted⟩

theorem initializedNotice_ne_request (id : Int) (method : String) (params : Json) :
    initializedNotice ≠ Message.request id method params := by
  intro h
  have hid := congrArg (fun m => m.member? "id") h
  simp [initializedNotice, Message.notification, Message.request, Json.member?_ofMembers, Json.lookup_cons_if] at hid

theorem initializedNotice_ne_exitNotice : initializedNotice ≠ exitNotice := by
  intro h
  have hmethod := congrArg (fun m => m.member? "method") h
  simp [initializedNotice, exitNotice, Message.notification, Json.member?_ofMembers, Json.lookup_cons_if] at hmethod

theorem accepted_of_initialized (input : Sink) (greeting : Option Json) (events : List Event)
    (h : initializedNotice ∈ ((start input greeting).run events).own) :
    ∃ reply capabilities, greetingReply? events = some (some reply) ∧ accepted? reply = some capabilities := by
  obtain ⟨later, hpart⟩ := (said_run (said_start input greeting) events).in_order
  cases greeting with
  | none =>
    have hmem : initializedNotice ∈ conversation none := hpart ▸ List.mem_append_left _ h
    simp [conversation, opening, shutdownRequest, initializedNotice_ne_request, initializedNotice_ne_exitNotice] at hmem
  | some params =>
    refine run_accepted input params events ?_
    rcases hown : ((start input (some params)).run events).own with _ | ⟨m, _ | ⟨m', rest⟩⟩
    · simp [hown] at h
    · rw [hown, List.mem_singleton] at h
      rw [hown] at hpart
      exact absurd (h.trans (List.cons.inj hpart).1) (initializedNotice_ne_request _ _ _)
    · simp

end Acceptance

end LanguageHost.Client
