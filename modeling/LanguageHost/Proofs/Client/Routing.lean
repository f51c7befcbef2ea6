import LanguageHost.Proofs.Client.Launching
import LanguageHost.Server.Exchange

/-! The output of a server as its client hears of it, and what the launch and the reader make of it. -/
namespace LanguageHost.Client

variable {c c' : Client} {e : Event} {events : List Event}

section Hearing

def Event.isHeard : Event → Bool
  | .received _ | .outputEnded => true
  | _ => false

/-- What the reader makes known of an output: its messages one after another, and that there are no more. -/
def heard (output : Frame.Bytes) : List Event := (Frame.messages output).map .received ++ [.outputEnded]

def isZero : Json → Bool
  | .int n => n == 0
  | _ => false

/-- A message that has no method, and the integer 0 as its id. -/
def answersGreeting (message : Json) : Bool :=
  ((message.member? "method").bind Json.asString?).isNone && (message.member? "id").any isZero

theorem requestNumber?_eq_zero {id : Json} : requestNumber? id = some 0 ↔ isZero id = true := by
  cases id with
  | int n =>
    simp only [requestNumber?, Json.asInt64?, isZero, beq_iff_eq]
    constructor
    · intro h
      split_ifs at h
      dsimp only at h
      split_ifs at h with hn
      have hzero := Option.some.inj h
      omega
    · rintro rfl
      rfl
  | _ => simp [requestNumber?, Json.asInt64?, isZero]

theorem replyTo?_eq_zero {m : Json} : replyTo? m = some 0 ↔ answersGreeting m = true := by
  unfold replyTo? answersGreeting
  cases (m.member? "method").bind Json.asString? with
  | some method => simp
  | none =>
    cases m.member? "id" with
    | none => simp
    | some id => simpa using requestNumber?_eq_zero

theorem word?_received (m : Json) : word? (.received m) = if answersGreeting m then some (some m) else none := by
  simp only [word?, replyTo?_eq_zero]

/-- The first reply of an output to the greeting is what is known about it first. -/
theorem greetingReply?_heard (output : Frame.Bytes) :
    greetingReply? (heard output) = some ((Frame.messages output).find? answersGreeting) := by
  have hmessages (messages : List Json) :
      greetingReply? (messages.map .received ++ [.outputEnded]) = some (messages.find? answersGreeting) := by
    induction messages with
    | nil => rfl
    | cons m messages ih =>
      rw [greetingReply?, List.map_cons, List.cons_append, List.findSome?_cons, word?_received, List.find?_cons]
      cases answersGreeting m with
      | true => rfl
      | false => exact ih
  exact hmessages _

theorem greetingReply?_filter (events : List Event) :
    greetingReply? (events.filter Event.isHeard) = greetingReply? events := by
  induction events with
  | nil => rfl
  | cons e events ih =>
    unfold greetingReply? at ih ⊢
    cases e with
    | received m => rw [List.filter_cons_of_pos rfl, List.findSome?_cons, List.findSome?_cons, ih]
    | outputEnded => rw [List.filter_cons_of_pos rfl, List.findSome?_cons, List.findSome?_cons, ih]
    | _ => exact ih

/-- What the reader has made known of an output agrees with the output as a whole. -/
theorem reply_of_heard {output : Frame.Bytes} {reply : Option Json}
    (h : events.filter Event.isHeard <+: heard output) (hreply : greetingReply? events = some reply) :
    (Frame.messages output).find? answersGreeting = reply := by
  rw [← greetingReply?_filter] at hreply
  exact Option.some.inj ((greetingReply?_heard output).symm.trans (h.findSome?_eq_some hreply))

theorem isHeard_of_heard {output : Frame.Bytes} (h : events <+: heard output) {e : Event} (he : e ∈ events) :
    e.isHeard = true := by
  have hmem := h.subset he
  rw [heard, List.mem_append, List.mem_map, List.mem_singleton] at hmem
  obtain ⟨m, -, rfl⟩ | rfl := hmem
  · rfl
  · rfl

theorem run_deaf (h : c.reading = false) (hheard : ∀ e ∈ events, e.isHeard = true) : c.run events = c := by
  induction events with
  | nil => rfl
  | cons e events ih =>
    rw [List.forall_mem_cons] at hheard
    have hsame : c.apply e = c := by
      cases e with
      | received => simp only [apply, h]; rfl
      | outputEnded => simp only [apply, h]; rfl
      | _ => cases hheard.1
    rw [run_cons, hsame]
    exact ih hheard.2

theorem heard_reading (c : Client) (output : Frame.Bytes) : (c.run (heard output)).reading = false := by
  rw [heard, run_concat, apply]
  split_ifs with h
  · rfl
  · exact Bool.eq_false_of_not_eq_true h

/-- What the reader takes from the output so far is the beginning of what is heard of all of it, and where the reader
goes on it finds the rest. -/
theorem read_heard (fuel : Nat) (x : Exchange) :
    ∃ events, (Exchange.read fuel x).client = x.client.run events ∧
      ((∀ more, heard (x.unread ++ more) = events ++ heard ((Exchange.read fuel x).unread ++ more)) ∨
        ∀ more, heard (x.unread ++ more) = events) := by
  induction fuel generalizing x with
  | zero => exact ⟨[], rfl, .inl fun _ => rfl⟩
  | succ fuel ih =>
    rw [Exchange.read]
    split
    next => exact ⟨[], rfl, .inl fun _ => rfl⟩
    next fault rest hnext =>
      refine ⟨[.outputEnded], rfl, .inr fun more => ?_⟩
      rw [heard, Frame.messages_of_next?_error hnext]
      rfl
    next message rest hnext =>
      obtain ⟨events, hclient, hheard⟩ := ih ({ x with unread := rest }.tell (.received message))
      have hmore (more : Frame.Bytes) : heard (x.unread ++ more) = .received message :: heard (rest ++ more) := by
        rw [heard, Frame.messages_of_next? hnext]
        rfl
      refine ⟨.received message :: events, hclient, hheard.imp (fun h more => ?_) fun h more => ?_⟩
      · exact (hmore more).trans (congrArg _ (h more))
      · exact (hmore more).trans (congrArg _ (h more))

/-- However the output of a server comes in pieces, its client hears what is heard of the whole. -/
theorem pieces_heard (x : Exchange) (pieces : List Frame.Bytes) :
    ∃ events, (pieces.foldl (fun x bytes => x.notice (.output bytes)) x).client = x.client.run events ∧
      events <+: heard (x.unread ++ pieces.flatten) := by
  induction pieces generalizing x with
  | nil => exact ⟨[], rfl, List.nil_prefix⟩
  | cons bytes pieces ih =>
    obtain ⟨first, hfirst, hheard⟩ :=
      read_heard (x.unread.length + bytes.length) { x with unread := x.unread ++ bytes }
    obtain ⟨later, hlater, hpart⟩ := ih (x.notice (.output bytes))
    have hnext : (x.notice (.output bytes)).client = x.client.run first := hfirst
    rw [List.foldl_cons, hlater, hnext, List.flatten_cons, ← List.append_assoc]
    obtain hheard | hheard := hheard
    · exact ⟨first ++ later, (run_append ..).symm, hheard _ ▸ (List.prefix_append_right_inj first).2 hpart⟩
    · -- The reader has ended within these bytes, and whatever it finds later it finds for nobody.
      have hended : (x.client.run first).reading = false := hheard [] ▸ heard_reading x.client _
      exact ⟨first, run_deaf hended fun e he => isHeard_of_heard hpart he, hheard _ ▸ List.prefix_rfl⟩

end Hearing

section Taking

def Event.message? : Event → Option Json
  | .received m => some m
  | _ => none

theorem Step.reading (h : Step c e c') (hreading : c'.reading = true) : c.reading = true := by
  cases h with
  | resolved hreading => exact hreading
  | ended => cases hreading
  | accepted => exact hreading
  | refused => cases hreading
  | unheard => cases hreading
  | parted => cases hreading
  | reaped => cases hreading
  | _ => exact hreading

theorem Step.received_reading {m : Json} (h : Step c (.received m) c') : c'.reading = c.reading := by
  cases h <;> rfl

theorem takenIn_deaf (h : c.reading = false) (events : List Event) : c.takenIn events = [] := by
  induction events generalizing c with
  | nil => rfl
  | cons e events ih =>
    have hnext : (c.apply e).reading = false := by
      by_contra hreading
      rw [(c.step_apply e).reading (by simpa using hreading)] at h
      cases h
    have hnone : c.takesIn? e = none := by
      cases e <;> simp [takesIn?, h]
    rw [takenIn, hnone, ih hnext]
    rfl

/-- The reader takes in messages in the order in which they come, until it stops. -/
theorem takenIn_in_order (c : Client) (events : List Event) : c.takenIn events <+: events.filterMap Event.message? := by
  induction events generalizing c with
  | nil => exact List.prefix_rfl
  | cons e events ih =>
    cases hreading : c.reading with
    | false =>
      rw [takenIn_deaf hreading]
      exact List.nil_prefix
    | true =>
      have htakes : c.takesIn? e = e.message? := by
        cases e <;> simp [takesIn?, Event.message?, hreading]
      have hmessages : (e :: events).filterMap Event.message? =
          e.message?.toList ++ events.filterMap Event.message? := by
        cases h : e.message? <;> simp [h]
      rw [takenIn, htakes, hmessages]
      exact (List.prefix_append_right_inj _).2 (ih _)

theorem messages_of_heard {output : Frame.Bytes} (h : events.filter Event.isHeard <+: heard output) :
    events.filterMap Event.message? <+: Frame.messages output := by
  have hevents : (events.filter Event.isHeard).filterMap Event.message? = events.filterMap Event.message? := by
    rw [List.filterMap_filter]
    congr 1
    funext e
    cases e <;> rfl
  have hheard : (heard output).filterMap Event.message? = Frame.messages output := by
    simp [heard, Event.message?, List.filterMap_map, Function.comp_def]
  rw [← hevents, ← hheard]
  exact h.filterMap _

end Taking

section Routing

/-- How the launch of a server ends that sends these messages, as their first reply to the greeting has it. -/
structure Routed (messages : List Json) (phase : Phase) : Prop where
  unanswered (h : messages.find? answersGreeting = none) : phase = .failed (.handshake Error.eof.message)
  refused {r error : Json} (h : messages.find? answersGreeting = some r) (herror : r.member? "error" = some error) :
    phase = .failed (.handshake (Error.protocol ("initialize failed: " ++ error.compact)).message)
  /-- The result announces capabilities. One that is missing counts as null. -/
  accepted {r capabilities : Json} (h : messages.find? answersGreeting = some r) (herror : r.member? "error" = none)
    (hresult : announced? ((r.member? "result").getD .null) = some capabilities) : phase = .ready (some capabilities)
  invalid {r : Json} (h : messages.find? answersGreeting = some r) (herror : r.member? "error" = none)
    (hresult : announced? ((r.member? "result").getD .null) = none) :
    phase = .failed (.handshake "invalid initialize result: no capabilities")

theorem Routed.greeted (h : c.input.Open) {messages : List Json} {phase : Phase}
    (hphase : (c.greeted (messages.find? answersGreeting)).launched? = some phase) : Routed messages phase := by
  have htaken := write_taken h (Message.notification "initialized" (.object []))
  have hphase := launched?_eq_some hphase
  constructor
  · intro hnone
    rw [← hphase, hnone]
    rfl
  · intro r error hsome herror
    rw [← hphase, hsome]
    simp only [Client.greeted, herror]
    rfl
  · intro r capabilities hsome herror hresult
    rw [← hphase, hsome]
    simp only [Client.greeted, herror, hresult, htaken, if_true]
  · intro r hsome herror hresult
    rw [← hphase, hsome]
    simp only [Client.greeted, herror, hresult]
    rfl

/-- What a client makes of the output of a server on a run. -/
structure Hears (c : Client) (output : Frame.Bytes) (events : List Event) : Prop where
  /-- The launch ends as the first reply to the greeting has it, and no other message changes that. -/
  ends {phase : Phase} (h : c.launchedAs? events = some phase) : Routed (Frame.messages output) phase
  /-- It ends at the latest with the caller's turn after that reply or the end of the output. -/
  settles {before : List Event} (h : before ++ [.proceed] <+: events)
    (hknown : .outputEnded ∈ before ∨ ∃ r, .received r ∈ before ∧ answersGreeting r = true) :
    (c.launchedAs? events).isSome
  takes : c.takenIn events <+: Frame.messages output
  answers : (c.run events).answers = ((c.takenIn events).filterMap request?).map replyTo
  delivered : (c.run events).sent = (c.run events).writes.map Write.message

theorem Step.isOpen (h : Step c e c') (he : e ≠ .inputClosed) (hc : c.input.Open) : c'.input.Open := by
  refine h.preserves (P := fun c => c.input.Open) ?_ ?_ (fun hclose => absurd hclose he) hc
  · intro c c' hc hinput _
    rwa [hinput]
  · intro c m hc
    rw [write_input, hc.send]
    exact ⟨hc.moves, hc.endless⟩

theorem run_isOpen (hopen : .inputClosed ∉ events) (hc : c.input.Open) : (c.run events).input.Open := by
  induction events generalizing c with
  | nil => exact hc
  | cons e events ih =>
    rw [List.mem_cons, not_or] at hopen
    exact ih hopen.2 ((c.step_apply e).isOpen (Ne.symm hopen.1) hc)

theorem start_open {input : Sink} (h : input.Open) (params : Json) :
    start input (some params) = { ((start input none).request "initialize" params).1 with phase := .greeting 0 } := by
  have htaken : ((start input none).request "initialize" params).2 = true := write_taken (c := start input none) h _
  rw [start_greeting, if_pos htaken]

theorem known_of_mem (h : .outputEnded ∈ events ∨ ∃ r, .received r ∈ events ∧ answersGreeting r = true) :
    (greetingReply? events).isSome := by
  rw [greetingReply?, List.findSome?_isSome_iff]
  obtain hended | ⟨r, hr, hanswers⟩ := h
  · exact ⟨_, hended, rfl⟩
  · exact ⟨_, hr, by rw [word?_received, if_pos hanswers]; rfl⟩

end Routing

/-- The launch of a server that was greeted, whatever it sends and whenever that is heard, while it takes what is
written to it. -/
theorem launch_routed (chunk : Option Nat) (hchunk : chunk ≠ some 0) (params : Json) (output : Frame.Bytes)
    (events : List Event) (hheard : events.filter Event.isHeard <+: heard output) (hopen : .inputClosed ∉ events) :
    (start (.unbounded chunk) (some params)).Hears output events := by
  have hinput : (Sink.unbounded chunk).Open := ⟨hchunk, rfl⟩
  have hstart := start_open hinput params
  have hgreeting : (start (.unbounded chunk) (some params)).phase = .greeting 0 := by rw [hstart]
  have hanswers : (start (.unbounded chunk) (some params)).answers = [] := by
    rw [hstart]
    exact (request_own ..).2
  have hstarted : (start (.unbounded chunk) (some params)).Delivered := .start hinput.prompt rfl _
  have hstartedOpen : (start (.unbounded chunk) (some params)).input.Open := by
    rw [hstart]
    show ((Sink.unbounded chunk).send _).1.Open
    rw [hinput.send]
    exact ⟨hchunk, rfl⟩
  constructor
  · intro phase h
    obtain ⟨before, e, n, hpart, hbefore, hphase⟩ := launchedAs?_eq_some h hgreeting
    have hwait := run_waiting _ params before hbefore
    obtain ⟨rfl, reply, hreply⟩ := (step_apply _ e).launched hbefore (by simp [hphase])
    have hearlier := (List.prefix_append before _).trans hpart
    -- What the caller found among the replies is what the whole output says, however much of it was heard by then.
    have hfind : (Frame.messages output).find? answersGreeting = reply := by
      refine reply_of_heard ((hearlier.filter _).trans hheard) ?_
      rw [← hwait.reply, ← hwait.number, hreply]
    have hbeforeOpen := run_isOpen (fun hmem => hopen (hearlier.subset hmem)) hstartedOpen
    rw [proceed_greeted hbefore hreply, ← hfind] at hphase
    exact .greeted hbeforeOpen hphase
  · intro before h hknown
    exact launchedAs?_isSome h (proceed_launched _ params (known_of_mem hknown))
  · exact (takenIn_in_order _ events).trans (messages_of_heard hheard)
  · rw [run_answers, hanswers, List.nil_append]
  · rw [sent, (hstarted.run events).all (run_isOpen hopen hstartedOpen).endless]

/-- A server asks for its configuration with the number of the greeting before it replies to that. -/
theorem launch_routed_configuration :
    let request : Json := .object [("id", .int 0), ("method", .string "workspace/configuration"),
      ("params", .object [("items", .array [.int 1, .int 2])])]
    let reply : Json := .object [("id", .int 0), ("result", .object [("capabilities", .object [])])]
    let client := start (.unbounded (some 7)) (some .null)
    let events : List Event := [.received request, .received reply, .proceed]
    some 7 ≠ some 0 ∧ events.filter Event.isHeard <+: heard (Frame.stream [request, reply]) ∧
      .inputClosed ∉ events ∧
      client.launchedAs? events = some (.ready (some (.object []))) ∧
      (client.run events).answers = [Message.reply (.int 0) (.array [.null, .null])] := by
  intro request reply client events
  have hsendable : ∀ m ∈ [request, reply], Frame.Sendable m :=
    List.forall_mem_cons.2 ⟨⟨rfl, by decide, by decide⟩,
      List.forall_mem_singleton.2 ⟨rfl, by decide, by decide⟩⟩
  have hmessages : Frame.messages (Frame.stream [request, reply]) = [request, reply] := by
    have hstream := Frame.messages_stream hsendable []
    rw [List.append_nil] at hstream
    rw [hstream, Frame.messages_of_not (by simp [Frame.read, Frame.headers])]
    rfl
  have hheard : events.filter Event.isHeard <+: heard (Frame.stream [request, reply]) := by
    rw [heard, hmessages]
    exact List.prefix_append _ [Event.outputEnded]
  have hopen : .inputClosed ∉ events := by simp [events]
  have h := launch_routed (some 7) (by decide) .null (Frame.stream [request, reply]) events hheard hopen
  have hsettled : (client.launchedAs? events).isSome :=
    h.settles (List.prefix_refl ([Event.received request, .received reply] ++ [.proceed]))
      (.inr ⟨reply, by simp, rfl⟩)
  obtain ⟨phase, hphase⟩ := Option.isSome_iff_exists.1 hsettled
  have hready : phase = .ready (some (.object [])) := by
    refine (h.ends hphase).accepted (r := reply) ?_ rfl rfl
    rw [hmessages]
    rfl
  have hreading : client.reading = true := by
    have hinput : (Sink.unbounded (some 7)).Open := ⟨by decide, rfl⟩
    exact congrArg reading (start_open hinput .null)
  have htaken : client.takenIn events = [request, reply] := by
    simp [takenIn, takesIn?, events, (step_received ..).received_reading, hreading]
  refine ⟨by decide, hheard, hopen, hready ▸ hphase, ?_⟩
  rw [h.answers, htaken]
  rfl

end LanguageHost.Client
