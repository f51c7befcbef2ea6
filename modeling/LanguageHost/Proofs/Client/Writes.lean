import LanguageHost.Proofs.Client.Steps

/-! What a client writes: which messages are replies and which its own, and how they reach the server. -/
namespace LanguageHost

/-- A message without a method answers a request of the server. -/
def Write.isReply (w : Write) : Bool := (w.message.member? "method").isNone

namespace Client
variable {c c' : Client} {e : Event} {m : Json}

section Fields

theorem write_input : (c.write m).1.input = (c.input.send m).1 := rfl
theorem write_writes : (c.write m).1.writes = c.writes ++ [⟨m, (c.write m).2⟩] := rfl

theorem write_taken (h : c.input.Open) (m : Json) : (c.write m).2 = true := by
  simp only [write, h.send]
  rfl

end Fields

section Kinds

/-- The replies that were to be written, in order. -/
def answers (c : Client) : List Json := (c.writes.filter Write.isReply).map Write.message

/-- The messages that were to be written and are no replies, in order. -/
def own (c : Client) : List Json := (c.writes.filter fun w => !w.isReply).map Write.message

theorem isReply_request (id : Int) (method : String) (params : Json) (taken : Bool) :
    Write.isReply ⟨Message.request id method params, taken⟩ = false := by
  simp [Write.isReply, Message.request, Json.member?_ofMembers, Json.lookup_cons_if]

theorem isReply_notification (method : String) (params : Json) (taken : Bool) :
    Write.isReply ⟨Message.notification method params, taken⟩ = false := by
  simp [Write.isReply, Message.notification, Json.member?_ofMembers, Json.lookup_cons_if]

theorem isReply_reply (id result : Json) (taken : Bool) :
    Write.isReply ⟨Message.reply id result, taken⟩ = true := by
  simp [Write.isReply, Message.reply, Json.member?_ofMembers, Json.lookup_cons_if]

theorem own_write (h : Write.isReply ⟨m, (c.write m).2⟩ = false) :
    (c.write m).1.own = c.own ++ [m] ∧ (c.write m).1.answers = c.answers := by
  rw [own, answers, write_writes]
  simp [own, answers, List.filter_append, h]

theorem answers_write (h : Write.isReply ⟨m, (c.write m).2⟩ = true) :
    (c.write m).1.own = c.own ∧ (c.write m).1.answers = c.answers ++ [m] := by
  rw [own, answers, write_writes]
  simp [own, answers, List.filter_append, h]

end Kinds

section Acts

theorem start_greeting (input : Sink) (params : Json) :
    start input (some params) =
      if ((start input none).request "initialize" params).2 then
        { ((start input none).request "initialize" params).1 with phase := .greeting 0 }
      else ((start input none).request "initialize" params).1.fail (.handshake brokenPipe.message) :=
  rfl

theorem request_own (c : Client) (method : String) (params : Json) :
    (c.request method params).1.own = c.own ++ [Message.request c.nextRequest method params] ∧
      (c.request method params).1.answers = c.answers :=
  own_write (isReply_request ..)

theorem leave_own (c : Client) :
    c.leave.own = c.own ++ [Message.notification "exit" .null] ∧ c.leave.answers = c.answers :=
  own_write (isReply_notification ..)

theorem initialized_own (c : Client) :
    (c.write initializedNotice).1.own = c.own ++ [initializedNotice] ∧
      (c.write initializedNotice).1.answers = c.answers :=
  own_write (isReply_notification ..)

end Acts

section Answers

def takesIn? (c : Client) : Event → Option Json
  | .received m => if c.reading then some m else none
  | _ => none

/-- The messages that the reader takes in on a run, in order. -/
def takenIn (c : Client) : List Event → List Json
  | [] => []
  | e :: events => (c.takesIn? e).toList ++ (c.apply e).takenIn events

/-- The reply to a request of the server with this id, method and parameters. -/
def replyTo (request : Json × String × Json) : Json := Message.reply request.1 (answer request.2.1 request.2.2)

/-- A reply is written for a request that is taken in, and no other. -/
theorem Step.answers (h : Step c e c') :
    c'.answers = c.answers ++ ((c.takesIn? e).toList.filterMap request?).map replyTo := by
  cases h with
  | @dropped m h =>
    rw [takesIn?]
    split_ifs with hreading
    · simp [(h hreading).1]
    · simp
  | @resolved m n hreading hreply =>
    simp only [takesIn?, hreading, if_true, Option.toList_some, List.filterMap_cons, request?_of_replyTo? hreply,
      List.filterMap_nil, List.map_nil, List.append_nil]
    rfl
  | @answered m id params method hreading hrequest =>
    rw [(answers_write (isReply_reply ..)).2]
    simp [takesIn?, hreading, hrequest, replyTo]
  | accepted => exact (initialized_own c).2.trans (List.append_nil _).symm
  | unheard => exact (initialized_own c).2.trans (List.append_nil _).symm
  | left => exact (leave_own c).2.trans (List.append_nil _).symm
  | asked => exact (request_own c ..).2.trans (List.append_nil _).symm
  | unasked => exact ((leave_own _).2.trans (request_own c ..).2).trans (List.append_nil _).symm
  | _ => exact (List.append_nil _).symm

theorem run_answers (c : Client) (events : List Event) :
    (c.run events).answers = c.answers ++ ((c.takenIn events).filterMap request?).map replyTo := by
  induction events generalizing c with
  | nil => simp [run, takenIn]
  | cons e events ih =>
    have hrun : c.run (e :: events) = (c.apply e).run events := rfl
    rw [hrun, ih, (c.step_apply e).answers, takenIn, List.filterMap_append, List.map_append, List.append_assoc]

end Answers

section Delivery

/-- What depends on the input and the writes only, and outlasts a write, outlasts every event that does not close the
input. -/
theorem Step.preserves {P : Client → Prop} (h : Step c e c')
    (hsame : ∀ {c c' : Client}, P c → c'.input = c.input → c'.writes = c.writes → P c')
    (hwrite : ∀ {c : Client} (m : Json), P c → P (c.write m).1)
    (hclose : e = .inputClosed → P { c with input := c.input.close }) (hc : P c) : P c' := by
  have hleave {c : Client} (hc : P c) : P c.leave := hsame (hwrite (Message.notification "exit" .null) hc) rfl rfl
  have hrequest (method : String) (params : Json) : P (c.request method params).1 :=
    hsame (hwrite (Message.request c.nextRequest method params) hc) rfl rfl
  cases h with
  | closed => exact hclose rfl
  | answered => exact hwrite _ hc
  | accepted => exact hsame (hwrite initializedNotice hc) rfl rfl
  | unheard => exact hsame (hwrite initializedNotice hc) rfl rfl
  | left => exact hleave hc
  | asked => exact hsame (hrequest "shutdown" .null) rfl rfl
  | unasked => exact hleave (hrequest "shutdown" .null)
  | _ => exact hsame hc rfl rfl

/-- The server's input has the frames of the messages that it took, whole and in order, and after a message that it
refused it took no other. -/
structure Delivered (c : Client) : Prop where
  prompt : c.input.Prompt
  bytes : c.input.taken = Frame.stream c.sent
  first : c.writes.filter Write.taken <+: c.writes
  all : c.input.room = none → c.writes.filter Write.taken = c.writes

namespace Delivered

theorem of_eq (h : c.Delivered) (hinput : c'.input = c.input) (hwrites : c'.writes = c.writes) : c'.Delivered where
  prompt := hinput ▸ h.prompt
  bytes := by rw [sent, hinput, hwrites]; exact h.bytes
  first := hwrites ▸ h.first
  all := by rw [hinput, hwrites]; exact h.all

theorem write (h : c.Delivered) (m : Json) : (c.write m).1.Delivered := by
  obtain ⟨hroom, hsend⟩ | ⟨hroom, hsend⟩ := h.prompt.send m
  · have hwrite : c.write m =
        ({ c with
            input := { c.input with taken := c.input.taken ++ Frame.encode m }
            writes := c.writes ++ [⟨m, true⟩] }, true) := by
      simp only [Client.write, hsend]
      rfl
    -- Nothing was refused so far, so that what was taken is all that was written.
    have hall := h.all hroom
    rw [hwrite]
    refine ⟨⟨h.prompt.moves, .inl hroom⟩, ?_, ?_, fun _ => ?_⟩
    · have hbytes := h.bytes
      simp only [sent] at hbytes ⊢
      rw [List.filter_append, List.map_append, Frame.stream_append, hbytes]
      simp [Frame.stream]
    · simp [List.filter_append, hall]
    · simp [List.filter_append, hall]
  · have hwrite : c.write m = ({ c with writes := c.writes ++ [⟨m, false⟩] }, false) := by
      simp only [Client.write, hsend]
      rfl
    rw [hwrite]
    refine ⟨h.prompt, ?_, ?_, fun hnone => ?_⟩
    · have hbytes := h.bytes
      simpa [sent, List.filter_append] using hbytes
    · simpa [List.filter_append] using h.first.trans (List.prefix_append _ _)
    · exact absurd (hroom.symm.trans hnone) (by simp)

theorem close (h : c.Delivered) : { c with input := c.input.close }.Delivered where
  prompt := ⟨h.prompt.moves, .inr rfl⟩
  bytes := h.bytes
  first := h.first
  all hnone := by cases hnone

theorem step (h : c.Delivered) (hs : Step c e c') : c'.Delivered :=
  hs.preserves of_eq (fun m hc => hc.write m) (fun _ => h.close) h

theorem start {input : Sink} (h : input.Prompt) (hempty : input.taken = []) (greeting : Option Json) :
    (Client.start input greeting).Delivered := by
  have hnone : (Client.start input none).Delivered := ⟨h, hempty, List.prefix_rfl, fun _ => rfl⟩
  cases greeting with
  | none => exact hnone
  | some params =>
    have hrequest := hnone.write (Message.request 0 "initialize" params)
    rw [start_greeting]
    split_ifs <;> exact hrequest.of_eq rfl rfl

theorem run (h : c.Delivered) (events : List Event) : (c.run events).Delivered := by
  induction events generalizing c with
  | nil => exact h
  | cons e events ih => exact ih (h.step (c.step_apply e))

end Delivered

end Delivery

end Client

end LanguageHost
