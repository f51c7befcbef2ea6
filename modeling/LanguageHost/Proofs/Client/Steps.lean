import LanguageHost.Client.Event
import LanguageHost.Proofs.Frame.Stream

/-! All that one event can do to a client, and what it does to the server's input. -/
namespace LanguageHost

namespace Sink

/-- A sink that takes a message as a whole or refuses it at once. -/
structure Prompt (s : Sink) : Prop where
  moves : s.chunk ≠ some 0
  decided : s.room = none ∨ s.room = some s.taken.length

variable {s : Sink}

theorem Prompt.send (h : s.Prompt) (m : Json) :
    (s.room = none ∧ s.send m = ({ s with taken := s.taken ++ Frame.encode m }, .ok ())) ∨
      (s.room = some s.taken.length ∧ s.send m = (s, .error closed)) := by
  obtain hroom | hroom := h.decided
  · have hfits : s.fits (Frame.encode m).length = (Frame.encode m).length := by simp only [fits, hroom]
    exact .inl ⟨hroom, by simp [Sink.send, writeAll_eq h.moves, hfits]⟩
  · have hfits : s.fits (Frame.encode m).length = 0 := by simp only [fits, hroom]; omega
    exact .inr ⟨hroom, by simp [Sink.send, writeAll_eq h.moves, hfits, Frame.encode_ne_nil]⟩

structure Open (s : Sink) : Prop where
  moves : s.chunk ≠ some 0
  endless : s.room = none

theorem Open.prompt (h : s.Open) : s.Prompt := ⟨h.moves, .inl h.endless⟩

theorem Open.send (h : s.Open) (m : Json) : s.send m = ({ s with taken := s.taken ++ Frame.encode m }, .ok ()) := by
  obtain ⟨-, hsend⟩ | ⟨hroom, -⟩ := h.prompt.send m
  · exact hsend
  · exact absurd (hroom.symm.trans h.endless) (by simp)

end Sink

namespace Client
variable {c c' : Client} {e : Event}

/-- The number of the request that a message replies to. -/
def replyTo? (message : Json) : Option Nat :=
  match (message.member? "method").bind Json.asString?, message.member? "id" with
  | none, some id => requestNumber? id
  | _, _ => none

/-- The id, method and parameters of a request of the server. -/
def request? (message : Json) : Option (Json × String × Json) :=
  match (message.member? "method").bind Json.asString?, message.member? "id" with
  | some method, some id => some (id, method, (message.member? "params").getD .null)
  | _, _ => none

theorem request?_of_replyTo? {m : Json} {n : Nat} (h : replyTo? m = some n) : request? m = none := by
  unfold replyTo? at h
  split at h
  next hmethod hid => simp only [request?, hmethod, hid]
  next => cases h

/-- The capabilities that a reply to the greeting announces, unless it is an error. -/
def accepted? (reply : Json) : Option Json :=
  match reply.member? "error" with
  | some _ => none
  | none => announced? ((reply.member? "result").getD .null)

def initializedNotice : Json := Message.notification "initialized" (.object [])

/-- What an event does to a client. -/
inductive Step (c : Client) : Event → Client → Prop where
  | dropped {m : Json} (h : c.reading = true → request? m = none ∧ ∀ n, replyTo? m = some n → n ∉ c.pending) :
      Step c (.received m) c
  | resolved {m : Json} {n : Nat} (hreading : c.reading = true) (hreply : replyTo? m = some n)
      (hpending : n ∈ c.pending) :
      Step c (.received m) { c with pending := c.pending.erase n, replies := c.replies ++ [(n, some m)] }
  | answered {m id params : Json} {method : String} (hreading : c.reading = true)
      (hrequest : request? m = some (id, method, params)) :
      Step c (.received m) (c.write (Message.reply id (answer method params))).1
  | deaf (h : c.reading = false) : Step c .outputEnded c
  | ended (h : c.reading = true) : Step c .outputEnded c.endReading
  | closed : Step c .inputClosed { c with input := c.input.close }
  | exited (status : ExitStatus) : Step c (.exited status) { c with exit := c.exit.or (some status) }
  | ticked (nanos : Nat) : Step c (.tick nanos) { c with now := c.now + nanos }
  | waiting (h : c.canProceed = false) : Step c .proceed c
  | refused {n : Nat} {reply : Option Json} {why : Error} (hphase : c.phase = .greeting n)
      (hreply : c.replies.lookup n = some reply) (hnone : reply.bind accepted? = none) : Step c .proceed (c.fail why)
  | accepted {n : Nat} {reply capabilities : Json} (hphase : c.phase = .greeting n)
      (hreply : c.replies.lookup n = some (some reply)) (haccepted : accepted? reply = some capabilities)
      (htaken : (c.write initializedNotice).2 = true) :
      Step c .proceed { (c.write initializedNotice).1 with phase := .ready (some capabilities) }
  | unheard {n : Nat} {reply capabilities : Json} (hphase : c.phase = .greeting n)
      (hreply : c.replies.lookup n = some (some reply)) (haccepted : accepted? reply = some capabilities)
      (htaken : (c.write initializedNotice).2 = false) : Step c .proceed ((c.write initializedNotice).1.fail brokenPipe)
  | left {n deadline : Nat} (hphase : c.phase = .parting n deadline)
      (hdue : (c.replies.lookup n).isSome ∨ deadline ≤ c.now) : Step c .proceed c.leave
  | parted {deadline : Nat} {status : ExitStatus} (hphase : c.phase = .leaving deadline)
      (hexit : c.exit = some status) :
      Step c .proceed (c.stop (outcome status))
  | killed {deadline : Nat} (hphase : c.phase = .leaving deadline) (hexit : c.exit = none) (hdue : deadline ≤ c.now) :
      Step c .proceed { c with phase := .killing (c.now + killWait.nanos), killed := true }
  | reaped {deadline : Nat} (hphase : c.phase = .killing deadline) (hdue : c.exit.isSome ∨ deadline ≤ c.now) :
      Step c .proceed (c.stop (.error (.timeout .exit exitWait)))
  | idle (h : ∀ capabilities, c.phase ≠ .ready capabilities) : Step c .shutdown c
  | asked {capabilities : Option Json} (hphase : c.phase = .ready capabilities)
      (htaken : (c.request "shutdown" .null).2 = true) :
      Step c .shutdown
        { (c.request "shutdown" .null).1 with phase := .parting c.nextRequest (c.now + replyWait.nanos) }
  | unasked {capabilities : Option Json} (hphase : c.phase = .ready capabilities)
      (htaken : (c.request "shutdown" .null).2 = false) : Step c .shutdown (c.request "shutdown" .null).1.leave

theorem step_received (c : Client) (m : Json) : Step c (.received m) (c.apply (.received m)) := by
  rw [apply]
  split
  next hreading =>
    unfold route
    split
    next id hmethod hid =>
      have hrequest : request? m = none := by simp only [request?, hmethod, hid]
      have hreply : replyTo? m = requestNumber? id := by simp only [replyTo?, hmethod, hid]
      split
      next n hn =>
        split
        next hpending => exact .resolved hreading (hreply.trans hn) (List.contains_iff_mem.1 hpending)
        next hpending =>
          refine .dropped fun _ => ⟨hrequest, fun k hk hmem => hpending ?_⟩
          obtain rfl : n = k := Option.some.inj (hn.symm.trans (hreply.symm.trans hk))
          exact List.contains_iff_mem.2 hmem
      next hnone => exact .dropped fun _ => ⟨hrequest, fun k hk => by simp [hreply, hnone] at hk⟩
    next method id hmethod hid => exact .answered hreading (by simp only [request?, hmethod, hid])
    next hid =>
      have hrequest : request? m = none := by
        rw [request?, hid]
        cases (m.member? "method").bind Json.asString? <;> rfl
      exact .dropped fun _ => ⟨hrequest, fun k hk => by simp [replyTo?, hid] at hk⟩
  next hreading => exact .dropped fun h => absurd h hreading

theorem step_greeted {n : Nat} {reply : Option Json} (hphase : c.phase = .greeting n)
    (hreply : c.replies.lookup n = some reply) : Step c .proceed (c.greeted reply) := by
  cases reply with
  | none => exact .refused hphase hreply rfl
  | some reply =>
    cases herror : reply.member? "error" with
    | some e =>
      have hrefused : accepted? reply = none := by simp only [accepted?, herror]
      simp only [greeted, herror]
      exact .refused hphase hreply hrefused
    | none =>
      have hresult : accepted? reply = announced? ((reply.member? "result").getD .null) := by
        simp only [accepted?, herror]
      cases hannounced : announced? ((reply.member? "result").getD .null) with
      | none =>
        simp only [greeted, herror, hannounced]
        exact .refused hphase hreply (hresult.trans hannounced)
      | some capabilities =>
        simp only [greeted, herror, hannounced]
        split_ifs with htaken
        · exact .accepted hphase hreply (hresult.trans hannounced) htaken
        · exact .unheard hphase hreply (hresult.trans hannounced) (Bool.eq_false_of_not_eq_true htaken)

theorem shutdown_ready {capabilities : Option Json} (h : c.phase = .ready capabilities) :
    c.shutdown =
      if (c.request "shutdown" .null).2 then
        { (c.request "shutdown" .null).1 with phase := .parting c.nextRequest (c.now + replyWait.nanos) }
      else (c.request "shutdown" .null).1.leave := by
  simp only [shutdown, h]

theorem step_shutdown (c : Client) : Step c .shutdown c.shutdown := by
  cases hphase : c.phase with
  | ready capabilities =>
    rw [shutdown_ready hphase]
    split_ifs with htaken
    · exact .asked hphase htaken
    · exact .unasked hphase (Bool.eq_false_of_not_eq_true htaken)
  | _ =>
    have hsame : c.shutdown = c := by simp only [shutdown, hphase]
    rw [hsame]
    exact .idle (by simp [hphase])

theorem step_proceed (c : Client) : Step c .proceed c.proceed := by
  unfold proceed
  split
  next n hphase =>
    split
    next reply hreply => exact step_greeted hphase hreply
    next hnone => exact .waiting (by simp [canProceed, deadline?, hphase, hnone])
  next n deadline hphase =>
    split
    next hdue => exact .left hphase hdue
    next hdue =>
      rw [not_or] at hdue
      refine .waiting ?_
      simp only [canProceed, deadline?, hphase, Option.any_some, Bool.or_eq_false_iff]
      exact ⟨decide_eq_false hdue.2, Bool.eq_false_of_not_eq_true hdue.1⟩
  next deadline hphase =>
    split
    next status hexit => exact .parted hphase hexit
    next hexit =>
      split
      next hdue => exact .killed hphase hexit hdue
      next hdue => exact .waiting (by simpa [canProceed, deadline?, hphase, hexit] using hdue)
  next deadline hphase =>
    split
    next hdue => exact .reaped hphase hdue
    next hdue => exact .waiting (by simpa [canProceed, deadline?, hphase, and_comm] using hdue)
  next hphase => exact .waiting (by simp [canProceed, deadline?, hphase])
  next hphase => exact .waiting (by simp [canProceed, deadline?, hphase])
  next hphase => exact .waiting (by simp [canProceed, deadline?, hphase])

theorem step_apply (c : Client) (e : Event) : Step c e (c.apply e) := by
  cases e with
  | received m => exact step_received c m
  | outputEnded =>
    rw [apply]
    split
    · exact .ended ‹_›
    · exact .deaf (Bool.eq_false_of_not_eq_true ‹_›)
  | inputClosed => exact .closed
  | exited status => exact .exited status
  | tick nanos => exact .ticked nanos
  | proceed => exact step_proceed c
  | shutdown => exact step_shutdown c

end Client

end LanguageHost
