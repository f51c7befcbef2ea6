import LanguageHost.Proofs.Client.Parting
import LanguageHost.Proofs.Client.Routing

/-! What becomes of requests when nobody reads the server's output any more: those that wait are told at once, and the
request of a later shutdown is waited for in vain. -/
namespace LanguageHost.Client

variable {c c' : Client} {e : Event} {events later : List Event} {n deadline : Nat}

section Numbers

/-- The caller waits for the reply to a request. -/
def Awaits (c : Client) (n : Nat) : Prop := c.phase = .greeting n ∨ ∃ deadline, c.phase = .parting n deadline

/-- Each request has a number of its own, and what the caller waits for is in the table until something came of it. -/
structure Numbered (c : Client) : Prop where
  waiting : ∀ n ∈ c.pending, n < c.nextRequest ∧ c.replies.lookup n = none
  replied : ∀ r ∈ c.replies, r.1 < c.nextRequest
  distinct : c.pending.Nodup
  awaited : ∀ n, c.Awaits n → n ∈ c.pending ∨ (c.replies.lookup n).isSome

namespace Numbered

theorem unknown (h : c.Numbered) : c.replies.lookup c.nextRequest = none := by
  rw [List.lookup_eq_none_iff]
  intro r hr
  have hlt := h.replied r hr
  simpa using Nat.ne_of_gt hlt

theorem same (h : c.Numbered) (hpending : c'.pending = c.pending) (hreplies : c'.replies = c.replies)
    (hnext : c'.nextRequest = c.nextRequest) (hphase : ∀ n, c'.Awaits n → c.Awaits n) : c'.Numbered where
  waiting := by rw [hpending, hreplies, hnext]; exact h.waiting
  replied := by rw [hreplies, hnext]; exact h.replied
  distinct := hpending ▸ h.distinct
  awaited n hn := by rw [hpending, hreplies]; exact h.awaited n (hphase n hn)

theorem resolved {message : Json} (h : c.Numbered) (hn : n ∈ c.pending) :
    { c with pending := c.pending.erase n, replies := c.replies ++ [(n, some message)] }.Numbered where
  waiting k hk := by
    obtain ⟨hne, hmem⟩ := h.distinct.mem_erase_iff.1 hk
    have hother : (k == n) = false := by simpa using hne
    exact ⟨(h.waiting k hmem).1, by simp [List.lookup_append, (h.waiting k hmem).2, List.lookup_cons, hother]⟩
  replied r hr := by
    obtain hr | hr := List.mem_append.1 hr
    · exact h.replied r hr
    · rw [List.mem_singleton.1 hr]
      exact (h.waiting n hn).1
  distinct := h.distinct.erase n
  awaited k hk := by
    obtain rfl | hne := eq_or_ne k n
    · exact .inr (by simp [List.lookup_append])
    · obtain hmem | hsome := h.awaited k hk
      · exact .inl ((List.mem_erase_of_ne hne).2 hmem)
      · exact .inr (by simp [List.lookup_append, hsome])

theorem told (h : c.Numbered) (hn : n ∈ c.pending) : c.endReading.replies.lookup n = some none := by
  show (c.replies ++ c.pending.map fun n => (n, none)).lookup n = some none
  rw [List.lookup_append, (h.waiting n hn).2, Option.none_or, List.lookup_graph _ hn]

theorem ended (h : c.Numbered) : c.endReading.Numbered where
  waiting n hn := absurd hn (List.not_mem_nil)
  replied r hr := by
    obtain hr | hr := List.mem_append.1 hr
    · exact h.replied r hr
    · obtain ⟨n, hn, rfl⟩ := List.mem_map.1 hr
      exact (h.waiting n hn).1
  distinct := .nil
  awaited n hn := by
    obtain hmem | hsome := h.awaited n hn
    · exact .inr (by rw [h.told hmem]; rfl)
    · refine .inr ?_
      show ((c.replies ++ c.pending.map fun n => (n, none)).lookup n).isSome
      rw [List.lookup_append, Option.isSome_or, hsome, Bool.true_or]

theorem asked {method : String} {params : Json} {phase : Phase} (h : c.Numbered)
    (htaken : (c.request method params).2 = true)
    (hphase : ∀ n, { c with phase := phase }.Awaits n → n = c.nextRequest) :
    { (c.request method params).1 with phase := phase }.Numbered := by
  have hpending : (c.request method params).1.pending = c.pending ++ [c.nextRequest] := if_pos htaken
  refine ⟨fun n hn => ?_, fun r hr => Nat.lt_succ_of_lt (h.replied r hr), ?_, fun n hn => .inl ?_⟩
  · rw [hpending, List.mem_append, List.mem_singleton] at hn
    obtain hn | rfl := hn
    · exact ⟨Nat.lt_succ_of_lt (h.waiting n hn).1, (h.waiting n hn).2⟩
    · exact ⟨Nat.lt_succ_self _, h.unknown⟩
  · show (c.request method params).1.pending.Nodup
    rw [hpending, List.nodup_append]
    refine ⟨h.distinct, List.nodup_singleton _, fun k hk m hm => ?_⟩
    rw [List.mem_singleton.1 hm]
    exact Nat.ne_of_lt (h.waiting k hk).1
  · show n ∈ (c.request method params).1.pending
    rw [hpending, hphase n hn]
    simp

theorem unasked {method : String} {params : Json} (h : c.Numbered) (htaken : (c.request method params).2 = false)
    (hpending : c'.pending = (c.request method params).1.pending) (hreplies : c'.replies = c.replies)
    (hnext : c'.nextRequest = c.nextRequest + 1) (hphase : ∀ n, ¬c'.Awaits n) : c'.Numbered := by
  have hsame : c'.pending = c.pending := hpending.trans (if_neg (Bool.eq_false_iff.1 htaken))
  refine ⟨fun n hn => ?_, fun r hr => ?_, hsame ▸ h.distinct, fun n hn => absurd hn (hphase n)⟩
  · rw [hsame] at hn
    rw [hreplies, hnext]
    exact ⟨Nat.lt_succ_of_lt (h.waiting n hn).1, (h.waiting n hn).2⟩
  · rw [hreplies] at hr
    exact hnext ▸ Nat.lt_succ_of_lt (h.replied r hr)

theorem step (h : c.Numbered) (hs : Step c e c') : c'.Numbered := by
  cases hs with
  | resolved _ _ hn => exact h.resolved hn
  | ended => exact h.ended
  | asked _ htaken => exact h.asked htaken (by simp [Awaits])
  | unasked _ htaken => exact h.unasked htaken rfl rfl rfl (by simp [Awaits, leave])
  | refused => exact h.same rfl rfl rfl (by simp [Awaits, fail])
  | accepted => exact h.same rfl rfl rfl (by simp [Awaits])
  | unheard => exact h.same rfl rfl rfl (by simp [Awaits, fail])
  | left => exact h.same rfl rfl rfl (by simp [Awaits, leave])
  | parted => exact h.same rfl rfl rfl (by simp [Awaits, stop])
  | killed => exact h.same rfl rfl rfl (by simp [Awaits])
  | reaped => exact h.same rfl rfl rfl (by simp [Awaits, stop])
  | _ => exact h.same rfl rfl rfl fun _ hn => hn

theorem start (input : Sink) (greeting : Option Json) : (Client.start input greeting).Numbered := by
  have hnone : (Client.start input none).Numbered :=
    ⟨by simp [Client.start], by simp [Client.start], .nil, by simp [Awaits, Client.start]⟩
  cases greeting with
  | none => exact hnone
  | some params =>
    rw [start_greeting]
    split_ifs with htaken
    · exact hnone.asked htaken (by simp [Awaits, Client.start])
    · exact hnone.unasked (Bool.eq_false_of_not_eq_true htaken) rfl rfl rfl (by simp [Awaits, fail])

theorem run (h : c.Numbered) (events : List Event) : (c.run events).Numbered := by
  induction events generalizing c with
  | nil => exact h
  | cons e events ih => exact ih (h.step (c.step_apply e))

end Numbered

end Numbers

section Ended

/-- A reader that has ended stays so, and without it nothing comes of a request. -/
theorem Step.deaf_replies (h : Step c e c') (hdeaf : c.reading = false) :
    c'.reading = false ∧ c'.replies = c.replies := by
  refine ⟨Bool.eq_false_of_not_eq_true fun hreading => ?_, ?_⟩
  · rw [h.reading hreading] at hdeaf
    cases hdeaf
  · cases h with
    | resolved hreading => simp [hreading] at hdeaf
    | ended hreading => simp [hreading] at hdeaf
    | _ => rfl

theorem run_deaf_replies (h : c.reading = false) (later : List Event) :
    (c.run later).reading = false ∧ (c.run later).replies = c.replies := by
  induction later using List.reverseRecOn with
  | nil => exact ⟨h, rfl⟩
  | append_singleton later e ih =>
    rw [run_concat]
    obtain ⟨hreading, hreplies⟩ := (step_apply (c.run later) e).deaf_replies ih.1
    exact ⟨hreading, hreplies.trans ih.2⟩

/-- A shutdown now would be asked for by a request of this number, which the server's input takes. -/
def Requests (c : Client) (n : Nat) : Prop :=
  (∃ capabilities, c.phase = .ready capabilities) ∧ (c.request "shutdown" .null).2 = true ∧ c.nextRequest = n

/-- A shutdown is asked for on a run by a request of this number. -/
def Asks (c : Client) (later : List Event) (n : Nat) : Prop :=
  ∃ before after, later = before ++ .shutdown :: after ∧ (c.run before).Requests n

theorem asks_concat : c.Asks (later ++ [e]) n ↔ c.Asks later n ∨ e = .shutdown ∧ (c.run later).Requests n := by
  constructor
  · rintro ⟨before, after, hparts, hrequests⟩
    obtain rfl | ⟨after, d, rfl⟩ := after.eq_nil_or_concat
    · obtain ⟨rfl, he⟩ := List.append_inj' hparts rfl
      exact .inr ⟨List.singleton_inj.1 he, hrequests⟩
    · rw [List.concat_eq_append, ← List.cons_append, ← List.append_assoc] at hparts
      exact .inl ⟨before, after, (List.append_inj' hparts rfl).1, hrequests⟩
  · rintro (⟨before, after, rfl, hrequests⟩ | ⟨rfl, hrequests⟩)
    · exact ⟨before, after ++ [e], by simp, hrequests⟩
    · exact ⟨later, [], rfl, hrequests⟩

/-- Without a reader only the request of a shutdown joins those that wait, and none leaves them. -/
theorem Step.deaf_pending (h : Step c e c') (hdeaf : c.reading = false) :
    n ∈ c'.pending ↔ n ∈ c.pending ∨ e = .shutdown ∧ c.Requests n := by
  cases h with
  | resolved hreading => simp [hreading] at hdeaf
  | ended hreading => simp [hreading] at hdeaf
  | asked hphase htaken =>
    have hpending : (c.request "shutdown" .null).1.pending = c.pending ++ [c.nextRequest] := if_pos htaken
    simp [Requests, hphase, htaken, hpending, eq_comm]
  | unasked hphase htaken =>
    have hpending : (c.request "shutdown" .null).1.leave.pending = c.pending := if_neg (Bool.eq_false_iff.1 htaken)
    simp [Requests, htaken, hpending]
  | idle hphase => simp [Requests, hphase]
  | _ =>
    show n ∈ c.pending ↔ n ∈ c.pending ∨ _
    simp

theorem run_deaf_pending (h : c.reading = false) (later : List Event) :
    n ∈ (c.run later).pending ↔ n ∈ c.pending ∨ c.Asks later n := by
  induction later using List.reverseRecOn with
  | nil => simp [run, Asks]
  | append_singleton later e ih =>
    rw [run_concat, (step_apply (c.run later) e).deaf_pending (run_deaf_replies h later).1, ih, asks_concat, or_assoc]

end Ended

section Waits

/-- The caller waits for a reply that nobody can bring, or left when the wait was over. -/
def InVain (c : Client) (n deadline : Nat) (later : List Event) : Prop :=
  (since? hasLeft c later = none ∧ (c.run later).phase = .parting n deadline) ∨
    ∃ left, since? hasLeft c later = some left ∧ deadline ≤ left

theorem InVain.step (h : c.InVain n deadline later) (hunknown : (c.run later).replies.lookup n = none) (e : Event) :
    c.InVain n deadline (later ++ [e]) := by
  obtain ⟨hnone, hphase⟩ | ⟨left, hleft, hlate⟩ := h
  · have hs := step_apply (c.run later) e
    have hsince := since?_concat hasLeft c later e
    rw [hnone, Option.none_or] at hsince
    rw [InVain, hsince, run_concat]
    generalize (c.run later).apply e = c' at hs
    have hsame (hnext : c'.phase = (c.run later).phase) :
        (clockIf hasLeft c' = none ∧ c'.phase = .parting n deadline) ∨
          ∃ left, clockIf hasLeft c' = some left ∧ deadline ≤ left := by
      refine .inl ⟨?_, hnext.trans hphase⟩
      rw [clockIf, hasLeft, hnext, hphase]
      rfl
    cases hs with
    | left hparting hdue =>
      obtain ⟨rfl, rfl⟩ : _ = n ∧ _ = deadline := by simpa [hphase, eq_comm] using hparting
      obtain hknown | hdue := hdue
      · simp [hunknown] at hknown
      · exact .inr ⟨_, rfl, hdue⟩
    | refused hother => simp [hphase] at hother
    | accepted hother => simp [hphase] at hother
    | unheard hother => simp [hphase] at hother
    | parted hother => simp [hphase] at hother
    | killed hother => simp [hphase] at hother
    | reaped hother => simp [hphase] at hother
    | asked hother => simp [hphase] at hother
    | unasked hother => simp [hphase] at hother
    | _ => exact hsame rfl
  · exact .inr ⟨left, since?_concat_of_some hleft e, hlate⟩

theorem inVain_run (h : c.InVain n deadline []) (hdeaf : c.reading = false) (hunknown : c.replies.lookup n = none)
    (later : List Event) : c.InVain n deadline later := by
  induction later using List.reverseRecOn with
  | nil => exact h
  | append_singleton later e ih => exact ih.step (by rw [(run_deaf_replies hdeaf later).2, hunknown]) e

/-- A shutdown that nobody can answer is at its end no sooner than the wait for the reply. -/
theorem left_in_vain {capabilities : Option Json} (hnumbered : c.Numbered) (hdeaf : c.reading = false)
    (hphase : c.phase = .ready capabilities) (hspared : c.killed = false)
    (htaken : (c.request "shutdown" .null).2 = true) (htimely : c.shutdown.Timely later) {left : Nat}
    (hleft : since? hasLeft c.shutdown later = some left) : left = c.now + replyWait.nanos := by
  have hshutdown : c.shutdown =
      { (c.request "shutdown" .null).1 with phase := .parting c.nextRequest (c.now + replyWait.nanos) } := by
    rw [shutdown_ready hphase, if_pos htaken]
  have hstage := stage_run (stage_shutdown hphase hspared) htimely
  have hwait : c.shutdown.InVain c.nextRequest (c.now + replyWait.nanos) [] := by
    rw [hshutdown]
    exact .inl ⟨rfl, rfl⟩
  have hunknown : c.shutdown.replies.lookup c.nextRequest = none := by
    rw [hshutdown]
    exact hnumbered.unknown
  have hreading : c.shutdown.reading = false := by
    rw [hshutdown]
    exact hdeaf
  have hnow : c.shutdown.now = c.now := by rw [hshutdown]; rfl
  refine Nat.le_antisymm (hnow ▸ hstage.told hleft) ?_
  obtain ⟨hnone, -⟩ | ⟨other, hother, hlate⟩ := inVain_run hwait hreading hunknown later
  · simp [hleft] at hnone
  · exact Option.some.inj (hother.symm.trans hleft) ▸ hlate

end Waits

section Bereft

/-- What the end of the reader, after which `d` is left, means for the requests of a client: those that wait then and
those that come later. -/
structure Bereft (c d : Client) : Prop where
  told : d.pending = [] ∧ ∀ n ∈ c.pending, d.replies.lookup n = some none
  woken {n : Nat} (h : c.Awaits n) : d.canProceed = true
  greeting {n : Nat} (h : c.phase = .greeting n) (hn : n ∈ c.pending) :
    d.proceed = d.fail (.handshake Error.eof.message)
  parting {n deadline : Nat} (h : c.phase = .parting n deadline) : d.proceed = d.leave
  /-- Nothing comes of a later request, which stays in the table if the server's input took it. -/
  silent (later : List Event) : (d.run later).replies = d.replies ∧ ∀ n, n ∈ (d.run later).pending ↔ d.Asks later n
  /-- A later shutdown goes on to the exit at once where its request is refused. -/
  refused {later : List Event} {capabilities : Option Json} (hphase : (d.run later).phase = .ready capabilities)
    (h : ((d.run later).request "shutdown" .null).2 = false) : (d.run later).shutdown.hasLeft = true
  /-- Where its request is taken it waits for all the time that a reply may take. -/
  vain {later more : List Event} {capabilities : Option Json} (hphase : (d.run later).phase = .ready capabilities)
    (h : ((d.run later).request "shutdown" .null).2 = true) (htimely : (d.run later).shutdown.Timely more) {left : Nat}
    (hleft : since? hasLeft (d.run later).shutdown more = some left) : left = (d.run later).now + replyWait.nanos

theorem Awaits.canProceed (h : c.Awaits n) (hknown : (c.replies.lookup n).isSome) : c.canProceed = true := by
  obtain hphase | ⟨deadline, hphase⟩ := h
  · simp [Client.canProceed, deadline?, hphase, hknown]
  · simp [Client.canProceed, deadline?, hphase, hknown]

theorem Numbered.bereft (h : c.Numbered) (hspared : ∀ later, ((c.endReading).run later).Spared) :
    c.Bereft c.endReading := by
  have hended := h.ended
  have hknown {n : Nat} (hn : c.Awaits n) : (c.endReading.replies.lookup n).isSome := by
    obtain hmem | hsome := hended.awaited n hn
    · cases hmem
    · exact hsome
  refine ⟨⟨rfl, fun n hn => h.told hn⟩, fun {n} hn => ?_, fun {n} hphase hn => ?_, fun {n deadline} hphase => ?_,
    fun later => ⟨(run_deaf_replies rfl later).2, fun n => ?_⟩, fun {later capabilities} hphase htaken => ?_,
    fun {later more capabilities} hphase htaken htimely {left} hleft => ?_⟩
  · have hwaits : c.endReading.Awaits n := hn
    exact hwaits.canProceed (hknown hn)
  · have hgreeting : c.endReading.phase = .greeting n := hphase
    simp only [proceed, hgreeting, h.told hn]
    rfl
  · have hparting : c.endReading.phase = .parting n deadline := hphase
    simp only [proceed, hparting]
    exact if_pos (.inl (hknown (.inr ⟨deadline, hphase⟩)))
  · rw [run_deaf_pending rfl later]
    exact or_iff_right List.not_mem_nil
  · rw [shutdown_ready hphase, if_neg (Bool.eq_false_iff.1 htaken)]
    rfl
  · have hnot := hspared later
    simp only [Spared, hphase] at hnot
    exact left_in_vain (hended.run later) (run_deaf_replies rfl later).1 hphase hnot htaken htimely hleft

end Bereft

/-- When the reader of a server's output ends, at whatever moment, all requests that wait end with it. A shutdown that
is asked for later still waits for a reply, which nobody can bring. -/
theorem reader_ended (input : Sink) (greeting : Option Json) (events : List Event)
    (h : ((start input greeting).run events).reading = true) :
    ((start input greeting).run events).Bereft ((start input greeting).run (events ++ [.outputEnded])) := by
  have hended : (start input greeting).run (events ++ [.outputEnded]) =
      ((start input greeting).run events).endReading := by
    rw [run_concat, apply, if_pos h]
  rw [hended]
  refine ((Numbered.start input greeting).run events).bereft fun later => ?_
  rw [← hended, ← run_append]
  exact spared_run input greeting _

/-- A client whose greeting was accepted, and what happens later. -/
def welcomed (later : List Event) : Client :=
  (start (.unbounded none) (some .null)).run
    (.received (.object [("id", .int 0), ("result", .object [("capabilities", .object [])])]) :: .proceed :: later)

/-- A server that replies to the greeting and then closes its output: a shutdown tells it to exit when all of the wait
is over. -/
theorem reader_ended_after_greeting :
    (welcomed []).reading = true ∧ (welcomed []).Bereft (welcomed [.outputEnded]) ∧
      (welcomed [.outputEnded, .shutdown]).Timely [.tick replyWait.nanos, .proceed] ∧
      since? hasLeft (welcomed [.outputEnded, .shutdown]) [.tick replyWait.nanos, .proceed] = some replyWait.nanos := by
  have hreading : (welcomed []).reading = true := by cbv
  have hdue : (welcomed [.outputEnded, .shutdown]).deadline? = some replyWait.nanos := by cbv
  have hnow : (welcomed [.outputEnded, .shutdown]).now = 0 := by cbv
  have hphase : (welcomed [.outputEnded, .shutdown, .tick replyWait.nanos]).phase = .parting 1 replyWait.nanos := by cbv
  have hlate : (welcomed [.outputEnded, .shutdown, .tick replyWait.nanos]).now = replyWait.nanos := by cbv
  have hleave : (welcomed [.outputEnded, .shutdown, .tick replyWait.nanos]).proceed =
      (welcomed [.outputEnded, .shutdown, .tick replyWait.nanos]).leave := by
    simp only [proceed, hphase]
    exact if_pos (.inr (Nat.le_of_eq hlate.symm))
  have hnone : clockIf hasLeft (welcomed [.outputEnded, .shutdown]) = none := by cbv
  have hleft : since? hasLeft (welcomed [.outputEnded, .shutdown]) [.tick replyWait.nanos, .proceed] =
      some replyWait.nanos := by
    show (clockIf hasLeft (welcomed [.outputEnded, .shutdown])).or
      ((clockIf hasLeft (welcomed [.outputEnded, .shutdown, .tick replyWait.nanos])).or
        (clockIf hasLeft (welcomed [.outputEnded, .shutdown, .tick replyWait.nanos]).proceed)) = _
    rw [hnone, hleave, clockIf, hasLeft, hphase]
    exact congrArg some hlate
  refine ⟨hreading, reader_ended _ _ _ hreading, ⟨?_, by simp, trivial⟩, hleft⟩
  intro nanos he
  refine ⟨by cbv, fun deadline hdeadline => ?_⟩
  obtain rfl := Event.tick.inj he
  obtain rfl := Option.some.inj (hdue.symm.trans hdeadline)
  exact Nat.le_of_eq (by rw [hnow, Nat.zero_add])

/-- A request that comes after the end of the reader is not told, and its caller can do nothing but wait. -/
theorem not_all_told : ¬∀ (input : Sink) (greeting : Option Json) (before later : List Event),
    ((start input greeting).run before).reading = true →
      ((start input greeting).run (before ++ .outputEnded :: later)).pending = [] ∨
        ∀ n, ((start input greeting).run (before ++ .outputEnded :: later)).Awaits n →
          ((start input greeting).run (before ++ .outputEnded :: later)).canProceed = true := by
  intro h
  have hreading : (welcomed []).reading = true := by cbv
  have hphase : (welcomed [.outputEnded, .shutdown, .tick 499999999]).phase = .parting 1 replyWait.nanos := by cbv
  have hpending : (welcomed [.outputEnded, .shutdown, .tick 499999999]).pending = [1] := by cbv
  have hwaits : (welcomed [.outputEnded, .shutdown, .tick 499999999]).canProceed = false := by cbv
  obtain hnone | hall := h _ _ _ [.shutdown, .tick 499999999] hreading
  · exact absurd (hpending.symm.trans hnone) (by simp)
  · exact absurd (hwaits.symm.trans (hall 1 (.inr ⟨_, hphase⟩))) (by simp)

end LanguageHost.Client
