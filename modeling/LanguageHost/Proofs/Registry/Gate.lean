import LanguageHost.Registry.Slot
import Mathlib

/-! Who is at a slot's gate, and how the operations on the slot move them. -/
namespace LanguageHost

/-- What a call that waits inside waits for. -/
inductive Work where
  | launch
  | stop (generation : Nat) (answer : Answer)

def Record.turn? : Record → Option Turn
  | .turn t => some t
  | _ => none

namespace Slot
variable (s : Slot)

/-- The call that waits inside, and what it waits for. -/
def work? : Option (Visit × Work) :=
  match s.holder with
  | some ⟨v, .launching _⟩ => some (v, .launch)
  | some ⟨v, .stopping g answer _⟩ => some (v, .stop g answer)
  | _ => none

/-- Everybody at the gate: the holder and the queue. -/
def visits : List Visit := (s.holder.map Holder.toVisit).toList ++ s.queue

/-- The turns at the gate that are over, the latest first. -/
def turns : List Turn := s.log.filterMap Record.turn?

variable {s} in
theorem holder_of_work {v : Visit} {w : Work} (hw : s.work? = some (v, w)) : ∃ stage, s.holder = some ⟨v, stage⟩ := by
  unfold work? at hw
  split at hw <;> simp only [Option.some.injEq, Prod.mk.injEq, reduceCtorEq] at hw <;> rename_i hh <;>
    obtain ⟨rfl, _⟩ := hw <;> exact ⟨_, hh⟩

variable {s} in
theorem mem_of_work {v : Visit} {w : Work} (hw : s.work? = some (v, w)) : v ∈ s.visits := by
  obtain ⟨stage, hh⟩ := holder_of_work hw
  simp [visits, hh]

variable {s} in
theorem mem_turns {t : Turn} : t ∈ s.turns ↔ Record.turn t ∈ s.log := by
  rw [turns, List.mem_filterMap]
  constructor
  · rintro ⟨r, hr, ht⟩
    cases r <;> simp_all [Record.turn?]
  · exact fun ht => ⟨_, ht, rfl⟩

@[simp] theorem handOver_key : s.handOver.key = s.key := by unfold handOver; split <;> rfl
@[simp] theorem handOver_number : s.handOver.number = s.number := by unfold handOver; split <;> rfl
@[simp] theorem handOver_connections : s.handOver.connections = s.connections := by unfold handOver; split <;> rfl
@[simp] theorem handOver_current : s.handOver.current = s.current := by unfold handOver; split <;> rfl
@[simp] theorem handOver_finished : s.handOver.finished = s.finished := by unfold handOver; split <;> rfl
@[simp] theorem handOver_failure : s.handOver.failure = s.failure := by unfold handOver; split <;> rfl
@[simp] theorem handOver_log : s.handOver.log = s.log := by unfold handOver; split <;> rfl

@[simp] theorem handOver_work? : s.handOver.work? = none := by unfold handOver; split <;> rfl

@[simp] theorem handOver_visits : s.handOver.visits = s.queue := by
  unfold handOver
  split <;> rename_i h <;> simp [visits, h]

theorem handOver_idle (h : s.handOver.holder = none) : s.handOver.queue = [] := by
  unfold handOver at h ⊢
  split
  · assumption
  · rename_i hq
    simp [hq] at h

variable (t : Turn)

@[simp] theorem leave_key : (s.leave t).key = s.key := handOver_key _
@[simp] theorem leave_number : (s.leave t).number = s.number := handOver_number _
@[simp] theorem leave_connections : (s.leave t).connections = s.connections := handOver_connections _
@[simp] theorem leave_current : (s.leave t).current = s.current := handOver_current _
@[simp] theorem leave_finished : (s.leave t).finished = s.finished := handOver_finished _
@[simp] theorem leave_failure : (s.leave t).failure = s.failure := handOver_failure _
@[simp] theorem leave_log : (s.leave t).log = .turn t :: s.log := handOver_log _
@[simp] theorem leave_work? : (s.leave t).work? = none := handOver_work? _
@[simp] theorem leave_visits : (s.leave t).visits = s.queue := handOver_visits _

variable (v : Visit) (e : Ending) (a : Answer)

@[simp] theorem reply_fst : (s.reply v e a).1 = s.leave ⟨v, e, some a⟩ := rfl
@[simp] theorem reply_snd : (s.reply v e a).2 = some a := rfl

theorem abandon_turns (c : CallId) (t : Turn) (ht : t ∈ (s.abandon c).turns) :
    t ∈ s.turns ∨ (t.answer = none ∧ t.toVisit ∈ s.visits) := by
  unfold abandon at ht
  split at ht
  · rename_i v stage hh
    split at ht
    · split at ht
      · exact .inl (by simpa [turns, note, Record.turn?] using ht)
      · simp only [turns, leave_log] at ht
        rcases List.mem_cons.1 ht with rfl | ht
        · exact .inr ⟨rfl, by simp [visits, hh]⟩
        · exact .inl ht
      · simp only [turns, leave_log] at ht
        rcases List.mem_cons.1 ht with rfl | ht
        · exact .inr ⟨rfl, by simp [visits, hh]⟩
        · exact .inl ht
    · split at ht
      · exact .inl (by simpa [turns, note, Record.turn?] using ht)
      · exact .inl ht
  · exact .inl ht

theorem abandon_generation (c : CallId) : (s.abandon c).generation = s.generation := by
  unfold abandon
  split
  · split
    · split <;> simp [generation, note, modify]
    · split <;> rfl
  · rfl

end Slot
end LanguageHost
