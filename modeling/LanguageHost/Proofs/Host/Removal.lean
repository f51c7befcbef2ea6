import LanguageHost.Proofs.Host.Keys
import LanguageHost.Proofs.Registry.Renaming

/-! A run without the calls on one key. Whatever is left has other numbers: calls and slots that came later than
those taken out move up. -/
namespace LanguageHost

section Rename
variable (ρ : Renaming)

def Task.rename : Task → Task
  | .releaseConnection id => .releaseConnection (id.rename ρ)
  | t => t

def Result.rename : Result → Result
  | .connection id => .connection (id.rename ρ)
  | .closed ids => .closed (ids.map (·.rename ρ))
  | r => r

def Progress.rename : Progress → Progress
  | .clearing waiting closed report => .clearing (waiting.map ρ.slot) (closed.map (·.rename ρ)) report
  | .ended r => .ended (r.rename ρ)
  | p => p

def Call.rename (x : Call) : Call := ⟨x.task.rename ρ, x.progress.rename ρ⟩

end Rename

/-- What is taken out of a run: the calls on a key and its slot, if it has one. -/
structure Removal where
  key : ServerKey
  slot? : Option Nat
  tasks : List Task

/-- The removal of a key from the run that has led to a state. -/
def Host.removal (h : Host) (key : ServerKey) : Removal := ⟨key, h.registry.slotIndex? key, h.calls.map Call.task⟩

namespace Removal
variable (m : Removal)

/-- The task is not to acquire, release or release a connection of the key. -/
def keeps : Task → Bool
  | .acquire key _ | .release key => !(key == m.key)
  | .releaseConnection id => m.slot? ≠ some id.slot
  | _ => true

def keepsCall (c : CallId) : Bool := m.tasks[c.number]?.all m.keeps

def keepsSlot (i : Nat) : Bool := m.slot? ≠ some i

/-- The numbers of what is left: calls and slots are counted without those taken out. -/
def numbers : Renaming where
  call c := ⟨(m.tasks.take c.number).countP m.keeps⟩
  slot i := if m.slot?.any (· < i) then i - 1 else i

def inside? (h : Host) (i : Nat) : Option CallId := (h.registry.slots[i]?.bind Slot.work?).map (·.1.call)

/-- What is left of an event. A crash under a call that clears all slots gives it up, also where the slot it
happens in has been taken out. -/
def event? (h : Host) : Event → Option Event
  | .call task => if m.keeps task then some (.call (task.rename m.numbers)) else none
  | .session id uri => some (.session (id.rename m.numbers) uri)
  | .begin c => if m.keepsCall c then some (.begin (m.numbers.call c)) else none
  | .enter i => if m.keepsSlot i then some (.enter (m.numbers.slot i)) else none
  | .launched i outcome => if m.keepsSlot i then some (.launched (m.numbers.slot i) outcome) else none
  | .stopped i => if m.keepsSlot i then some (.stopped (m.numbers.slot i)) else none
  | .expire i => if m.keepsSlot i then some (.expire (m.numbers.slot i)) else none
  | .crash i =>
    if m.keepsSlot i then some (.crash (m.numbers.slot i))
    else ((inside? h i).filter m.keepsCall).map fun c => .drop (m.numbers.call c)
  | .drop c => if m.keepsCall c then some (.drop (m.numbers.call c)) else none
  | .tick nanos => some (.tick nanos)

def events (h : Host) : List Event → List Event
  | [] => []
  | e :: rest => (m.event? h e).toList ++ events (h.apply e) rest

variable {m} {c d : CallId} {i j n : Nat} {t : Task}

theorem keepsSlot_iff : m.keepsSlot i = true ↔ m.slot? ≠ some i := decide_eq_true_iff

theorem keepsCall_of (ht : m.tasks[c.number]? = some t) : m.keepsCall c = m.keeps t := by
  rw [keepsCall, ht]
  rfl

theorem slot_eq (hj : m.slot? = some j) (i : Nat) : m.numbers.slot i = if j < i then i - 1 else i := by
  simp [numbers, hj]

theorem slot_none (hj : m.slot? = none) (i : Nat) : m.numbers.slot i = i := by
  simp [numbers, hj]

theorem slot_le (h : i ≤ n) : m.numbers.slot i ≤ m.numbers.slot n := by
  cases hj : m.slot? with
  | none => rwa [slot_none hj, slot_none hj]
  | some j =>
    rw [slot_eq hj, slot_eq hj]
    split <;> split <;> omega

theorem slot_lt (hi : m.slot? ≠ some i) (h : i < n) : m.numbers.slot i < m.numbers.slot n := by
  cases hj : m.slot? with
  | none => rwa [slot_none hj, slot_none hj]
  | some j =>
    have hne : i ≠ j := fun he => hi (he ▸ hj)
    rw [slot_eq hj, slot_eq hj]
    split <;> split <;> omega

theorem slot_inj (hi : m.slot? ≠ some i) (hn : m.slot? ≠ some n) (h : m.numbers.slot i = m.numbers.slot n) :
    i = n := by
  rcases Nat.lt_trichotomy i n with hlt | rfl | hlt
  · exact absurd h (Nat.ne_of_lt (slot_lt hi hlt))
  · rfl
  · exact absurd h.symm (Nat.ne_of_lt (slot_lt hn hlt))

theorem slot_onto (m : Removal) (n : Nat) : ∃ i, m.slot? ≠ some i ∧ m.numbers.slot i = n := by
  cases hj : m.slot? with
  | none => exact ⟨n, by simp, slot_none hj n⟩
  | some j =>
    by_cases hn : n < j
    · exact ⟨n, by simp; omega, by rw [slot_eq hj, if_neg (by omega)]⟩
    · exact ⟨n + 1, by simp; omega, by rw [slot_eq hj, if_pos (by omega), Nat.add_sub_cancel]⟩

theorem slots_left (m : Removal) (n : Nat) :
    ((List.range n).filter m.keepsSlot).map m.numbers.slot = List.range (m.numbers.slot n) := by
  induction n with
  | zero =>
    cases hj : m.slot? with
    | none => rw [slot_none hj]; rfl
    | some j => rw [slot_eq hj, if_neg (by omega)]; rfl
  | succ n ih =>
    rw [List.range_succ, List.filter_append, List.map_append, ih, List.filter_singleton]
    by_cases hn : m.slot? = some n
    · rw [slot_eq hn, slot_eq hn, if_neg (by omega), if_pos (by omega)]
      simp [keepsSlot, hn]
    · have hsucc : m.numbers.slot (n + 1) = m.numbers.slot n + 1 := by
        cases hj : m.slot? with
        | none => rw [slot_none hj, slot_none hj]
        | some j =>
          have hne : n ≠ j := fun he => hn (he ▸ hj)
          rw [slot_eq hj, slot_eq hj]
          split <;> split <;> omega
      rw [keepsSlot_iff.2 hn, cond_true, List.map_singleton, hsucc, List.range_succ]

theorem call_le (h : c.number ≤ d.number) : (m.numbers.call c).number ≤ (m.numbers.call d).number := by
  refine List.Sublist.countP_le ?_
  exact List.take_sublist_take_left h

theorem call_succ (ht : m.tasks[c.number]? = some t) :
    (m.numbers.call ⟨c.number + 1⟩).number = (m.numbers.call c).number + if m.keeps t then 1 else 0 := by
  show (m.tasks.take (c.number + 1)).countP m.keeps = (m.tasks.take c.number).countP m.keeps + _
  rw [List.take_add_one, List.countP_append, ht]
  simp [List.countP_singleton]

theorem call_lt (ht : m.tasks[c.number]? = some t) (hk : m.keeps t = true) (h : c.number < d.number) :
    (m.numbers.call c).number < (m.numbers.call d).number := by
  have hsucc := call_succ ht
  rw [if_pos hk] at hsucc
  have hle := call_le (m := m) (c := ⟨c.number + 1⟩) (d := d) h
  omega

theorem call_inj {t' : Task} (ht : m.tasks[c.number]? = some t) (hk : m.keeps t = true)
    (ht' : m.tasks[d.number]? = some t') (hk' : m.keeps t' = true) (h : m.numbers.call c = m.numbers.call d) :
    c = d := by
  have hn := congrArg CallId.number h
  rcases Nat.lt_trichotomy c.number d.number with hlt | heq | hlt
  · have := call_lt ht hk hlt
    omega
  · obtain ⟨_⟩ := c
    obtain ⟨_⟩ := d
    exact congrArg CallId.mk heq
  · have := call_lt ht' hk' hlt
    omega

/-- The slots are those of a run that the removal is from. -/
def Places (m : Removal) (r : Registry) : Prop :=
  ∀ (i : Nat) (s : Slot), r.slots[i]? = some s → ((s.key == m.key) = true ↔ m.slot? = some i)

theorem places_of_since {h h' : Host} (hs : h.Since h') (hsound : h'.registry.Sound) (key : ServerKey) :
    (h'.removal key).Places h.registry := by
  intro i s hi
  obtain ⟨s', hi', hg⟩ := hs.slots i s hi
  show (s.key == key) = true ↔ h'.registry.slotIndex? key = some i
  rw [← hg.key]
  refine ⟨hsound.slotIndex?_eq_some hi', fun hf => ?_⟩
  obtain ⟨t, ht, hk⟩ := Registry.Sound.slotIndex?_slot hf
  rwa [Option.some.inj (hi'.symm.trans ht)]

theorem tasks_of_since {h h' : Host} (hs : h.Since h') (key : ServerKey) {c : CallId} {x : Call}
    (hx : h.call? c = some x) : (h'.removal key).tasks[c.number]? = some x.task := by
  obtain ⟨x', hx', ht⟩ := hs.calls c x hx
  show (h'.calls.map Call.task)[c.number]? = _
  rw [List.getElem?_map, ← ht]
  exact congrArg (Option.map Call.task) hx'

end Removal

end LanguageHost
