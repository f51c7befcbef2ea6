import LanguageHost.Proofs.Host.Removal

/-! The whole and what is left of it: the slots of all other keys are the same but for numbers, and whatever a call
does in one of them keeps them so. -/
namespace LanguageHost.Removal
variable {m : Removal} {r r' r₀ r₀' : Registry} {h h' h₀ h₀' : Host} {i j : Nat} {s s' : Slot} {c : CallId}
  {key : ServerKey}

/-- The slots of all other keys are the same, but for numbers. -/
def Reflects (m : Removal) (r r₀ : Registry) : Prop :=
  ∀ i, m.slot? ≠ some i → r₀.slots[m.numbers.slot i]? = (r.slots[i]?).map (·.rename m.numbers)

namespace Reflects

theorem get (hr : m.Reflects r r₀) (hi : m.slot? ≠ some i) (hs : r.slots[i]? = some s) :
    r₀.slots[m.numbers.slot i]? = some (s.rename m.numbers) := by
  rw [hr i hi, hs]
  rfl

theorem get_none (hr : m.Reflects r r₀) (hi : m.slot? ≠ some i) (hs : r.slots[i]? = none) :
    r₀.slots[m.numbers.slot i]? = none := by
  rw [hr i hi, hs]
  rfl

theorem back (hr : m.Reflects r r₀) {n : Nat} {t : Slot} (ht : r₀.slots[n]? = some t) :
    ∃ i s, m.slot? ≠ some i ∧ m.numbers.slot i = n ∧ r.slots[i]? = some s ∧ t = s.rename m.numbers := by
  obtain ⟨i, hi, rfl⟩ := m.slot_onto n
  rw [hr i hi] at ht
  obtain ⟨s, hs, he⟩ := Option.map_eq_some_iff.1 ht
  exact ⟨i, s, hi, rfl, hs, he.symm⟩

theorem length (hr : m.Reflects r r₀) : r₀.slots.length = m.numbers.slot r.slots.length := by
  refine Nat.le_antisymm (Nat.not_lt.1 fun hlt => ?_) (Nat.not_lt.1 fun hlt => ?_)
  · obtain ⟨i, s, hi, he, hs, _⟩ := hr.back (List.getElem?_eq_getElem hlt)
    exact absurd he (Nat.ne_of_lt (slot_lt hi (List.getElem?_eq_some_iff.1 hs).1))
  · obtain ⟨i, hi, he⟩ := m.slot_onto r₀.slots.length
    have hi' : i < r.slots.length := by
      refine Nat.not_le.1 fun hle => ?_
      have := slot_le (m := m) hle
      omega
    have hget := hr.get hi (List.getElem?_eq_getElem hi')
    rw [he, List.getElem?_eq_none (Nat.le_refl _)] at hget
    cases hget

theorem aside (hr : m.Reflects r r₀) (h : ∀ i, m.slot? ≠ some i → r'.slots[i]? = r.slots[i]?) : m.Reflects r' r₀ :=
  fun i hi => by rw [h i hi, hr i hi]

theorem setSlot (hr : m.Reflects r r₀) (hi : m.slot? ≠ some i) (hs : r.slots[i]? = some s) (s' : Slot) :
    m.Reflects (r.setSlot i s') (r₀.setSlot (m.numbers.slot i) (s'.rename m.numbers)) := by
  intro k hk
  rw [Registry.setSlot_get hs, Registry.setSlot_get (hr.get hi hs)]
  by_cases hki : k = i
  · rw [if_pos hki, if_pos (congrArg m.numbers.slot hki)]
    rfl
  · rw [if_neg hki, if_neg fun he => hki (slot_inj hk hi he)]
    exact hr k hk

theorem setSlot_aside (hr : m.Reflects r r₀) (hi : m.slot? = some i) (hs : r.slots[i]? = some s) (s' : Slot) :
    m.Reflects (r.setSlot i s') r₀ := by
  refine hr.aside fun k hk => ?_
  rw [Registry.setSlot_get hs, if_neg]
  rintro rfl
  exact hk hi

theorem abandon (hr : m.Reflects r r₀) (hr' : ∀ i : Nat, r'.slots[i]? = r.slots[i]?.map (·.abandon c))
    (hr₀' : ∀ i : Nat, r₀'.slots[i]? = r₀.slots[i]?.map (·.abandon (m.numbers.call c)))
    (hc : ∀ (i : Nat) (s : Slot), m.slot? ≠ some i → r.slots[i]? = some s → ∀ w ∈ s.visits,
      m.numbers.call w.call = m.numbers.call c → w.call = c) : m.Reflects r' r₀' := by
  intro i hi
  rw [hr', hr₀', hr i hi]
  cases hs : r.slots[i]? with
  | none => rfl
  | some s => exact congrArg some (Slot.rename_abandon s c (hc i s hi hs)).symm

theorem slotIndex? (hr : m.Reflects r r₀) (hsound : r.Sound) (hsound₀ : r₀.Sound)
    (hkey : ∀ i, r.slotIndex? key = some i → m.slot? ≠ some i) :
    r₀.slotIndex? key = (r.slotIndex? key).map m.numbers.slot := by
  cases hf : r.slotIndex? key with
  | some i =>
    obtain ⟨s, hs, hk⟩ := Registry.Sound.slotIndex?_slot hf
    exact hsound₀.slotIndex?_eq_some (hr.get (hkey i hf) hs) hk
  | none =>
    refine Option.eq_none_iff_forall_not_mem.2 fun n hn => ?_
    obtain ⟨t, ht, hk⟩ := Registry.Sound.slotIndex?_slot hn
    obtain ⟨i, s, _, _, hs, rfl⟩ := hr.back ht
    rw [hsound.slotIndex?_eq_some hs hk] at hf
    cases hf

theorem openSlot (hr : m.Reflects r r₀) (hsound : r.Sound) (hsound₀ : r₀.Sound)
    (hkey : m.slot? ≠ some (r.openSlot key).2) : m.Reflects (r.openSlot key).1 (r₀.openSlot key).1 ∧
      (r₀.openSlot key).2 = m.numbers.slot (r.openSlot key).2 := by
  have hindex : r₀.slotIndex? key = (r.slotIndex? key).map m.numbers.slot :=
    hr.slotIndex? hsound hsound₀ fun i hi => by rwa [Registry.openSlot, hi] at hkey
  unfold Registry.openSlot at hkey ⊢
  rw [hindex]
  cases hf : r.slotIndex? key with
  | some i => exact ⟨hr, rfl⟩
  | none =>
    rw [hf] at hkey
    have hlen := hr.length
    refine ⟨fun k hk => ?_, hlen⟩
    show (r₀.slots ++ [Slot.new key r₀.slots.length])[m.numbers.slot k]? = _
    rcases Nat.lt_trichotomy k r.slots.length with hlt | rfl | hlt
    · rw [List.getElem?_append_left hlt, List.getElem?_append_left (by rw [hlen]; exact slot_lt hk hlt)]
      exact hr k hk
    · rw [← hlen, List.getElem?_concat_length, List.getElem?_concat_length, hlen]
      rfl
    · have hlt₀ := slot_lt hkey hlt
      rw [List.getElem?_eq_none (by simpa [hlen] using hlt₀), List.getElem?_eq_none (by simpa using hlt)]
      rfl

theorem openSlot_aside (hr : m.Reflects r r₀) (hkey : m.slot? = some (r.openSlot key).2) :
    m.Reflects (r.openSlot key).1 r₀ := by
  unfold Registry.openSlot at hkey ⊢
  cases hf : r.slotIndex? key with
  | some i => exact hr
  | none =>
    rw [hf] at hkey
    refine hr.aside fun k hk => ?_
    rw [List.getElem?_append]
    split
    · rfl
    · rename_i hlt
      rw [List.getElem?_eq_none (Nat.not_lt.1 hlt), List.getElem?_singleton, if_neg]
      intro hz
      refine hk (hkey.trans (congrArg some ?_))
      show r.slots.length = k
      omega

end Reflects

/-- A release is compared with connections of its own slot only. -/
theorem distinguishes (hsound : r.Sound) (hs : r.slots[i]? = some s) {q : Request}
    (hq : ∀ id, q = .release (some id) → id.slot = i) : s.Distinguishes m.numbers q := by
  intro id d hr hd he
  obtain ⟨g, _, hg⟩ := Option.bind_eq_some_iff.1 hd
  have hdi : d.id.slot = i := by
    unfold Slot.connection? at hg
    split at hg
    · cases hg
    · rw [hsound.ids hs hg]
  have hgen := congrArg ConnectionId.generation he
  obtain ⟨slot, g'⟩ := id
  obtain rfl : slot = i := hq _ hr
  cases hid : d.id with
  | mk slot' g'' =>
    rw [hid] at hdi hgen
    exact congrArg₂ ConnectionId.mk hdi.symm hgen

/-- The slots that are left of those that a call waits in. -/
def others (m : Removal) (waiting : List Nat) : List Nat := (waiting.filter m.keepsSlot).map m.numbers.slot

theorem others_ne_nil (hi : m.slot? ≠ some i) {waiting : List Nat} (hw : i ∈ waiting) : m.others waiting ≠ [] :=
  List.ne_nil_of_mem (List.mem_map_of_mem (List.mem_filter.2 ⟨hw, keepsSlot_iff.2 hi⟩))

theorem others_filter (hi : m.slot? ≠ some i) (waiting : List Nat) :
    m.others (waiting.filter (· ≠ i)) = (m.others waiting).filter (· ≠ m.numbers.slot i) := by
  unfold others
  rw [List.filter_map, List.filter_filter, List.filter_filter]
  refine congrArg (List.map m.numbers.slot) (List.filter_congr fun k _ => ?_)
  by_cases hk : m.slot? = some k
  · simp [keepsSlot, hk]
  · have hinj : m.numbers.slot k = m.numbers.slot i ↔ k = i := ⟨slot_inj hk hi, congrArg _⟩
    simp [keepsSlot, hk, hinj]

theorem others_aside (hi : m.slot? = some i) (waiting : List Nat) :
    m.others (waiting.filter (· ≠ i)) = m.others waiting := by
  unfold others
  rw [List.filter_filter]
  refine congrArg (List.map m.numbers.slot) (List.filter_congr fun k _ => ?_)
  by_cases hk : k = i
  · simp [keepsSlot, hk, hi]
  · simp [hk]

/-- A call of the whole and the same call of what is left: they are alike, but that a call to clear all slots does
not wait for the one taken out. -/
inductive Same (m : Removal) : Call → Call → Prop
  | plain {x : Call} (ht : x.task ≠ .shutdownAll) : Same m x (x.rename m.numbers)
  | fresh : Same m ⟨.shutdownAll, .fresh⟩ ⟨.shutdownAll, .fresh⟩
  | clearing {waiting closed closed₀ report} (hw : m.others waiting ≠ []) :
    Same m ⟨.shutdownAll, .clearing waiting closed report⟩ ⟨.shutdownAll, .clearing (m.others waiting) closed₀ report⟩
  | waits {waiting closed report r₀} (hw : m.others waiting = []) :
    Same m ⟨.shutdownAll, .clearing waiting closed report⟩ ⟨.shutdownAll, .ended r₀⟩
  | ended {r r₀ : Result} : Same m ⟨.shutdownAll, .ended r⟩ ⟨.shutdownAll, .ended r₀⟩

theorem Same.task {x x₀ : Call} (hs : m.Same x x₀) : x₀.task = x.task.rename m.numbers := by
  cases hs <;> rfl

/-- What is left goes in step with the whole. -/
structure Mirrors (m : Removal) (h h₀ : Host) : Prop where
  bounds : h₀.bounds = h.bounds
  now : h₀.now = h.now
  registry : m.Reflects h.registry h₀.registry
  tasks : ∀ c x, h.call? c = some x → m.tasks[c.number]? = some x.task
  count : h₀.calls.length = (m.numbers.call ⟨h.calls.length⟩).number
  calls : ∀ c x, h.call? c = some x → m.keeps x.task = true →
    ∃ x₀, h₀.call? (m.numbers.call c) = some x₀ ∧ m.Same x x₀

namespace Mirrors
variable {x x₀ : Call} {p p₀ : Progress}

theorem call_none (hm : m.Mirrors h h₀) (hc : h.call? c = none) : h₀.call? (m.numbers.call c) = none := by
  refine List.getElem?_eq_none ?_
  rw [hm.count]
  exact call_le (c := ⟨h.calls.length⟩) (List.getElem?_eq_none_iff.1 hc)

theorem frame (hm : m.Mirrors h h₀) (hb : h'.bounds = h.bounds) (hn : h'.now = h.now) (hc : h'.calls = h.calls)
    (hb₀ : h₀'.bounds = h₀.bounds) (hn₀ : h₀'.now = h₀.now) (hc₀ : h₀'.calls = h₀.calls)
    (hr : m.Reflects h'.registry h₀'.registry) : m.Mirrors h' h₀' := by
  refine ⟨by rw [hb, hb₀, hm.bounds], by rw [hn, hn₀, hm.now], hr, fun c x hx => ?_, by rw [hc, hc₀, hm.count],
    fun c x hx hk => ?_⟩
  · rw [Host.call?, hc] at hx
    exact hm.tasks c x hx
  · rw [Host.call?, hc] at hx
    obtain ⟨x₀, hx₀, hs⟩ := hm.calls c x hx hk
    exact ⟨x₀, by rwa [Host.call?, hc₀], hs⟩

private theorem tasks_setProgress (hm : m.Mirrors h h₀) (c : CallId) (p : Progress) (d : CallId) (y : Call)
    (hy : (h.setProgress c p).call? d = some y) : m.tasks[d.number]? = some y.task := by
  rw [Host.call?_setProgress] at hy
  split at hy
  · obtain ⟨z, hz, rfl⟩ := Option.map_eq_some_iff.1 hy
    exact hm.tasks d z hz
  · exact hm.tasks d y hy

theorem setProgress (hm : m.Mirrors h h₀) (hx : h.call? c = some x) (hk : m.keeps x.task = true)
    (hx₀ : h₀.call? (m.numbers.call c) = some x₀)
    (hs : m.Same { x with progress := p } { x₀ with progress := p₀ }) :
    m.Mirrors (h.setProgress c p) (h₀.setProgress (m.numbers.call c) p₀) := by
  have hlen (h : Host) (c : CallId) (p : Progress) : (h.setProgress c p).calls.length = h.calls.length :=
    List.length_modify ..
  refine ⟨hm.bounds, hm.now, hm.registry, hm.tasks_setProgress c p, by rw [hlen, hlen, hm.count], fun d y hy hky => ?_⟩
  rw [Host.call?_setProgress] at hy ⊢
  split at hy
  · rename_i hd
    subst hd
    rw [hx] at hy
    obtain rfl := Option.some.inj hy
    rw [if_pos rfl, hx₀]
    exact ⟨_, rfl, hs⟩
  · rename_i hd
    rw [if_neg fun he => hd (call_inj (hm.tasks d y hy) hky (hm.tasks c x hx) hk he)]
    exact hm.calls d y hy hky

theorem setProgress_left (hm : m.Mirrors h h₀) (hx : h.call? c = some x)
    (hs : m.keeps x.task = true → ∃ x₀, h₀.call? (m.numbers.call c) = some x₀ ∧ m.Same { x with progress := p } x₀) :
    m.Mirrors (h.setProgress c p) h₀ := by
  have hlen : (h.setProgress c p).calls.length = h.calls.length := List.length_modify ..
  refine ⟨hm.bounds, hm.now, hm.registry, hm.tasks_setProgress c p, by rw [hlen, hm.count], fun d y hy hky => ?_⟩
  rw [Host.call?_setProgress] at hy
  split at hy
  · rename_i hd
    subst hd
    rw [hx] at hy
    obtain rfl := Option.some.inj hy
    exact hs hky
  · exact hm.calls d y hy hky

private theorem tasks_spawn (hm : m.Mirrors h h₀) {t : Task} (ht : m.tasks[h.calls.length]? = some t) (d : CallId)
    (y : Call) (hy : (h.spawn t).call? d = some y) : m.tasks[d.number]? = some y.task := by
  rw [Host.call?_spawn] at hy
  split at hy
  · rename_i hd
    obtain rfl := Option.some.inj hy
    rw [hd]
    exact ht
  · exact hm.tasks d y hy

theorem spawn (hm : m.Mirrors h h₀) {t : Task} (ht : m.tasks[h.calls.length]? = some t) (hk : m.keeps t = true) :
    m.Mirrors (h.spawn t) (h₀.spawn (t.rename m.numbers)) := by
  have hsame : m.Same ⟨t, .fresh⟩ ⟨t.rename m.numbers, .fresh⟩ := by
    by_cases hall : t = .shutdownAll
    · rw [hall]
      exact .fresh
    · exact Same.plain (m := m) (x := ⟨t, .fresh⟩) hall
  have hcount := hm.count
  have hsucc := call_succ (c := ⟨h.calls.length⟩) ht
  rw [if_pos hk] at hsucc
  obtain ⟨w, hw⟩ := Host.spawn_eq h t
  obtain ⟨w₀, hw₀⟩ := Host.spawn_eq h₀ (t.rename m.numbers)
  refine ⟨?_, ?_, ?_, hm.tasks_spawn ht, ?_, fun c x hx hkx => ?_⟩
  · rw [hw, hw₀]
    exact hm.bounds
  · rw [hw, hw₀]
    exact hm.now
  · rw [hw, hw₀]
    exact hm.registry
  · rw [hw, hw₀, List.length_append, List.length_append, List.length_singleton, List.length_singleton, hsucc, hcount]
  · rw [Host.call?_spawn] at hx ⊢
    split at hx
    · rename_i hc
      obtain rfl := Option.some.inj hx
      obtain rfl : c = ⟨h.calls.length⟩ := congrArg CallId.mk hc
      rw [if_pos hcount.symm]
      exact ⟨_, rfl, hsame⟩
    · rename_i hc
      obtain ⟨x₀, hx₀, hs⟩ := hm.calls c x hx hkx
      rw [if_neg]
      · exact ⟨x₀, hx₀, hs⟩
      · intro he
        rw [Host.call?, he, List.getElem?_eq_none (Nat.le_refl _)] at hx₀
        cases hx₀

theorem spawn_left (hm : m.Mirrors h h₀) {t : Task} (ht : m.tasks[h.calls.length]? = some t)
    (hk : m.keeps t = false) : m.Mirrors (h.spawn t) h₀ := by
  have hsucc := call_succ (c := ⟨h.calls.length⟩) ht
  rw [hk] at hsucc
  obtain ⟨w, hw⟩ := Host.spawn_eq h t
  refine ⟨?_, ?_, ?_, hm.tasks_spawn ht, ?_, fun c x hx hkx => ?_⟩
  · rw [hw]
    exact hm.bounds
  · rw [hw]
    exact hm.now
  · rw [hw]
    exact hm.registry
  · rw [hw, List.length_append, List.length_singleton, hsucc]
    exact hm.count
  · rw [Host.call?_spawn] at hx
    split at hx
    · obtain rfl := Option.some.inj hx
      rw [hk] at hkx
      cases hkx
    · exact hm.calls c x hx hkx

theorem goes_on (hm : m.Mirrors h h₀) (hx : h.call? c = some x) (hk : m.keeps x.task = true)
    (ht : x.task ≠ .shutdownAll) (p : Progress) :
    m.Mirrors (h.setProgress c p) (h₀.setProgress (m.numbers.call c) (p.rename m.numbers)) := by
  obtain ⟨x₀, hx₀, hs⟩ := hm.calls c x hx hk
  refine hm.setProgress hx hk hx₀ ?_
  cases hs with
  | plain => exact Same.plain (x := { x with progress := p }) ht
  | fresh | clearing | waits | ended => exact absurd rfl ht

end Mirrors

end LanguageHost.Removal
