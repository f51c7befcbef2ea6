import LanguageHost.Proofs.Registry.Lives
import LanguageHost.Registry.Basic

/-! The slots of a registry: one for each key, and a note of every launch. -/
namespace LanguageHost.Registry

/-- Calls have left every slot in order, each at the position of its number, no two for one key; and
the launches noted are those of the slots. -/
structure Sound (r : Registry) : Prop where
  lives : ∀ (i : Nat) (s : Slot), r.slots[i]? = some s → s.Lives
  numbers : ∀ (i : Nat) (s : Slot), r.slots[i]? = some s → s.number = i
  keys : ∀ (i j : Nat) (s t : Slot), r.slots[i]? = some s → r.slots[j]? = some t → (s.key == t.key) = true → i = j
  launches : ∀ (i : Nat) (s : Slot), r.slots[i]? = some s →
    r.launches.filter (fun id => id.slot = i) = s.connections.map Connection.id
  bounded : ∀ id ∈ r.launches, id.slot < r.slots.length

variable {r : Registry} {i : Nat} {s s' : Slot} {key : ServerKey}

theorem sound_empty : empty.Sound :=
  ⟨by simp [empty], by simp [empty], by simp [empty], by simp [empty], by simp [empty]⟩

theorem setSlot_eq (hs : r.slots[i]? = some s) (s' : Slot) :
    r.setSlot i s' = ⟨r.slots.set i s', r.launches ++ newLaunches s s'⟩ := by
  simp [setSlot, hs]

theorem setSlot_get (hs : r.slots[i]? = some s) (s' : Slot) (j : Nat) :
    (r.setSlot i s').slots[j]? = if j = i then some s' else r.slots[j]? := by
  have hlt := (List.getElem?_eq_some_iff.1 hs).1
  rw [setSlot_eq hs]
  by_cases hj : j = i
  · subst hj
    simp [hlt]
  · simp [hj, List.getElem?_set_ne (Ne.symm hj)]

theorem setSlot_self (hs : r.slots[i]? = some s) : r.setSlot i s = r := by
  have hset : r.slots.set i s = r.slots := by
    refine List.ext_getElem? fun j => ?_
    rw [List.getElem?_set]
    split
    · rename_i hj
      subst hj
      rw [hs, if_pos (List.getElem?_eq_some_iff.1 hs).1]
    · rfl
  have hnew : newLaunches s s = [] := by
    simp [newLaunches, Slot.generation]
  rw [setSlot_eq hs, hset, hnew, List.append_nil]

theorem slotIndex?_congr {k k' : ServerKey} (h : (k == k') = true) : r.slotIndex? k = r.slotIndex? k' := by
  simp only [slotIndex?, BEq.congr_right h]

namespace Sound

theorem slotIndex?_eq_some (h : r.Sound) (hs : r.slots[i]? = some s) (hk : (s.key == key) = true) :
    r.slotIndex? key = some i := by
  cases hf : r.slotIndex? key with
  | none =>
    have := List.findIdx?_eq_none_iff.1 hf s (List.mem_of_getElem? hs)
    simp [hk] at this
  | some j =>
    obtain ⟨hlt, hkj, _⟩ := List.findIdx?_eq_some_iff_getElem.1 hf
    have hj : r.slots[j]? = some r.slots[j] := List.getElem?_eq_getElem hlt
    rw [h.keys j i _ s hj hs (BEq.trans hkj (BEq.symm hk))]

theorem slotIndex?_slot (hf : r.slotIndex? key = some i) : ∃ s : Slot, r.slots[i]? = some s ∧
    (s.key == key) = true := by
  obtain ⟨hlt, hk, _⟩ := List.findIdx?_eq_some_iff_getElem.1 hf
  exact ⟨_, List.getElem?_eq_getElem hlt, hk⟩

theorem openSlot_get (r : Registry) (key : ServerKey) :
    ∃ s : Slot, (r.openSlot key).1.slots[(r.openSlot key).2]? = some s ∧ (s.key == key) = true := by
  unfold Registry.openSlot
  cases hf : r.slotIndex? key with
  | some i => exact slotIndex?_slot hf
  | none => exact ⟨_, List.getElem?_concat_length, BEq.rfl⟩

theorem slot?_eq_some (h : r.Sound) (hs : r.slots[i]? = some s) (hk : (s.key == key) = true) :
    r.slot? key = some s := by
  cases hf : r.slot? key with
  | none =>
    have := List.find?_eq_none.1 hf s (List.mem_of_getElem? hs)
    exact absurd hk this
  | some t =>
    obtain ⟨j, hj⟩ := List.mem_iff_getElem?.1 (List.mem_of_find?_eq_some hf)
    have hkt : (t.key == key) = true := List.find?_some (p := fun s : Slot => s.key == key) hf
    obtain rfl := h.keys j i t s hj hs (BEq.trans hkt (BEq.symm hk))
    exact hj.symm.trans hs

theorem slot?_slot (h : r.Sound) (hf : r.slot? key = some s) :
    r.slots[s.number]? = some s ∧ (s.key == key) = true := by
  obtain ⟨j, hj⟩ := List.mem_iff_getElem?.1 (List.mem_of_find?_eq_some hf)
  have hk : (s.key == key) = true := List.find?_some (p := fun s : Slot => s.key == key) hf
  rw [h.numbers j s hj]
  exact ⟨hj, hk⟩

theorem ids (h : r.Sound) (hs : r.slots[i]? = some s) {j : Nat} {c : Connection} (hc : s.connections[j]? = some c) :
    c.id = ⟨i, j + 1⟩ := by
  rw [(h.lives i s hs).valid.id_eq hc, h.numbers i s hs]

theorem newLaunches_eq (h : r.Sound) (hs : r.slots[i]? = some s) {c : CallId} (hc : s.Change c s') :
    s.connections.map Connection.id ++ newLaunches s s' = s'.connections.map Connection.id := by
  have hnumber : s'.number = i := hc.number.trans (h.numbers i s hs)
  have htake : s.connections.map Connection.id = (s'.connections.take s.generation).map Connection.id := by
    refine List.ext_getElem? fun j => ?_
    have hlen : s.generation ≤ s'.generation := hc.generation
    simp only [List.getElem?_map, List.getElem?_take]
    by_cases hj : j < s.generation
    · obtain ⟨c, hcj⟩ : ∃ c, s.connections[j]? = some c := ⟨_, List.getElem?_eq_getElem hj⟩
      obtain ⟨c', hcj'⟩ : ∃ c, s'.connections[j]? = some c :=
        ⟨_, List.getElem?_eq_getElem (Nat.lt_of_lt_of_le hj hlen)⟩
      rw [if_pos hj, hcj, hcj', Option.map_some, Option.map_some, h.ids hs hcj, hc.lives.valid.id_eq hcj', hnumber]
    · rw [if_neg hj, List.getElem?_eq_none (Nat.not_lt.1 hj)]
  rw [htake, newLaunches, ← List.map_append, List.take_append_drop]

theorem newLaunches_slot (h : r.Sound) (hs : r.slots[i]? = some s) {c : CallId} (hc : s.Change c s') :
    ∀ id ∈ newLaunches s s', id.slot = i := by
  intro id hid
  obtain ⟨c', hc', rfl⟩ := List.mem_map.1 hid
  obtain ⟨j, hj⟩ := List.mem_iff_getElem?.1 (List.mem_of_mem_drop hc')
  rw [hc.lives.valid.id_eq hj, hc.number, h.numbers i s hs]

theorem setSlot (h : r.Sound) (hs : r.slots[i]? = some s) {c : CallId} (hc : s.Change c s') :
    (r.setSlot i s').Sound := by
  have hget := setSlot_get hs s'
  have hold {j : Nat} {t : Slot} (ht : (r.setSlot i s').slots[j]? = some t) :
      ∃ t₀ : Slot, r.slots[j]? = some t₀ ∧ t.key = t₀.key ∧ t.number = t₀.number ∧ (t₀.Lives → t.Lives) := by
    rw [hget] at ht
    split at ht
    · obtain rfl : s' = t := Option.some.inj ht
      rename_i hj
      exact ⟨s, by rw [hj, hs], hc.key, hc.number, fun _ => hc.lives⟩
    · exact ⟨t, ht, rfl, rfl, id⟩
  refine ⟨?_, ?_, ?_, ?_, ?_⟩
  · intro j t ht
    obtain ⟨t₀, ht₀, _, _, hl⟩ := hold ht
    exact hl (h.lives j t₀ ht₀)
  · intro j t ht
    obtain ⟨t₀, ht₀, _, hn, _⟩ := hold ht
    rw [hn, h.numbers j t₀ ht₀]
  · intro j k t u ht hu hk
    obtain ⟨t₀, ht₀, htk, _⟩ := hold ht
    obtain ⟨u₀, hu₀, huk, _⟩ := hold hu
    exact h.keys j k t₀ u₀ ht₀ hu₀ (by rw [← htk, ← huk]; exact hk)
  · intro j t ht
    rw [hget] at ht
    rw [setSlot_eq hs, List.filter_append]
    split at ht
    · rename_i hj
      subst hj
      obtain rfl : s' = t := Option.some.inj ht
      rw [h.launches j s hs, List.filter_eq_self.2 fun id hid => by simpa using h.newLaunches_slot hs hc id hid]
      exact h.newLaunches_eq hs hc
    · rename_i hj
      rw [h.launches j t ht, List.filter_eq_nil_iff.2
        fun id hid => by simp [h.newLaunches_slot hs hc id hid, Ne.symm hj],
        List.append_nil]
  · intro id hid
    rw [setSlot_eq hs] at hid ⊢
    rw [List.length_set]
    rcases List.mem_append.1 hid with hid | hid
    · exact h.bounded id hid
    · rw [h.newLaunches_slot hs hc id hid]
      exact (List.getElem?_eq_some_iff.1 hs).1

/-- The slot of a key, perhaps made for the purpose, which changes no other. -/
theorem openSlot (h : r.Sound) (key : ServerKey) :
    (r.openSlot key).1.Sound ∧ (∀ (j : Nat) (t : Slot), r.slots[j]? = some t →
      (r.openSlot key).1.slots[j]? = some t) ∧
      (∀ (j : Nat) (t : Slot), (r.openSlot key).1.slots[j]? = some t → r.slots[j]? = some t ∨ t = .new key j) ∧
      ∃ s : Slot, (r.openSlot key).1.slots[(r.openSlot key).2]? = some s ∧ (s.key == key) = true := by
  have hfound := openSlot_get r key
  unfold Registry.openSlot at hfound ⊢
  cases hf : r.slotIndex? key with
  | some i => exact ⟨h, fun _ _ ht => ht, fun _ _ ht => .inl ht, slotIndex?_slot hf⟩
  | none =>
    have hnone : ∀ s ∈ r.slots, (s.key == key) = false := by
      simpa using List.findIdx?_eq_none_iff.1 hf
    have hget : ∀ (j : Nat) (t : Slot), (r.slots ++ [Slot.new key r.slots.length])[j]? = some t →
        r.slots[j]? = some t ∨ (j = r.slots.length ∧ t = .new key r.slots.length) := by
      intro j t ht
      rw [List.getElem?_append] at ht
      split at ht
      · exact .inl ht
      · rw [List.getElem?_singleton] at ht
        split at ht
        · exact .inr ⟨by omega, by simpa using ht.symm⟩
        · cases ht
    rw [hf] at hfound
    refine ⟨⟨?_, ?_, ?_, ?_, ?_⟩, ?_, ?_, hfound⟩
    · intro j t ht
      rcases hget j t ht with ht | ⟨rfl, rfl⟩
      · exact h.lives j t ht
      · exact .new key _
    · intro j t ht
      rcases hget j t ht with ht | ⟨rfl, rfl⟩
      · exact h.numbers j t ht
      · rfl
    · intro j k t u ht hu hk
      rcases hget j t ht with ht | ⟨rfl, rfl⟩ <;> rcases hget k u hu with hu | ⟨rfl, rfl⟩
      · exact h.keys j k t u ht hu hk
      · have := hnone t (List.mem_of_getElem? ht)
        rw [show (t.key == key) = true from hk] at this
        cases this
      · have := hnone u (List.mem_of_getElem? hu)
        rw [show (u.key == key) = true from BEq.symm hk] at this
        cases this
      · rfl
    · intro j t ht
      rcases hget j t ht with ht | ⟨rfl, rfl⟩
      · exact h.launches j t ht
      · exact List.filter_eq_nil_iff.2 fun id hid => by simpa using Nat.ne_of_lt (h.bounded id hid)
    · intro id hid
      rw [List.length_append]
      exact Nat.lt_of_lt_of_le (h.bounded id hid) (Nat.le_add_right _ _)
    · intro j t ht
      rw [List.getElem?_append_left (List.getElem?_eq_some_iff.1 ht).1]
      exact ht
    · intro j t ht
      rcases hget j t ht with ht | ⟨rfl, rfl⟩
      · exact .inl ht
      · exact .inr rfl

end Sound

/-- A call has been at work in the registry: slots may have been made, and those there were have
changed by its doing only. -/
structure Evolves (r : Registry) (c : CallId) (r' : Registry) : Prop where
  sound : r'.Sound
  forth : ∀ (i : Nat) (s : Slot), r.slots[i]? = some s → ∃ s' : Slot, r'.slots[i]? = some s' ∧ s.Change c s'
  back : ∀ (i : Nat) (s' : Slot), r'.slots[i]? = some s' →
    (∃ s : Slot, r.slots[i]? = some s ∧ s.Change c s') ∨ (r.slots[i]? = none ∧ s'.visits = [] ∧ s'.turns = [])

namespace Evolves
variable {c : CallId} {r' : Registry}

theorem slotIndex? (he : r.Evolves c r') (hi : r.slotIndex? key = some i) : r'.slotIndex? key = some i := by
  obtain ⟨s, hs, hk⟩ := Sound.slotIndex?_slot hi
  obtain ⟨s', hs', hch⟩ := he.forth i s hs
  exact he.sound.slotIndex?_eq_some hs' (by rw [hch.key]; exact hk)

theorem setSlot (h : r.Sound) (hs : r.slots[i]? = some s) (hc : s.Change c s') : r.Evolves c (r.setSlot i s') := by
  refine ⟨h.setSlot hs hc, ?_, ?_⟩
  · intro j t ht
    rw [setSlot_get hs]
    split
    · rename_i hj
      subst hj
      obtain rfl : s = t := Option.some.inj (hs.symm.trans ht)
      exact ⟨s', rfl, hc⟩
    · exact ⟨t, ht, .refl (h.lives j t ht) c⟩
  · intro j t ht
    rw [setSlot_get hs] at ht
    split at ht
    · rename_i hj
      subst hj
      obtain rfl := Option.some.inj ht
      exact .inl ⟨s, hs, hc⟩
    · exact .inl ⟨t, ht, .refl (h.lives j t ht) c⟩

theorem openSlot (h : r.Sound) (key : ServerKey) (c : CallId) : r.Evolves c (r.openSlot key).1 := by
  obtain ⟨hsound, hold, hnew, _⟩ := h.openSlot key
  refine ⟨hsound, fun j t ht => ⟨t, hold j t ht, .refl (h.lives j t ht) c⟩, ?_⟩
  intro j t ht
  rcases hnew j t ht with ht' | rfl
  · exact .inl ⟨t, ht', .refl (h.lives j t ht') c⟩
  · cases hj : r.slots[j]? with
    | none => exact .inr ⟨rfl, rfl, rfl⟩
    | some u =>
      obtain rfl : u = .new key j := Option.some.inj ((hold j u hj).symm.trans ht)
      exact .inl ⟨_, rfl, .refl (.new key j) c⟩

theorem abandon (h : r.Sound) (hslots : ∀ j : Nat, r'.slots[j]? = r.slots[j]?.map (·.abandon c))
    (hlaunches : r'.launches = r.launches) : r.Evolves c r' := by
  have hold {j : Nat} {t : Slot} (ht : r'.slots[j]? = some t) : ∃ s, r.slots[j]? = some s ∧ s.abandon c = t := by
    rw [hslots, Option.map_eq_some_iff] at ht
    exact ht
  have hch {j : Nat} {s : Slot} (hs : r.slots[j]? = some s) : s.Change c (s.abandon c) := (h.lives j s hs).abandon c
  have hlen : r'.slots.length = r.slots.length := by
    refine Nat.le_antisymm ?_ ?_
    · refine List.getElem?_eq_none_iff.1 ?_
      rw [hslots, List.getElem?_eq_none (Nat.le_refl _)]
      rfl
    · have := hslots r'.slots.length
      rw [List.getElem?_eq_none (Nat.le_refl _), eq_comm, Option.map_eq_none_iff] at this
      exact List.getElem?_eq_none_iff.1 this
  refine ⟨⟨?_, ?_, ?_, ?_, ?_⟩, ?_, ?_⟩
  · intro j t ht
    obtain ⟨s, hs, rfl⟩ := hold ht
    exact (hch hs).lives
  · intro j t ht
    obtain ⟨s, hs, rfl⟩ := hold ht
    rw [(hch hs).number, h.numbers j s hs]
  · intro j k t u ht hu hk
    obtain ⟨s, hs, rfl⟩ := hold ht
    obtain ⟨w, hw, rfl⟩ := hold hu
    rw [(hch hs).key, (hch hw).key] at hk
    exact h.keys j k s w hs hw hk
  · intro j t ht
    obtain ⟨s, hs, rfl⟩ := hold ht
    have hnew : newLaunches s (s.abandon c) = [] := by
      rw [newLaunches, List.drop_eq_nil_of_le (Nat.le_of_eq (s.abandon_generation c))]
      rfl
    rw [hlaunches, h.launches j s hs, ← h.newLaunches_eq hs (hch hs), hnew, List.append_nil]
  · rw [hlaunches, hlen]
    exact h.bounded
  · intro j s hs
    exact ⟨s.abandon c, by rw [hslots, hs]; rfl, hch hs⟩
  · intro j t ht
    obtain ⟨s, hs, rfl⟩ := hold ht
    exact .inl ⟨s, hs, hch hs⟩

end Evolves

end LanguageHost.Registry
