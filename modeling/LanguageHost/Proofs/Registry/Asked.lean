import LanguageHost.Proofs.Registry.Growth
import LanguageHost.Proofs.Registry.Owners
import LanguageHost.Proofs.Registry.Slots

/-! Which keys have been asked for, and in what order: a slot is made for the first acquire of its key, and by
nothing else. -/
namespace LanguageHost

section First
variable {α : Type} [BEq α] [EquivBEq α]

private theorem any_filter_ne {as : List α} {a b : α} (h : (a == b) = false) :
    (as.filter fun c => !c == b).any (· == a) = as.any (· == a) := by
  rw [List.any_filter]
  congr 1
  funext c
  cases hc : c == a with
  | false => simp
  | true =>
    have hb : (c == b) = false := by
      rw [Bool.eq_false_iff]
      intro hb
      rw [BEq.trans (BEq.symm hc) hb] at h
      cases h
    simp [hb]

theorem eraseDups_concat (as : List α) (a : α) :
    (as ++ [a]).eraseDups = if as.any (· == a) then as.eraseDups else as.eraseDups ++ [a] := by
  match as with
  | [] => simp [List.eraseDups_cons]
  | b :: as =>
    have : (as.filter fun c => !c == b).length ≤ as.length := List.length_filter_le _ _
    rw [List.cons_append, List.eraseDups_cons, List.filter_append, List.any_cons]
    cases hab : a == b with
    | true => simp [hab, BEq.symm hab, List.eraseDups_cons]
    | false =>
      have hba : (b == a) = false := by rw [BEq.comm, hab]
      have hone : ([a].filter fun c => !c == b) = [a] := by simp [hab]
      rw [hone, eraseDups_concat, any_filter_ne hab, hba, Bool.false_or, List.eraseDups_cons]
      split <;> rfl
termination_by as.length

theorem any_eraseDups (as : List α) (a : α) : as.eraseDups.any (· == a) = as.any (· == a) := by
  match as with
  | [] => rfl
  | b :: as =>
    have : (as.filter fun c => !c == b).length ≤ as.length := List.length_filter_le _ _
    rw [List.eraseDups_cons, List.any_cons, List.any_cons, any_eraseDups]
    cases hba : b == a with
    | true => rfl
    | false => rw [any_filter_ne (by rw [BEq.comm, hba])]
termination_by as.length

end First

/-- The key that a call asks for when it comes to acquire. -/
def Record.asked? : Record → Option ServerKey
  | .came ⟨_, .acquire key _ _⟩ => some key
  | _ => none

namespace Slot
variable {s s' : Slot} {c : CallId} {v : Visit} {now : Nat}

/-- The keys that calls asked for when they came to acquire, the latest first. -/
def asked (s : Slot) : List ServerKey := s.log.filterMap Record.asked?

/-- The key of a slot, and what has been asked for there. -/
def mark (s : Slot) : ServerKey × List ServerKey := (s.key, s.asked)

theorem Goes.mark {r : Slot × Option Answer} (h : s.Goes v r) : r.1.mark = s.mark := by
  obtain ⟨e, hlog⟩ := h.log
  rw [Slot.mark, Slot.mark, h.key, asked, asked, hlog, List.filterMap_append]
  cases r.2 <;> rfl

theorem arrive_mark (s : Slot) (now : Nat) (v : Visit) :
    (s.arrive now v).1.mark = (s.key, (Record.asked? (.came v)).toList ++ s.asked) := by
  rw [(s.arrive_goes now v).mark, Slot.mark, asked, note, List.filterMap_cons]
  cases Record.asked? (.came v) <;> rfl

theorem arrive_mark_of_not (s : Slot) (now : Nat) (hv : ¬v.request.Acquires) : (s.arrive now v).1.mark = s.mark := by
  obtain ⟨c, _ | _ | _⟩ := v
  · exact absurd ⟨_, _, _, rfl⟩ hv
  · exact s.arrive_mark now _
  · exact s.arrive_mark now _

theorem abandon_mark (s : Slot) (c : CallId) : (s.abandon c).mark = s.mark := by
  rw [Slot.mark, Slot.mark, (s.abandon_grows c).key, asked, asked]
  rcases s.abandon_log c with he | ⟨r, he, rfl | ⟨v, _, _, rfl⟩⟩ <;> rw [he] <;> rfl

/-- Whoever is at work inside after a call went on was so before, or is that call. -/
theorem serve_work_back {w : Visit} {x : Work} (h : (s.serve now v).1.work? = some (w, x)) : w = v := by
  have hstop {y : Slot} {d : Connection} {a : Answer} (h : (y.stop now v d a).1.work? = some (w, x)) : w = v := by
    unfold Slot.stop at h
    dsimp only at h
    split at h
    · exact (Prod.mk.inj (Option.some.inj h)).1.symm
    · simp at h
  unfold serve at h
  split at h
  · unfold acquire at h
    split at h
    · simp at h
    · split at h
      · simp at h
      · exact (Prod.mk.inj (Option.some.inj h)).1.symm
  · unfold release at h
    split at h
    · simp at h
    · split at h
      · simp at h
      · exact hstop h
      · simp at h
  · unfold clear at h
    dsimp only at h
    split at h
    · simp at h
    · split at h
      · exact hstop h
      · simp at h

theorem arrive_work_back {w : Visit} {x : Work} (h : (s.arrive now v).1.work? = some (w, x)) :
    w = v ∨ s.work? = some (w, x) := by
  unfold arrive at h
  split at h
  · exact .inl (serve_work_back h)
  · exact .inr h

theorem abandon_work_back {w : Visit} {x : Work} (h : (s.abandon c).work? = some (w, x)) : s.work? = some (w, x) := by
  unfold abandon at h
  split at h
  · split at h
    · split at h <;> simp at h
    · split at h <;> exact h
  · exact h

theorem Step.work_back (hs : s.Step c s') {w : Visit} {x : Work} (h : s'.work? = some (w, x)) :
    w.call = c ∨ s.work? = some (w, x) := by
  cases hs with
  | @come v ha =>
    unfold Slot.come at h
    split at h
    · simp [work?] at h
    · exact .inr h
  | serve hh hr =>
    cases hr with
    | share | refuse | ignore | drop | forget => simp at h
    | launch | last | close => exact .inl (congrArg Visit.call (Prod.mk.inj (Option.some.inj h)).1.symm)
  | launched | failed | stopped | dropLaunch | dropStop | dropGranted => simp at h
  | dropQueued => exact .inr h

theorem arrive_inside {w : Visit} {x : Work} (h : s.work? = some (w, x)) :
    (s.arrive now v).1.work? = some (w, x) ∧ (s.arrive now v).1.connections = s.connections := by
  obtain ⟨stage, hh⟩ := holder_of_work h
  have he : (s.arrive now v).1 = { s.note (.came v) with queue := s.queue ++ [v] } := by simp only [arrive, hh]
  rw [he]
  exact ⟨h, rfl⟩

theorem Step.inside_other (hs : s.Step c s') {w : Visit} {x : Work} (h : s.work? = some (w, x)) (hne : w.call ≠ c) :
    s'.work? = some (w, x) ∧ s'.connections = s.connections := by
  obtain ⟨stage, hh⟩ := holder_of_work h
  have hholder {u : Visit} {stage' : Stage} (hu : s.holder = some ⟨u, stage'⟩) : w = u := by
    cases hh.symm.trans hu
    rfl
  cases hs with
  | @come v ha =>
    have he : s.come v = { s.note (.came v) with queue := s.queue ++ [v] } := by simp only [Slot.come, hh]
    rw [he]
    exact ⟨h, rfl⟩
  | dropQueued => exact ⟨h, rfl⟩
  | serve hu | launched hu | failed hu | stopped hu | dropLaunch hu | dropStop hu | dropGranted hu =>
    exact absurd (congrArg Visit.call (hholder hu)) hne

end Slot

namespace Registry
variable {r r' : Registry} {i : Nat} {s s' : Slot} {key : ServerKey}

/-- The keys of the slots, with what has been asked for in each. -/
def marks (r : Registry) : List (ServerKey × List ServerKey) := r.slots.map Slot.mark

theorem marks_keys (r : Registry) : r.marks.map Prod.fst = r.slots.map Slot.key := by
  rw [marks, List.map_map]
  rfl

theorem marks_length (r : Registry) : r.marks.length = r.slots.length := List.length_map _

/-- Somebody asks for a key: in the slot of it, or in a new one behind all others. -/
def ask (key : ServerKey) : List (ServerKey × List ServerKey) → List (ServerKey × List ServerKey)
  | [] => [(key, [key])]
  | m :: ms => if m.1 == key then (m.1, key :: m.2) :: ms else m :: ask key ms

/-- The keys asked for between two moments, in order within each slot. -/
def newlyAsked : List (ServerKey × List ServerKey) → List (ServerKey × List ServerKey) → List ServerKey
  | _, [] => []
  | [], m :: ms => m.2.reverse ++ newlyAsked [] ms
  | m :: ms, m' :: ms' => (m'.2.take (m'.2.length - m.2.length)).reverse ++ newlyAsked ms ms'

theorem newlyAsked_self (ms : List (ServerKey × List ServerKey)) : newlyAsked ms ms = [] := by
  induction ms with
  | nil => rfl
  | cons m ms ih => simp [newlyAsked, ih]

theorem newlyAsked_ask (key : ServerKey) (ms : List (ServerKey × List ServerKey)) :
    newlyAsked ms (ask key ms) = [key] := by
  induction ms with
  | nil => rfl
  | cons m ms ih =>
    rw [ask]
    split
    · simp [newlyAsked, newlyAsked_self]
    · simp [newlyAsked, ih]

theorem ask_keys (key : ServerKey) (ms : List (ServerKey × List ServerKey)) :
    (ask key ms).map Prod.fst =
      if (ms.map Prod.fst).any (· == key) then ms.map Prod.fst else ms.map Prod.fst ++ [key] := by
  induction ms with
  | nil => rfl
  | cons m ms ih =>
    rw [ask, List.map_cons, List.any_cons]
    split
    · rename_i hm
      rw [hm]
      rfl
    · rename_i hm
      rw [Bool.eq_false_iff.2 hm, Bool.false_or, List.map_cons, ih]
      split <;> rfl

private theorem ask_set {slots : List Slot} (hi : slots.findIdx? (·.key == key) = some i)
    (hs : slots[i]? = some s) (hm : s'.mark = (s.key, key :: s.asked)) :
    (slots.set i s').map Slot.mark = ask key (slots.map Slot.mark) := by
  induction slots generalizing i with
  | nil => cases hi
  | cons t slots ih =>
    rw [List.findIdx?_cons] at hi
    show _ = if t.key == key then _ else _
    split at hi
    · rename_i ht
      obtain rfl := Option.some.inj hi
      obtain rfl : t = s := Option.some.inj hs
      rw [if_pos ht, List.set_cons_zero, List.map_cons, hm]
      rfl
    · rename_i ht
      obtain ⟨j, hj, rfl⟩ := Option.map_eq_some_iff.1 hi
      rw [if_neg ht, List.set_cons_succ, List.map_cons, ih hj hs]

private theorem ask_concat {slots : List Slot} (hi : slots.findIdx? (·.key == key) = none)
    (hm : s'.mark = (key, [key])) : (slots ++ [s']).map Slot.mark = ask key (slots.map Slot.mark) := by
  induction slots with
  | nil =>
    rw [List.nil_append, List.map_singleton, hm]
    rfl
  | cons t slots ih =>
    obtain ⟨ht, hrest⟩ : (t.key == key) = false ∧ slots.findIdx? (·.key == key) = none := by
      simpa [List.findIdx?_eq_none_iff] using hi
    rw [List.cons_append, List.map_cons, List.map_cons, ask, if_neg (by simpa [Slot.mark] using ht), ih hrest]

/-- What a call does at the gates on its way from one wait to the next, and the key it asks for, if any. -/
inductive Deeds (c : CallId) (r : Registry) : Option ServerKey → Registry → Prop
  | idle : Deeds c r none r
  | comes {asks r' i s q now} (hd : Deeds c r asks r') (hs : r'.slots[i]? = some s) (hq : ¬q.Acquires) :
    Deeds c r asks (r'.setSlot i (s.arrive now ⟨c, q⟩).1)
  | acquires {r' s now document seen} (hd : Deeds c r none r') (key : ServerKey)
    (hs : (r'.openSlot key).1.slots[(r'.openSlot key).2]? = some s) : Deeds c r (some key)
      ((r'.openSlot key).1.setSlot (r'.openSlot key).2 (s.arrive now ⟨c, .acquire key document seen⟩).1)
  | leaves {asks r' i s} (hd : Deeds c r asks r') (hs : r'.slots[i]? = some s) :
    Deeds c r asks (r'.setSlot i (s.abandon c))
  | goes {asks r' i s v s' ans} (hd : Deeds c r asks r') (hs : r'.slots[i]? = some s) (hg : s.Goes v (s', ans))
    (hm : s' = s ∨ s.Step c s') : Deeds c r asks (r'.setSlot i s')

theorem marks_setSlot (hs : r.slots[i]? = some s) (hm : s'.mark = s.mark) : (r.setSlot i s').marks = r.marks := by
  have hself : (r.setSlot i s).marks = r.marks := by rw [setSlot_self hs]
  rw [setSlot_eq hs] at hself ⊢
  calc (r.slots.set i s').map Slot.mark
    _ = (r.slots.set i s).map Slot.mark := by rw [List.map_set, List.map_set, hm]
    _ = r.marks := hself

namespace Deeds
variable {c : CallId} {asks : Option ServerKey}

theorem marks (hd : r.Deeds c asks r') : r'.marks = asks.elim r.marks (ask · r.marks) := by
  induction hd with
  | idle => rfl
  | comes _ hs hq ih => rw [marks_setSlot hs (Slot.arrive_mark_of_not _ _ hq), ih]
  | leaves _ hs ih => rw [marks_setSlot hs (Slot.abandon_mark _ _), ih]
  | goes _ hs hg _ ih => rw [marks_setSlot hs hg.mark, ih]
  | @acquires r₁ s now document seen _ key hs ih =>
    have hm := s.arrive_mark now ⟨c, .acquire key document seen⟩
    rw [setSlot_eq hs]
    show _ = ask key r.marks
    rw [← show r₁.marks = r.marks from ih]
    generalize (s.arrive now ⟨c, .acquire key document seen⟩).1 = s' at hm
    unfold openSlot at hs ⊢
    cases hi : r₁.slotIndex? key with
    | some i =>
      rw [hi] at hs
      exact ask_set hi hs hm
    | none =>
      rw [hi] at hs
      obtain rfl : Slot.new key r₁.slots.length = s := by simpa using hs
      have hset : (r₁.slots ++ [Slot.new key r₁.slots.length]).set r₁.slots.length s' = r₁.slots ++ [s'] := by simp
      show List.map Slot.mark ((r₁.slots ++ [Slot.new key r₁.slots.length]).set r₁.slots.length s') = _
      rw [hset]
      exact ask_concat hi hm

theorem work_back (hd : r.Deeds c asks r') (hs : r'.slots[i]? = some s) {v : Visit} {w : Work}
    (hw : s.work? = some (v, w)) (hv : v.call ≠ c) : ∃ s₀, r.slots[i]? = some s₀ ∧ s₀.work? = some (v, w) := by
  induction hd generalizing i s with
  | idle => exact ⟨s, hs, hw⟩
  | @comes _ r₁ j t q now _ ht _ ih =>
    rw [setSlot_get ht] at hs
    split at hs
    · obtain rfl := Option.some.inj hs
      rename_i hj
      subst hj
      exact ih ht ((Slot.arrive_work_back hw).resolve_left fun he => hv (congrArg Visit.call he))
    · exact ih hs hw
  | @leaves _ r₁ j t _ ht ih =>
    rw [setSlot_get ht] at hs
    split at hs
    · obtain rfl := Option.some.inj hs
      rename_i hj
      subst hj
      exact ih ht (Slot.abandon_work_back hw)
    · exact ih hs hw
  | @goes _ r₁ j t u t' _ _ ht _ hm ih =>
    rw [setSlot_get ht] at hs
    split at hs
    · obtain rfl := Option.some.inj hs
      rename_i hj
      subst hj
      rcases hm with rfl | hm
      · exact ih ht hw
      · exact ih ht ((hm.work_back hw).resolve_left hv)
    · exact ih hs hw
  | @acquires r₁ t now document seen _ key ht ih =>
    have hopen {j : Nat} {u : Slot} (hu : (r₁.openSlot key).1.slots[j]? = some u) (hw : u.work? = some (v, w)) :
        r₁.slots[j]? = some u := by
      unfold openSlot at hu
      split at hu
      · exact hu
      · rw [List.getElem?_append] at hu
        split at hu
        · exact hu
        · obtain ⟨_, rfl⟩ := List.getElem?_eq_some_iff.1 hu
          simp [Slot.work?, Slot.new] at hw
    rw [setSlot_get ht] at hs
    split at hs
    · obtain rfl := Option.some.inj hs
      rename_i hj
      subst hj
      have hw₀ := (Slot.arrive_work_back hw).resolve_left fun he => hv (congrArg Visit.call he)
      exact ih (hopen ht hw₀) hw₀
    · exact ih (hopen hs hw) hw

/-- Another call's work inside a slot goes on meanwhile, and the connections there stay as they are. -/
theorem work_stays (hd : r.Deeds c asks r') (hs : r.slots[i]? = some s) {v : Visit} {w : Work}
    (hw : s.work? = some (v, w)) (hv : v.call ≠ c) :
    ∃ s', r'.slots[i]? = some s' ∧ s'.work? = some (v, w) ∧ s'.connections = s.connections := by
  have hset {r₁ : Registry} {j : Nat} {t t' : Slot} (ht : r₁.slots[j]? = some t)
      (hkeeps : t.work? = some (v, w) → t'.work? = some (v, w) ∧ t'.connections = t.connections)
      (ih : ∃ s', r₁.slots[i]? = some s' ∧ s'.work? = some (v, w) ∧ s'.connections = s.connections) :
      ∃ s', (r₁.setSlot j t').slots[i]? = some s' ∧ s'.work? = some (v, w) ∧ s'.connections = s.connections := by
    obtain ⟨s', hs', hw', hcs⟩ := ih
    rw [setSlot_get ht]
    split
    · rename_i hj
      subst hj
      obtain rfl := Option.some.inj (ht.symm.trans hs')
      obtain ⟨hkept, hcs'⟩ := hkeeps hw'
      exact ⟨t', rfl, hkept, hcs'.trans hcs⟩
    · exact ⟨s', hs', hw', hcs⟩
  induction hd with
  | idle => exact ⟨s, hs, hw, rfl⟩
  | comes _ ht _ ih => exact hset ht (fun hw' => Slot.arrive_inside hw') ih
  | leaves _ ht ih =>
    refine hset ht (fun hw' => ?_) ih
    obtain ⟨hcs, _, hkept⟩ := Slot.abandon_outside fun u x hu => by
      obtain rfl := (Prod.mk.inj (Option.some.inj (hw'.symm.trans hu))).1
      exact hv
    exact ⟨hkept.trans hw', hcs⟩
  | goes _ ht _ hm ih =>
    refine hset ht (fun hw' => ?_) ih
    rcases hm with rfl | hm
    · exact ⟨hw', rfl⟩
    · exact hm.inside_other hw' hv
  | @acquires r₁ t now document seen _ key ht ih =>
    refine hset ht (fun hw' => Slot.arrive_inside hw') ?_
    obtain ⟨s', hs', hrest⟩ := ih
    refine ⟨s', ?_, hrest⟩
    unfold openSlot
    split
    · exact hs'
    · rw [List.getElem?_append_left (List.getElem?_eq_some_iff.1 hs').1, hs']

end Deeds

end Registry

end LanguageHost
