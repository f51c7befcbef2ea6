import LanguageHost.Proofs.Host.Reflection

/-! What a call does to the whole it does to what is left, and what a call on the key does is not seen there. -/
namespace LanguageHost

def Answer.isCleared : Answer → Bool
  | .cleared _ => true
  | _ => false

namespace Removal
variable {m : Removal} {h h' h₀ h₀' : Host} {i j : Nat} {s s' : Slot} {c : CallId} {key : ServerKey} {x x₀ : Call}
  {Q : Nat → Request → Prop}

private theorem visit_same (h : Host) (c : CallId) (i : Nat) (q : Request) :
    (h.visit c i q).1.bounds = h.bounds ∧ (h.visit c i q).1.now = h.now ∧ (h.visit c i q).1.calls = h.calls := by
  unfold Host.visit
  split
  · exact ⟨rfl, rfl, rfl⟩
  · rename_i s _
    obtain ⟨woken, he⟩ := Host.setSlot_eq h i (s.arrive h.now ⟨c, q⟩).1
    dsimp only
    rw [he]
    exact ⟨rfl, rfl, rfl⟩

namespace Mirrors

theorem visit (hm : m.Mirrors h h₀) (hi : m.slot? ≠ some i) {q : Request}
    (hq : ∀ s : Slot, h.registry.slots[i]? = some s → s.Distinguishes m.numbers q) (c : CallId) :
    m.Mirrors (h.visit c i q).1 (h₀.visit (m.numbers.call c) (m.numbers.slot i) (q.rename m.numbers)).1 ∧
      (h₀.visit (m.numbers.call c) (m.numbers.slot i) (q.rename m.numbers)).2 =
        (h.visit c i q).2.map (·.rename m.numbers) := by
  obtain ⟨hb, hn, hc⟩ := visit_same h c i q
  obtain ⟨hb₀, hn₀, hc₀⟩ := visit_same h₀ (m.numbers.call c) (m.numbers.slot i) (q.rename m.numbers)
  suffices hr : m.Reflects (h.visit c i q).1.registry
      (h₀.visit (m.numbers.call c) (m.numbers.slot i) (q.rename m.numbers)).1.registry ∧
      (h₀.visit (m.numbers.call c) (m.numbers.slot i) (q.rename m.numbers)).2 =
        (h.visit c i q).2.map (·.rename m.numbers) from ⟨hm.frame hb hn hc hb₀ hn₀ hc₀ hr.1, hr.2⟩
  cases hs : h.registry.slots[i]? with
  | none =>
    rw [Host.visit, Host.visit, hs, hm.registry.get_none hi hs]
    exact ⟨hm.registry, rfl⟩
  | some s =>
    have hstep := Slot.rename_arrive s h.now ⟨c, q⟩ (hq s hs)
    have hslot := congrArg Prod.fst hstep
    rw [Host.visit_eq h hs, Host.visit_eq h₀ (hm.registry.get hi hs), hm.now]
    refine ⟨?_, (congrArg Prod.snd hstep).symm⟩
    rw [Host.setSlot_registry, Host.setSlot_registry]
    exact hslot ▸ hm.registry.setSlot hi hs _

theorem visit_aside (hm : m.Mirrors h h₀) (hi : m.slot? = some i) (c : CallId) (q : Request) :
    m.Mirrors (h.visit c i q).1 h₀ := by
  obtain ⟨hb, hn, hc⟩ := visit_same h c i q
  refine hm.frame hb hn hc rfl rfl rfl (hm.registry.aside fun k hk => ?_)
  rw [Host.visit_slots]
  cases h.registry.slots[k]? with
  | none => rfl
  | some s =>
    refine congrArg some (if_neg fun he => hk ?_)
    rw [he]
    exact hi

theorem visitToAcquire (hm : m.Mirrors h h₀) (hsound : h.registry.Sound) (hsound₀ : h₀.registry.Sound)
    (hkey : m.slot? ≠ some (h.registry.openSlot key).2) (c : CallId) (document : Option Path) :
    m.Mirrors (h.visitToAcquire c key document).1 (h₀.visitToAcquire (m.numbers.call c) key document).1 ∧
      (h₀.visitToAcquire (m.numbers.call c) key document).2 =
        (h.visitToAcquire c key document).2.map (·.rename m.numbers) := by
  obtain ⟨hr, hi₀⟩ := hm.registry.openSlot hsound hsound₀ hkey
  -- The count of finished launches that the call sees is the same.
  have hseen : (h₀.registry.openSlot key).1.slots[(h₀.registry.openSlot key).2]?.map Slot.finished =
      (h.registry.openSlot key).1.slots[(h.registry.openSlot key).2]?.map Slot.finished := by
    rw [hi₀, hr _ hkey, Option.map_map]
    rfl
  have ho : m.Mirrors { h with registry := (h.registry.openSlot key).1 }
      { h₀ with registry := (h₀.registry.openSlot key).1 } := hm.frame rfl rfl rfl rfl rfl rfl hr
  unfold Host.visitToAcquire
  dsimp only
  rw [hseen, hi₀]
  exact ho.visit hkey (fun s _ id d hq => by cases hq) c

section Begin
variable (hm : m.Mirrors h h₀) (hx : h.call? c = some x)
include hm hx

theorem beginPlainRelease (hk : m.keeps x.task = true) (ht : x.task ≠ .shutdownAll) {n : Option Nat}
    (hn : ∀ i, n = some i → m.slot? ≠ some i) (expected : Option ConnectionId)
    (hq : ∀ (i : Nat) (s : Slot), n = some i → h.registry.slots[i]? = some s →
      s.Distinguishes m.numbers (.release expected)) :
    m.Mirrors (h.beginPlainRelease c n expected)
      (h₀.beginPlainRelease (m.numbers.call c) (n.map m.numbers.slot) (expected.map (·.rename m.numbers))) := by
  cases n with
  | none => exact hm.goes_on hx hk ht (.ended .done)
  | some i =>
    obtain ⟨hv, ha⟩ := hm.visit (hn i rfl) (fun s => hq i s rfl) c
    have hx' : (h.visit c i (.release expected)).1.call? c = some x := by rwa [Host.call?, Host.visit_calls]
    have hrequest : (Request.release expected).rename m.numbers = .release (expected.map (·.rename m.numbers)) := rfl
    rw [hrequest] at hv ha
    simp only [Host.beginPlainRelease, Option.map_some]
    generalize h₀.visit (m.numbers.call c) (m.numbers.slot i) (.release (expected.map (·.rename m.numbers))) = out₀
      at hv ha
    generalize h.visit c i (.release expected) = out at hv ha hx'
    obtain ⟨h', _ | a⟩ := out <;> obtain ⟨h₀', a₀⟩ := out₀ <;> obtain rfl := ha
    · exact hv.goes_on hx' hk ht .releasing
    · exact hv.goes_on hx' hk ht (.ended .done)

theorem beginPlainRelease_aside (hk : m.keeps x.task = false) {n : Option Nat}
    (hn : ∀ i, n = some i → m.slot? = some i) (expected : Option ConnectionId) :
    m.Mirrors (h.beginPlainRelease c n expected) h₀ := by
  cases n with
  | none => exact hm.setProgress_left hx (by simp [hk])
  | some i =>
    have hv := hm.visit_aside (hn i rfl) c (.release expected)
    have hx' : (h.visit c i (.release expected)).1.call? c = some x := by rwa [Host.call?, Host.visit_calls]
    simp only [Host.beginPlainRelease]
    generalize h.visit c i (.release expected) = out at hv hx'
    obtain ⟨h', _ | a⟩ := out
    · exact hv.setProgress_left hx' (by simp [hk])
    · exact hv.setProgress_left hx' (by simp [hk])

theorem acquire (hsound : h.registry.Sound) (hsound₀ : h₀.registry.Sound) (hk : m.keeps x.task = true)
    (ht : x.task ≠ .shutdownAll) (hkey : key.isValid = true → m.slot? ≠ some (h.registry.openSlot key).2)
    (document : Option Path) :
    m.Mirrors (h.acquire c key document) (h₀.acquire (m.numbers.call c) key document) := by
  unfold Host.acquire
  by_cases hvalid : key.isValid = true
  · obtain ⟨hv, ha⟩ := hm.visitToAcquire hsound hsound₀ (hkey hvalid) c document
    have hx' : (h.visitToAcquire c key document).1.call? c = some x := by
      rw [Host.call?]
      exact (congrArg (·[c.number]?) (Host.visit_calls ..)).trans hx
    rw [if_neg (by simp [hvalid]), if_neg (by simp [hvalid])]
    generalize h₀.visitToAcquire (m.numbers.call c) key document = out₀ at hv ha
    generalize h.visitToAcquire c key document = out at hv ha hx'
    obtain ⟨h', _ | a⟩ := out <;> obtain ⟨h₀', a₀⟩ := out₀ <;> obtain rfl := ha
    · exact hv.goes_on hx' hk ht .acquiring
    · cases a with
      | acquired id => exact hv.goes_on hx' hk ht (.ended (.connection id))
      | refused e => exact hv.goes_on hx' hk ht (.ended (.failed e))
      | released | cleared => exact hv.goes_on hx' hk ht .acquiring
  · rw [if_pos (by simp [hvalid]), if_pos (by simp [hvalid])]
    exact hm.goes_on hx hk ht (.ended (.failed (.invalidKey key.text)))

theorem acquire_aside (hk : m.keeps x.task = false)
    (hkey : key.isValid = true → m.slot? = some (h.registry.openSlot key).2) (document : Option Path) :
    m.Mirrors (h.acquire c key document) h₀ := by
  unfold Host.acquire
  split
  · exact hm.setProgress_left hx (by simp [hk])
  · rename_i hvalid
    have hkey := hkey (by simpa using hvalid)
    have ho : m.Mirrors { h with registry := (h.registry.openSlot key).1 } h₀ :=
      hm.frame rfl rfl rfl rfl rfl rfl (hm.registry.openSlot_aside hkey)
    have hv : m.Mirrors (h.visitToAcquire c key document).1 h₀ := ho.visit_aside hkey c _
    have hx' : (h.visitToAcquire c key document).1.call? c = some x := by
      rw [Host.call?]
      exact (congrArg (·[c.number]?) (Host.visit_calls ..)).trans hx
    generalize h.visitToAcquire c key document = out at hv hx'
    obtain ⟨h', _ | _ | _ | _ | _⟩ := out
    all_goals exact hv.setProgress_left hx' (by simp [hk])

end Begin

/-- The slots are visited one after another; those without an answer keep the call waiting. -/
private theorem clearSlots_cons (h : Host) (c : CallId) (i : Nat) (rest : List Nat) :
    (h.clearSlots c (i :: rest)).1 = ((h.visit c i .clear).1.clearSlots c rest).1 ∧
      (h.clearSlots c (i :: rest)).2.1 = if (h.visit c i .clear).2.any Answer.isCleared
        then ((h.visit c i .clear).1.clearSlots c rest).2.1 else i :: ((h.visit c i .clear).1.clearSlots c rest).2.1 := by
  rw [Host.clearSlots]
  generalize h.visit c i .clear = out
  obtain ⟨h', _ | _ | _ | _ | _⟩ := out <;> exact ⟨rfl, rfl⟩

/-- Slots are cleared, but for the one taken out. -/
theorem clearSlots (hm : m.Mirrors h h₀) (c : CallId) (l : List Nat) :
    m.Mirrors (h.clearSlots c l).1 (h₀.clearSlots (m.numbers.call c) (m.others l)).1 ∧
      (h₀.clearSlots (m.numbers.call c) (m.others l)).2.1 = m.others (h.clearSlots c l).2.1 ∧
      (h.clearSlots c l).1.calls = h.calls := by
  induction l generalizing h h₀ with
  | nil => exact ⟨hm, rfl, rfl⟩
  | cons i rest ih =>
    obtain ⟨hfirst, hwaiting⟩ := clearSlots_cons h c i rest
    have hcalls := (visit_same h c i .clear).2.2
    by_cases hi : m.slot? = some i
    · have hothers (l : List Nat) : m.others (i :: l) = m.others l := by simp [others, keepsSlot, hi]
      obtain ⟨hm', hw, hc⟩ := ih (hm.visit_aside hi c .clear)
      rw [hothers, hfirst, hwaiting, hc, hcalls]
      refine ⟨hm', ?_, rfl⟩
      split
      · exact hw
      · rw [hothers]
        exact hw
    · have hothers (l : List Nat) : m.others (i :: l) = m.numbers.slot i :: m.others l := by
        simp [others, keepsSlot, hi]
      obtain ⟨hv, ha⟩ := hm.visit (q := .clear) hi (fun s _ id d hq => by cases hq) c
      obtain ⟨hm', hw, hc⟩ := ih hv
      obtain ⟨hfirst₀, hwaiting₀⟩ := clearSlots_cons h₀ (m.numbers.call c) (m.numbers.slot i) (m.others rest)
      have hcleared : (h₀.visit (m.numbers.call c) (m.numbers.slot i) .clear).2.any Answer.isCleared =
          (h.visit c i .clear).2.any Answer.isCleared := by
        rw [show (h₀.visit (m.numbers.call c) (m.numbers.slot i) .clear).2 = _ from ha]
        rcases (h.visit c i .clear).2 with _ | _ | _ | _ | _ <;> rfl
      rw [hothers, hfirst₀, hwaiting₀, hfirst, hwaiting, hc, hcalls, hcleared]
      refine ⟨hm', ?_, rfl⟩
      split
      · exact hw
      · rw [hothers]
        exact congrArg (m.numbers.slot i :: ·) hw

theorem shutdownAll (hm : m.Mirrors h h₀) (hx : h.call? c = some x) (ht : x.task = .shutdownAll) (report : Bool) :
    m.Mirrors (h.shutdownAll c report) (h₀.shutdownAll (m.numbers.call c) report) := by
  have hall : List.range h₀.registry.slots.length = m.others (List.range h.registry.slots.length) := by
    rw [hm.registry.length]
    exact (m.slots_left _).symm
  have hk : m.keeps x.task = true := by
    rw [ht]
    rfl
  obtain ⟨hm', hw, hc⟩ := hm.clearSlots c (List.range h.registry.slots.length)
  unfold Host.shutdownAll
  rw [hall]
  generalize h₀.clearSlots (m.numbers.call c) (m.others (List.range h.registry.slots.length)) = out₀ at hm' hw
  generalize h.clearSlots c (List.range h.registry.slots.length) = out at hm' hw hc
  obtain ⟨h', waiting, closed⟩ := out
  obtain ⟨h₀', waiting₀, closed₀⟩ := out₀
  obtain rfl : waiting₀ = m.others waiting := hw
  have hx' : h'.call? c = some x := by rwa [Host.call?, show h'.calls = h.calls from hc]
  obtain ⟨x₀, hx₀, hs⟩ := hm'.calls c x hx' hk
  have htask₀ : x₀.task = .shutdownAll := by
    rw [hs.task, ht]
    rfl
  obtain ⟨task, p⟩ := x
  obtain ⟨task₀, p₀⟩ := x₀
  obtain rfl : task = .shutdownAll := ht
  obtain rfl : task₀ = .shutdownAll := htask₀
  cases waiting with
  | nil => exact hm'.setProgress hx' hk hx₀ .ended
  | cons i rest =>
    cases hrest : m.others (i :: rest) with
    | nil => exact hm'.setProgress hx' hk hx₀ (.waits hrest)
    | cons n rest₀ =>
      refine hm'.setProgress hx' hk hx₀ ?_
      rw [← hrest]
      exact .clearing (by simp [hrest])

end Mirrors

structure Stays (x : Call) (i : Nat) : Prop where
  plain : x.task ≠ .shutdownAll → x.progress = .acquiring ∨ x.progress = .releasing
  clearing : x.task = .shutdownAll → ∃ waiting closed report, x.progress = .clearing waiting closed report ∧ i ∈ waiting

theorem stays_of_waits {q : Request} (hw : h.Waits x i q) (ht : x.task.OfRegistry) : Stays x i := by
  cases hw with
  | acquiring hp => exact ⟨fun _ => .inl hp, by simp_all⟩
  | release hp | returning hp => exact ⟨fun _ => .inr hp, by simp_all⟩
  | opening _ hsession | session _ hsession =>
    obtain ⟨task, p⟩ := x
    cases task <;> first | exact hsession.elim | exact ht.elim
  | clearing hp htask hi => exact ⟨fun hne => (htask.elim hne fun he => by simp_all [Task.OfRegistry]).elim,
      fun _ => ⟨_, _, _, hp, hi⟩⟩

theorem keeps_of_asks {q : Request} (hp : m.Places h.registry) (hs : h.registry.slots[i]? = some s)
    (ha : x.task.Asks h.registry i q) (ht : x.task.OfRegistry) (hall : x.task ≠ .shutdownAll) :
    m.keeps x.task = true ↔ m.slot? ≠ some i := by
  have hkey {k : ServerKey} (hi : h.registry.slotIndex? k = some i) : (!(k == m.key)) = true ↔ m.slot? ≠ some i := by
    obtain ⟨u, hu, hk⟩ := Registry.Sound.slotIndex?_slot hi
    obtain rfl := Option.some.inj (hs.symm.trans hu)
    have hsame : (k == m.key) = true ↔ (s.key == m.key) = true :=
      ⟨fun he => BEq.trans hk he, fun he => BEq.trans (BEq.symm hk) he⟩
    rw [Bool.not_eq_true', ← Bool.not_eq_true, hsame, hp i s hs]
  generalize x.task = task at *
  cases ha with
  | acquire hi => exact hkey hi
  | release hi => exact hkey hi
  | releaseConnection hi =>
    subst hi
    exact decide_eq_true_iff
  | shutdownAll => exact absurd rfl hall
  | shutdownLifecycle => exact ht.elim
  | session hsession => cases task <;> first | exact hsession.elim | exact ht.elim

theorem keeps_there {q : Request} (hp : m.Places h.registry) (hs : h.registry.slots[i]? = some s)
    (ha : x.task.Asks h.registry i q) (ht : x.task.OfRegistry) (hi : m.slot? ≠ some i) : m.keeps x.task = true := by
  by_cases hall : x.task = .shutdownAll
  · rw [hall]
    rfl
  · exact (keeps_of_asks hp hs ha ht hall).2 hi

namespace Mirrors

theorem answered (hm : m.Mirrors h h₀) (hx : h.call? c = some x) (hk : m.keeps x.task = true)
    (hi : m.slot? ≠ some i) (hstays : Stays x i) (a : Answer) :
    m.Mirrors (h.answered c i a) (h₀.answered (m.numbers.call c) (m.numbers.slot i) (a.rename m.numbers)) := by
  obtain ⟨x₀, hx₀, hs⟩ := hm.calls c x hx hk
  have hprogress : h.progress? c = some x.progress := by rw [Host.progress?, hx]; rfl
  have hprogress₀ : h₀.progress? (m.numbers.call c) = some x₀.progress := by rw [Host.progress?, hx₀]; rfl
  unfold Host.answered
  rw [hprogress, hprogress₀]
  cases hs with
  | plain ht =>
    rcases hstays.plain ht with hp | hp
    · simp only [Call.rename, hp, Progress.rename]
      cases a with
      | acquired id => exact hm.goes_on hx hk ht (.ended (.connection id))
      | refused e => exact hm.goes_on hx hk ht (.ended (.failed e))
      | released | cleared => exact hm
    · simp only [Call.rename, hp, Progress.rename]
      exact hm.goes_on hx hk ht (.ended .done)
  | fresh | ended =>
    obtain ⟨_, _, _, hp, _⟩ := hstays.clearing rfl
    cases hp
  | waits hw =>
    obtain ⟨_, _, _, hp, hmem⟩ := hstays.clearing rfl
    cases hp
    exact absurd hw (others_ne_nil hi hmem)
  | @clearing waiting closed closed₀ report hw =>
    dsimp only
    rw [← others_filter hi]
    cases hrest : waiting.filter (· ≠ i) with
    | nil => exact hm.setProgress hx hk hx₀ .ended
    | cons n rest =>
      cases hrest₀ : m.others (n :: rest) with
      | nil => exact hm.setProgress hx hk hx₀ (.waits hrest₀)
      | cons n₀ rest₀ =>
        refine hm.setProgress hx hk hx₀ ?_
        rw [← hrest₀]
        exact .clearing (by simp [hrest₀])

theorem answered_aside (hm : m.Mirrors h h₀) (hx : h.call? c = some x) (hk : x.task ≠ .shutdownAll → m.keeps x.task = false)
    (hi : m.slot? = some i) (hstays : Stays x i) (a : Answer) : m.Mirrors (h.answered c i a) h₀ := by
  have hprogress : h.progress? c = some x.progress := by rw [Host.progress?, hx]; rfl
  unfold Host.answered
  rw [hprogress]
  by_cases ht : x.task = .shutdownAll
  · obtain ⟨waiting, closed, report, hp, hmem⟩ := hstays.clearing ht
    obtain ⟨task, p⟩ := x
    obtain rfl : task = .shutdownAll := ht
    obtain rfl : p = .clearing waiting closed report := hp
    obtain ⟨x₀, hx₀, hs⟩ := hm.calls c _ hx rfl
    have hothers := others_aside hi waiting
    dsimp only
    cases hrest : waiting.filter (· ≠ i) with
    | nil =>
      refine hm.setProgress_left hx fun _ => ⟨x₀, hx₀, ?_⟩
      rw [hrest] at hothers
      cases hs with
      | plain hne => exact absurd rfl hne
      | clearing hw => exact absurd hothers.symm hw
      | waits hw => exact .ended
    | cons n rest =>
      refine hm.setProgress_left hx fun _ => ⟨x₀, hx₀, ?_⟩
      rw [hrest] at hothers
      cases hs with
      | plain hne => exact absurd rfl hne
      | clearing hw =>
        rw [← hothers] at hw ⊢
        exact .clearing hw
      | waits hw => exact .waits (hothers.trans hw)
  · have hleft (p : Progress) : m.Mirrors (h.setProgress c p) h₀ := hm.setProgress_left hx (by simp [hk ht])
    rcases hstays.plain ht with hp | hp
    · rw [hp]
      cases a with
      | acquired id => exact hleft _
      | refused e => exact hleft _
      | released | cleared => exact hm
    · rw [hp]
      exact hleft _

theorem setSlot (hm : m.Mirrors h h₀) (hi : m.slot? ≠ some i) (hs : h.registry.slots[i]? = some s) (s' : Slot) :
    m.Mirrors (h.setSlot i s') (h₀.setSlot (m.numbers.slot i) (s'.rename m.numbers)) := by
  obtain ⟨w, hw⟩ := Host.setSlot_eq h i s'
  obtain ⟨w₀, hw₀⟩ := Host.setSlot_eq h₀ (m.numbers.slot i) (s'.rename m.numbers)
  rw [hw, hw₀]
  exact hm.frame rfl rfl rfl rfl rfl rfl (hm.registry.setSlot hi hs s')

theorem setSlot_aside (hm : m.Mirrors h h₀) (hi : m.slot? = some i) (hs : h.registry.slots[i]? = some s)
    (s' : Slot) : m.Mirrors (h.setSlot i s') h₀ := by
  obtain ⟨w, hw⟩ := Host.setSlot_eq h i s'
  rw [hw]
  exact hm.frame rfl rfl rfl rfl rfl rfl (hm.registry.setSlot_aside hi hs s')

section Step
variable (hm : m.Mirrors h h₀) (ho : h.Ordered none Q) (ht : ∀ c x, h.call? c = some x → x.task.OfRegistry)
  (hp : m.Places h.registry)
include hm ho ht hp

theorem stepSlot (hi : m.slot? ≠ some i) (step step₀ : Slot → Slot × Option Answer)
    (hstep : ∀ s : Slot, h.registry.slots[i]? = some s → Slot.renameStep m.numbers (step s) = step₀ (s.rename m.numbers)) :
    m.Mirrors (h.stepSlot i step) (h₀.stepSlot (m.numbers.slot i) step₀) := by
  unfold Host.stepSlot
  cases hs : h.registry.slots[i]? with
  | none =>
    rw [hm.registry.get_none hi hs]
    exact hm
  | some s =>
    rw [hm.registry.get hi hs]
    have hstep := hstep s hs
    dsimp only [Host.settle]
    rw [← hstep]
    generalize step s = out
    obtain ⟨s', ans⟩ := out
    have hset := hm.setSlot hi hs s'
    rw [Slot.rename_holder]
    cases hh : s.holder with
    | none => exact hset
    | some holder =>
      obtain ⟨v, stage⟩ := holder
      cases ans with
      | none => exact hset
      | some a =>
        have hv : v ∈ s.visits := by simp [Slot.visits, hh]
        obtain ⟨x, hx⟩ := Option.isSome_iff_exists.1 (ho.known i s hs v hv)
        have hw := ho.waits v.call x (by simp) hx i s hs v hv rfl
        have hk := keeps_there hp hs hw.asks (ht _ x hx) hi
        have hx' : (h.setSlot i s').call? v.call = some x := by rwa [Host.call?, Host.setSlot_calls]
        exact hset.answered hx' hk hi (stays_of_waits hw (ht _ x hx)) a

theorem stepSlot_aside (hi : m.slot? = some i) (step : Slot → Slot × Option Answer) :
    m.Mirrors (h.stepSlot i step) h₀ := by
  unfold Host.stepSlot
  cases hs : h.registry.slots[i]? with
  | none => exact hm
  | some s =>
    dsimp only [Host.settle]
    generalize step s = out
    obtain ⟨s', ans⟩ := out
    have hset := hm.setSlot_aside hi hs s'
    cases hh : s.holder with
    | none => exact hset
    | some holder =>
      obtain ⟨v, stage⟩ := holder
      cases ans with
      | none => exact hset
      | some a =>
        have hv : v ∈ s.visits := by simp [Slot.visits, hh]
        obtain ⟨x, hx⟩ := Option.isSome_iff_exists.1 (ho.known i s hs v hv)
        have hw := ho.waits v.call x (by simp) hx i s hs v hv rfl
        have hx' : (h.setSlot i s').call? v.call = some x := by rwa [Host.call?, Host.setSlot_calls]
        refine hset.answered_aside hx' (fun hall => Bool.eq_false_iff.2 fun hk => ?_) hi
          (stays_of_waits hw (ht _ x hx)) a
        exact (keeps_of_asks hp hs hw.asks (ht _ x hx) hall).1 hk hi

end Step

end Mirrors

theorem releasing?_rename (p : Progress) : Host.releasing? (p.rename m.numbers) = Host.releasing? p := by
  cases p <;> rfl

theorem opening?_rename (p : Progress) : (p.rename m.numbers).opening? = p.opening? := by
  cases p <;> rfl

/-- Calls on the registry are not in the middle of giving a session back, nor of an open. -/
theorem plain_of_reaches {t : Task} {p : Progress} (ht : t.OfRegistry) (hp : t.Reaches p) :
    Host.releasing? p = none ∧ p.opening? = none := by
  refine ⟨ht.not_returning hp, ?_⟩
  cases ho : p.opening? with
  | none => rfl
  | some o =>
    obtain ⟨e, rfl, _⟩ := hp.opening ho
    exact ht.elim

theorem Same.plain_back (hs : m.Same x x₀) (hr : Host.releasing? x.progress = none) (ho : x.progress.opening? = none) :
    Host.releasing? x₀.progress = none ∧ x₀.progress.opening? = none := by
  cases hs with
  | plain => exact ⟨(releasing?_rename _).trans hr, (opening?_rename _).trans ho⟩
  | fresh | clearing | waits | ended => exact ⟨rfl, rfl⟩

theorem drop_plain (hx : h.call? c = some x) (hp : ∀ r, x.progress ≠ .ended r) (hr : Host.releasing? x.progress = none) :
    h.drop c = (h.abandonSlots c).finish c .dropped := by
  rw [Host.drop_eq hx hp, Host.interrupt, hr]
  rfl

theorem crash_plain (hx : h.call? c = some x) (hp : ∀ r, x.progress ≠ .ended r) (hr : Host.releasing? x.progress = none)
    (ho : x.progress.opening? = none) : h.crash c = (h.abandonSlots c).finish c .crashed := by
  have hinterrupt : h.interrupt c x.progress = h.abandonSlots c := by
    rw [Host.interrupt, hr]
    rfl
  rw [Host.Ordered.crash_eq hx hp, hinterrupt]
  obtain ⟨task, p⟩ := x
  cases p with
  | reopening | opening => cases ho
  | discarding | closing => cases hr
  | fresh | acquiring | releasing | releasingSession | clearing | ended => rfl

theorem drop_ended {r : Result} (hx : h.call? c = some x) (hp : x.progress = .ended r) : h.drop c = h := by
  have hprogress : h.progress? c = some (.ended r) := by rw [Host.progress?, hx, ← hp]; rfl
  rw [Host.drop, hprogress]

theorem drop_none (hx : h.call? c = none) : h.drop c = h := by
  have hprogress : h.progress? c = none := by rw [Host.progress?, hx]; rfl
  rw [Host.drop, hprogress]

namespace Mirrors

section Abandon
variable (hm : m.Mirrors h h₀) (ho : h.Ordered none Q) (ht : ∀ c x, h.call? c = some x → x.task.OfRegistry)
  (hp : m.Places h.registry)
include hm ho ht hp

theorem abandonSlots (hx : h.call? c = some x) (hk : m.keeps x.task = true) :
    m.Mirrors (h.abandonSlots c) (h₀.abandonSlots (m.numbers.call c)) := by
  obtain ⟨slots, woken, he, hslots⟩ := Host.abandonSlots_eq h c
  obtain ⟨slots₀, woken₀, he₀, hslots₀⟩ := Host.abandonSlots_eq h₀ (m.numbers.call c)
  rw [he, he₀]
  refine hm.frame rfl rfl rfl rfl rfl rfl (hm.registry.abandon hslots hslots₀ fun i s hi hs w hw hwc => ?_)
  obtain ⟨y, hy⟩ := Option.isSome_iff_exists.1 (ho.known i s hs w hw)
  have hky := keeps_there hp hs (ho.waits _ y (by simp) hy i s hs w hw rfl).asks (ht _ y hy) hi
  exact call_inj (hm.tasks _ y hy) hky (hm.tasks c x hx) hk hwc

theorem gives_up_aside (hx : h.call? c = some x) (hne : ∀ r, x.progress ≠ .ended r) {r : Result}
    (haside : m.keeps x.task = true → ∃ x₀ r₀, h₀.call? (m.numbers.call c) = some x₀ ∧ m.Same x x₀ ∧ x₀.progress = .ended r₀) :
    m.Mirrors ((h.abandonSlots c).finish c r) h₀ := by
  obtain ⟨slots, woken, he, hslots⟩ := Host.abandonSlots_eq h c
  have habsent (i : Nat) (s : Slot) (hi : m.slot? ≠ some i) (hs : h.registry.slots[i]? = some s) (v : Visit)
      (hv : v ∈ s.visits) (hvc : v.call = c) : False := by
    have hw := ho.waits c x (by simp) hx i s hs v hv hvc
    have hstays := stays_of_waits hw (ht c x hx)
    obtain ⟨x₀, r₀, _, hs, hr₀⟩ := haside (keeps_there hp hs hw.asks (ht c x hx) hi)
    cases hs with
    | plain hall =>
      rcases hstays.plain hall with hx' | hx' <;> simp [Call.rename, Progress.rename, hx'] at hr₀
    | fresh | clearing => cases hr₀
    | ended => exact hne _ rfl
    | waits hothers =>
      obtain ⟨_, _, _, hx', hmem⟩ := hstays.clearing rfl
      cases hx'
      exact others_ne_nil hi hmem hothers
  have hslots' : m.Mirrors (h.abandonSlots c) h₀ := by
    rw [he]
    refine hm.frame rfl rfl rfl rfl rfl rfl (hm.registry.aside fun i hi => ?_)
    show slots[i]? = _
    rw [hslots]
    cases hs : h.registry.slots[i]? with
    | none => rfl
    | some s => exact congrArg some (Slot.abandon_of_absent fun v hv hvc => habsent i s hi hs v hv hvc)
  have hx' : (h.abandonSlots c).call? c = some x := by
    rw [he]
    exact hx
  refine hslots'.setProgress_left hx' fun hk => ?_
  obtain ⟨x₀, r₀, hx₀, hs, hr₀⟩ := haside hk
  refine ⟨x₀, hx₀, ?_⟩
  cases hs with
  | plain hall =>
    obtain ⟨task, p⟩ := x
    cases p with
    | ended r => exact absurd rfl (hne r)
    | fresh | acquiring | releasing | releasingSession | clearing | reopening | opening | discarding | closing =>
      cases hr₀
  | fresh | clearing => cases hr₀
  | waits | ended => exact .ended

theorem gives_up (hx : h.call? c = some x) (hk : m.keeps x.task = true)
    (hx₀ : h₀.call? (m.numbers.call c) = some x₀) (hs : m.Same x x₀) {r r₀ : Result}
    (hr : x.task ≠ .shutdownAll → r₀ = r.rename m.numbers) :
    m.Mirrors ((h.abandonSlots c).finish c r) ((h₀.abandonSlots (m.numbers.call c)).finish (m.numbers.call c) r₀) := by
  obtain ⟨slots, woken, he, _⟩ := Host.abandonSlots_eq h c
  obtain ⟨slots₀, woken₀, he₀, _⟩ := Host.abandonSlots_eq h₀ (m.numbers.call c)
  have hx' : (h.abandonSlots c).call? c = some x := by
    rw [he]
    exact hx
  have hx₀' : (h₀.abandonSlots (m.numbers.call c)).call? (m.numbers.call c) = some x₀ := by
    rw [he₀]
    exact hx₀
  refine (hm.abandonSlots ho ht hp hx hk).setProgress hx' hk hx₀' ?_
  cases hs with
  | plain hall =>
    rw [hr hall]
    exact Same.plain (x := { x with progress := .ended r }) hall
  | fresh | clearing | waits | ended => exact .ended

/-- A call of what is left is given up there, whatever becomes of it in the whole. -/
theorem drop_right (hstaged : h.Staged) (hx : h.call? c = some x) (hk : m.keeps x.task = true)
    (hne : ∀ r, x.progress ≠ .ended r) {r : Result} (hr : x.task ≠ .shutdownAll → r = .dropped) :
    m.Mirrors ((h.abandonSlots c).finish c r) (h₀.drop (m.numbers.call c)) := by
  obtain ⟨x₀, hx₀, hs⟩ := hm.calls c x hx hk
  obtain ⟨hreleasing, hopening⟩ := plain_of_reaches (ht c x hx) (hstaged c x hx)
  by_cases hended : ∃ r₀, x₀.progress = .ended r₀
  · obtain ⟨r₀, hr₀⟩ := hended
    rw [drop_ended hx₀ hr₀]
    exact hm.gives_up_aside ho ht hp hx hne fun _ => ⟨x₀, r₀, hx₀, hs, hr₀⟩
  · rw [drop_plain hx₀ (not_exists.1 hended) (hs.plain_back hreleasing hopening).1]
    exact hm.gives_up ho ht hp hx hk hx₀ hs fun hall => by rw [hr hall]; rfl

theorem drop (hstaged : h.Staged) (hx : h.call? c = some x) (hk : m.keeps x.task = true) :
    m.Mirrors (h.drop c) (h₀.drop (m.numbers.call c)) := by
  by_cases hended : ∃ r, x.progress = .ended r
  · obtain ⟨r, hr⟩ := hended
    obtain ⟨x₀, hx₀, hs⟩ := hm.calls c x hx hk
    have hr₀ : ∃ r₀, x₀.progress = .ended r₀ := by
      cases hs with
      | plain => exact ⟨r.rename m.numbers, by rw [Call.rename, hr]; rfl⟩
      | fresh | clearing => cases hr
      | waits | ended => exact ⟨_, rfl⟩
    obtain ⟨r₀, hr₀⟩ := hr₀
    rw [drop_ended hx hr, drop_ended hx₀ hr₀]
    exact hm
  · rw [drop_plain hx (not_exists.1 hended) (plain_of_reaches (ht c x hx) (hstaged c x hx)).1]
    exact hm.drop_right ho ht hp hstaged hx hk (not_exists.1 hended) fun _ => rfl

theorem drop_aside (hstaged : h.Staged) (hx : h.call? c = some x) (hk : m.keeps x.task = false) :
    m.Mirrors (h.drop c) h₀ := by
  by_cases hended : ∃ r, x.progress = .ended r
  · obtain ⟨r, hr⟩ := hended
    rw [drop_ended hx hr]
    exact hm
  · rw [drop_plain hx (not_exists.1 hended) (plain_of_reaches (ht c x hx) (hstaged c x hx)).1]
    exact hm.gives_up_aside ho ht hp hx (not_exists.1 hended) (by simp [hk])

section Crash
variable (hstaged : h.Staged) (hs : h.registry.slots[i]? = some s) {v : Visit} (hv : v ∈ s.visits)
  (hx : h.call? v.call = some x)
include hstaged hs hv hx

omit hm in
private theorem crash_waits : Stays x i ∧ (∀ r, x.progress ≠ .ended r) ∧
    h.crash v.call = (h.abandonSlots v.call).finish v.call .crashed ∧
    (x.task ≠ .shutdownAll → (m.keeps x.task = true ↔ m.slot? ≠ some i)) ∧
    (m.slot? ≠ some i → m.keeps x.task = true) := by
  have hw := ho.waits v.call x (by simp) hx i s hs v hv rfl
  have hstays := stays_of_waits hw (ht _ x hx)
  obtain ⟨hreleasing, hopening⟩ := plain_of_reaches (ht _ x hx) (hstaged _ x hx)
  have hne : ∀ r, x.progress ≠ .ended r := by
    intro r hr
    by_cases hall : x.task = .shutdownAll
    · obtain ⟨_, _, _, hp, _⟩ := hstays.clearing hall
      rw [hp] at hr
      cases hr
    · rcases hstays.plain hall with hp | hp <;> rw [hp] at hr <;> cases hr
  exact ⟨hstays, hne, crash_plain hx hne hreleasing hopening, keeps_of_asks hp hs hw.asks (ht _ x hx),
    keeps_there hp hs hw.asks (ht _ x hx)⟩

theorem crash (hi : m.slot? ≠ some i) : m.Mirrors (h.crash v.call) (h₀.crash (m.numbers.call v.call)) := by
  obtain ⟨hstays, hne, he, _, hkeeps⟩ := crash_waits ho ht hp hstaged hs hv hx
  have hk := hkeeps hi
  obtain ⟨x₀, hx₀, hsame⟩ := hm.calls _ x hx hk
  obtain ⟨hreleasing, hopening⟩ := plain_of_reaches (ht _ x hx) (hstaged _ x hx)
  obtain ⟨hreleasing₀, hopening₀⟩ := hsame.plain_back hreleasing hopening
  have hne₀ : ∀ r, x₀.progress ≠ .ended r := by
    intro r hr
    cases hsame with
    | plain hall => rcases hstays.plain hall with hp | hp <;> simp [Call.rename, Progress.rename, hp] at hr
    | fresh | clearing => cases hr
    | ended => exact hne _ rfl
    | waits hothers =>
      obtain ⟨_, _, _, hx', hmem⟩ := hstays.clearing rfl
      cases hx'
      exact others_ne_nil hi hmem hothers
  rw [he, crash_plain hx₀ hne₀ hreleasing₀ hopening₀]
  exact hm.gives_up ho ht hp hx hk hx₀ hsame fun _ => rfl

/-- The process of the key crashes under a call that clears all slots. -/
theorem crash_right (hi : m.slot? = some i) (hk : m.keeps x.task = true) :
    m.Mirrors (h.crash v.call) (h₀.drop (m.numbers.call v.call)) := by
  obtain ⟨_, hne, he, hkeeps, _⟩ := crash_waits ho ht hp hstaged hs hv hx
  rw [he]
  exact hm.drop_right ho ht hp hstaged hx hk hne fun hall => absurd hi ((hkeeps hall).1 hk)

theorem crash_aside (hk : m.keeps x.task = false) : m.Mirrors (h.crash v.call) h₀ := by
  obtain ⟨_, hne, he, _⟩ := crash_waits ho ht hp hstaged hs hv hx
  rw [he]
  exact hm.gives_up_aside ho ht hp hx hne (by simp [hk])

end Crash

end Abandon

end Mirrors

/-- The slot that an acquire opens is the one taken out just if the key is. -/
theorem opens_iff (hsound : h.registry.Sound) (hvalid : key.isValid = true) {document : Option Path}
    (hp : m.Places (h.acquire c key document).registry) :
    m.slot? = some (h.registry.openSlot key).2 ↔ (key == m.key) = true := by
  obtain ⟨_, _, _, s, hs, hk⟩ := hsound.openSlot key
  have hregistry : (h.acquire c key document).registry = (h.visitToAcquire c key document).1.registry := by
    unfold Host.acquire
    rw [if_neg (by simp [hvalid])]
    split <;> rename_i he <;> rw [he] <;> rfl
  obtain ⟨s', hs', hg, _⟩ := ((Host.Works.refl (t := .shutdownAll) (c := c)
    (h := { h with registry := (h.registry.openSlot key).1 })).visit _ _).slot hs
  have hs' : (h.acquire c key document).registry.slots[(h.registry.openSlot key).2]? = some s' := by
    rw [hregistry]
    exact hs'
  rw [← hp _ s' hs', hg.key]
  exact ⟨fun he => BEq.trans (BEq.symm hk) he, fun he => BEq.trans hk he⟩

namespace Mirrors

section Apply
variable (hm : m.Mirrors h h₀) (ho : h.Ordered none Q) (hsound₀ : h₀.registry.Sound)
  (ht : ∀ c x, h.call? c = some x → x.task.OfRegistry) (hp : m.Places h.registry)
include hm ho hsound₀ ht hp

theorem begin {t : Task} (hx : h.call? c = some ⟨t, .fresh⟩) (hk : m.keeps t = true)
    (hp' : m.Places (h.begin c t).registry) :
    m.Mirrors (h.begin c t) (h₀.begin (m.numbers.call c) (t.rename m.numbers)) := by
  cases t with
  | acquire key document =>
    refine hm.acquire hx ho.sound hsound₀ hk (by simp) (fun hvalid hi => ?_) document
    have hsame := (opens_iff ho.sound hvalid hp').1 hi
    simp [keeps, hsame] at hk
  | release key =>
    have hkey (i : Nat) (hi : h.registry.slotIndex? key = some i) : m.slot? ≠ some i := by
      obtain ⟨s, hs, hsk⟩ := Registry.Sound.slotIndex?_slot hi
      refine mt (hp i s hs).2 fun he => ?_
      simp [keeps, BEq.trans (BEq.symm hsk) he] at hk
    have hindex := hm.registry.slotIndex? ho.sound hsound₀ hkey
    show m.Mirrors (h.beginPlainRelease c (h.registry.slotIndex? key) none)
      (h₀.beginPlainRelease (m.numbers.call c) (h₀.registry.slotIndex? key) none)
    rw [hindex]
    exact hm.beginPlainRelease hx hk (by simp) hkey none fun _ _ _ _ id d hq => by cases hq
  | releaseConnection id =>
    refine hm.beginPlainRelease hx hk (by simp) (n := some id.slot) ?_ (some id) ?_
    · rintro i ⟨⟩
      exact of_decide_eq_true hk
    · rintro i s ⟨⟩ hs
      exact distinguishes ho.sound hs fun id' hq => by cases hq; rfl
  | shutdownAll => exact hm.shutdownAll hx rfl true
  | releaseSession | openEditor | closeEditor | shutdownLifecycle => exact (ht c _ hx).elim

omit hsound₀ ht in
theorem begin_aside {t : Task} (hx : h.call? c = some ⟨t, .fresh⟩) (hk : m.keeps t = false)
    (hp' : m.Places (h.begin c t).registry) : m.Mirrors (h.begin c t) h₀ := by
  cases t with
  | acquire key document =>
    refine hm.acquire_aside hx hk (fun hvalid => ?_) document
    exact (opens_iff ho.sound hvalid hp').2 (by simpa [keeps] using hk)
  | release key =>
    refine hm.beginPlainRelease_aside hx hk (fun i hi => ?_) none
    obtain ⟨s, hs, hsk⟩ := Registry.Sound.slotIndex?_slot hi
    exact (hp i s hs).1 (BEq.trans hsk (by simpa [keeps] using hk))
  | releaseConnection id =>
    refine hm.beginPlainRelease_aside hx hk (n := some id.slot) ?_ (some id)
    rintro i ⟨⟩
    simpa [keeps] using hk
  | shutdownAll | releaseSession | openEditor | closeEditor | shutdownLifecycle => cases hk

end Apply

end Mirrors

end Removal

end LanguageHost
