import LanguageHost.Proofs.Host.Books
import LanguageHost.Proofs.Registry.Growth

/-! The stages of a task, and what a call does to the host, piece by piece, on its way from one stage
to the next. -/
namespace LanguageHost

namespace Task

/-- Tasks that may touch what the lifecycle keeps. -/
def OfEditors : Task → Prop
  | .openEditor _ | .closeEditor _ | .shutdownLifecycle => True
  | _ => False

def MayClose (t : Task) (σ : SessionId) : Prop := t.OfEditors ∨ t = .releaseSession σ

def Opens : Task → Opening → Prop
  | .openEditor e, o => o.editor = e.id ∧ e.resolve = .eligible o.what
  | _, _ => False

/-- The task clears all slots, and does or does not report what it has closed. -/
def Clears : Task → Bool → Prop
  | .shutdownAll, true | .shutdownLifecycle, false => True
  | _, _ => False

def Reaches : Task → Progress → Prop
  | _, .fresh | _, .ended .dropped | _, .ended .crashed => True
  | .acquire _ _, .acquiring | .acquire _ _, .ended (.connection _) | .acquire _ _, .ended (.failed _) => True
  | .release _, .releasing | .release _, .ended .done => True
  | .releaseConnection _, .releasing | .releaseConnection _, .ended .done => True
  | .releaseSession σ, .releasingSession τ => σ = τ
  | .releaseSession _, .ended (.released _) => True
  | t, .clearing _ _ report => t.Clears report
  | .shutdownAll, .ended (.closed _) | .shutdownLifecycle, .ended .done => True
  | t, .reopening o _ | t, .opening o => t.Opens o
  | .openEditor e, .discarding editor _ _ => editor = e.id
  | .openEditor _, .ended .done => True
  | .closeEditor _, .closing _ | .closeEditor _, .ended .done => True
  | _, _ => False

theorem Clears.eq {t : Task} {report : Bool} (h : t.Clears report) :
    (t = .shutdownAll ∧ report = true) ∨ (t = .shutdownLifecycle ∧ report = false) := by
  cases t <;> cases report <;> simp_all [Clears]

theorem Clears.reaches {t : Task} {report : Bool} (h : t.Clears report) {waiting : List Nat}
    {closed : List ConnectionId} : t.Reaches (.clearing waiting closed report) := by
  cases t <;> exact h

namespace Reaches
variable {t : Task}

theorem acquiring (h : t.Reaches .acquiring) : ∃ key document, t = .acquire key document := by
  cases t <;> simp_all [Reaches]

theorem releasing (h : t.Reaches .releasing) : t.Reaches (.ended .done) := by
  cases t <;> simp_all [Reaches]

theorem releasingSession {σ : SessionId} (h : t.Reaches (.releasingSession σ)) {now : Bool} :
    t.Reaches (.ended (.released now)) := by
  cases t <;> simp_all [Reaches]

theorem clearing {waiting : List Nat} {closed : List ConnectionId} {report : Bool}
    (h : t.Reaches (.clearing waiting closed report)) : t.Clears report := by
  cases t <;> exact h

theorem opening {p : Progress} {o : Opening} (h : t.Reaches p) (hp : p.opening? = some o) :
    ∃ e, t = .openEditor e ∧ Opens (.openEditor e) o := by
  cases t <;> cases p <;> simp_all [Reaches, Progress.opening?, Opens]

theorem discarding_open {e : EditorId} {token : Nat} {σ : SessionId} (h : t.Reaches (.discarding e token σ)) :
    ∃ e, t = .openEditor e := by
  cases t <;> simp_all [Reaches]

theorem discarding {e : EditorId} {token : Nat} {σ : SessionId} (h : t.Reaches (.discarding e token σ)) :
    t.Reaches (.ended .done) := by
  cases t <;> simp_all [Reaches]

theorem closing {σ : SessionId} (h : t.Reaches (.closing σ)) : t.Reaches (.ended .done) := by
  cases t <;> simp_all [Reaches]

end Reaches

end Task

namespace Host

theorem progress?_setProgress {h : Host} {c : CallId} {x : Call} (hx : h.call? c = some x) (p : Progress) :
    (h.setProgress c p).progress? c = some p := by
  simp [progress?, hx]

/-- Every attachment is forgotten, and its session counts as closed. -/
def drained (h : Host) : Host :=
  h.attachments.foldl (fun h entry => match entry.2 with
    | .attached s => h.closeSession s
    | .pending _ _ => h) { h with attachments := [] }

theorem shutdownLifecycle_eq (h : Host) (c : CallId) : h.shutdownLifecycle c = h.drained.shutdownAll c false := rfl

theorem Waits.clears {h : Host} {x : Call} {i : Nat} {r : Request} (hw : h.Waits x i r) :
    (∃ waiting closed report, x.progress = .clearing waiting closed report) ∨ ∀ report, ¬x.task.Clears report := by
  cases hw with
  | clearing hp => exact .inl ⟨_, _, _, hp⟩
  | acquiring _ ht | release _ ht | returning _ ht =>
    rw [ht]
    exact .inr fun report hr => by cases report <;> exact hr
  | opening _ ht | session _ ht =>
    refine .inr fun report hr => ?_
    rcases hr.eq with ⟨he, _⟩ | ⟨he, _⟩ <;> rw [he] at ht <;> exact ht

/-- The work of a call on a task. -/
inductive Works (t : Task) (c : CallId) (h : Host) : Host → Prop
  | refl : Works t c h h
  | setSlot {h' : Host} {i : Nat} {s s' : Slot} (hw : Works t c h h') (hs : h'.registry.slots[i]? = some s)
    (hg : s.Grows (Record.call · = c) s') (hp : s.Spares c s') : Works t c h (h'.setSlot i s')
  | openSlot {h' : Host} (hw : Works t c h h') (key : ServerKey) :
    Works t c h { h' with registry := (h'.registry.openSlot key).1 }
  | setProgress {h' : Host} (hw : Works t c h h') {p : Progress} (hp : t.Reaches p) (hne : p ≠ .fresh) :
    Works t c h (h'.setProgress c p)
  | closeSession {h' : Host} (hw : Works t c h h') {σ : SessionId} (hσ : t.MayClose σ) :
    Works t c h (h'.closeSession σ)
  | spawn {h' : Host} (hw : Works t c h h') (task : Task) : Works t c h (h'.spawn task)
  | idle {h' : Host} (hw : Works t c h h') (now : Nat) (woken : List CallId) :
    Works t c h { h' with now := now, woken := woken }
  | addSession {h' : Host} (hw : Works t c h h') (ht : t.OfEditors) (id : ConnectionId) (uri : String) :
    Works t c h (h'.addSession id uri).1
  | keep {h' : Host} (hw : Works t c h h') (ht : t.OfEditors) (attachments : List (EditorId × Attachment))
    {token : Nat} (hn : h'.nextToken ≤ token) :
    Works t c h { h' with attachments := attachments, nextToken := token }

namespace Works
variable {t : Task} {h h' : Host} {c d : CallId}

section Frame
variable (hw : Works t c h h')
include hw

/-- A slot is only ever added to, what is noted in it is about the call, and the others stay. -/
theorem slot {i : Nat} {s : Slot} (hs : h.registry.slots[i]? = some s) :
    ∃ s', h'.registry.slots[i]? = some s' ∧ s.Grows (Record.call · = c) s' ∧ s.Spares c s' := by
  induction hw with
  | refl => exact ⟨s, hs, .refl _ s, .refl s c⟩
  | @setSlot h₁ j t t' _ ht hg hp ih =>
    obtain ⟨s', hs', hgrows, hspares⟩ := ih
    rw [setSlot_registry, Registry.setSlot_get ht]
    split
    · rename_i hj
      subst hj
      obtain rfl := Option.some.inj (ht.symm.trans hs')
      exact ⟨t', rfl, hgrows.trans hg, hspares.trans hp⟩
    · exact ⟨s', hs', hgrows, hspares⟩
  | openSlot _ key ih =>
    obtain ⟨s', hs', hboth⟩ := ih
    refine ⟨s', ?_, hboth⟩
    dsimp only [Registry.openSlot]
    split
    · exact hs'
    · exact (List.getElem?_append_left (List.getElem?_eq_some_iff.1 hs').1).trans hs'
  | setProgress _ _ _ ih | closeSession _ _ ih | idle _ _ _ ih | addSession _ _ _ _ ih | keep _ _ _ _ ih => exact ih
  | spawn _ task ih =>
    rw [spawn_registry]
    exact ih

theorem slot_back {i : Nat} {s' : Slot} (hs : h'.registry.slots[i]? = some s') :
    (∃ s, h.registry.slots[i]? = some s ∧ s.Grows (Record.call · = c) s') ∨
      (h.registry.slots[i]? = none ∧ ∀ r ∈ s'.log, r.call = c) := by
  induction hw generalizing i s' with
  | refl => exact .inl ⟨s', hs, .refl _ s'⟩
  | @setSlot h₁ j t t' _ ht hg _ ih =>
    rcases setSlot_slots ht hs with ⟨rfl, rfl⟩ | ⟨_, hs⟩
    · rcases ih ht with ⟨s, hs₀, hgrows⟩ | ⟨hnone, hlog⟩
      · exact .inl ⟨s, hs₀, hgrows.trans hg⟩
      · obtain ⟨newer, hn, hnewer⟩ := hg.log
        refine .inr ⟨hnone, fun r hr => ?_⟩
        rw [hn, List.mem_append] at hr
        exact hr.elim (hnewer r) (hlog r)
    · exact ih hs
  | @openSlot h₁ _ key ih =>
    dsimp only [Registry.openSlot] at hs
    split at hs
    · exact ih hs
    · rw [List.getElem?_append] at hs
      split at hs
      · exact ih hs
      · rename_i hlen
        rw [List.getElem?_singleton] at hs
        split at hs
        · obtain rfl := Option.some.inj hs
          cases hi : h.registry.slots[i]? with
          | none => exact .inr ⟨rfl, by simp [Slot.new]⟩
          | some s =>
            obtain ⟨s', hs', _⟩ := Works.slot (by assumption) hi
            exact absurd (List.getElem?_eq_some_iff.1 hs').1 hlen
        · cases hs
  | setProgress _ _ _ ih | closeSession _ _ ih | idle _ _ _ ih | addSession _ _ _ _ ih | keep _ _ _ _ ih =>
    exact ih hs
  | spawn _ task ih => exact ih (by rwa [spawn_registry] at hs)

theorem call {x : Call} (hx : h.call? d = some x) :
    ∃ x', h'.call? d = some x' ∧ x'.task = x.task ∧ (d ≠ c → x' = x) := by
  induction hw with
  | refl => exact ⟨x, hx, rfl, fun _ => rfl⟩
  | setSlot _ _ _ _ ih =>
    rw [call?, setSlot_calls]
    exact ih
  | openSlot _ _ ih | closeSession _ _ ih | idle _ _ _ ih | addSession _ _ _ _ ih | keep _ _ _ _ ih => exact ih
  | @setProgress h₁ _ p _ _ ih =>
    obtain ⟨x', hx', htask, hother⟩ := ih
    rw [call?_setProgress]
    split
    · rename_i hd
      exact ⟨{ x' with progress := p }, by rw [hx']; rfl, htask, fun hne => absurd hd hne⟩
    · exact ⟨x', hx', htask, hother⟩
  | @spawn h₁ _ task ih =>
    obtain ⟨x', hx', hrest⟩ := ih
    refine ⟨x', ?_, hrest⟩
    rw [call?_spawn, if_neg]
    · exact hx'
    · exact Nat.ne_of_lt (List.getElem?_eq_some_iff.1 hx').1

theorem calls_length : h.calls.length ≤ h'.calls.length := by
  induction hw with
  | refl => exact Nat.le_refl _
  | setSlot _ _ _ _ ih => simpa using ih
  | openSlot _ _ ih | closeSession _ _ ih | idle _ _ _ ih | addSession _ _ _ _ ih | keep _ _ _ _ ih => exact ih
  | setProgress _ _ _ ih => simpa [Host.setProgress] using ih
  | @spawn h₁ _ task ih =>
    obtain ⟨woken, he⟩ := spawn_eq h₁ task
    rw [he]
    exact Nat.le_trans ih (by simp)

theorem call_back (hc : (h.call? c).isSome) {x' : Call} (hx : h'.call? d = some x') :
    (∃ x, h.call? d = some x) ∨ (h.call? d = none ∧ x'.progress = .fresh) := by
  induction hw generalizing x' with
  | refl => exact .inl ⟨x', hx⟩
  | setSlot _ _ _ _ ih =>
    rw [call?, setSlot_calls] at hx
    exact ih hx
  | openSlot _ _ ih | closeSession _ _ ih | idle _ _ _ ih | addSession _ _ _ _ ih | keep _ _ _ _ ih => exact ih hx
  | setProgress _ _ _ ih =>
    rw [call?_setProgress] at hx
    split at hx
    · rename_i hd
      rw [hd]
      exact .inl (Option.isSome_iff_exists.1 hc)
    · exact ih hx
  | @spawn h₁ hw₁ task ih =>
    rw [call?_spawn] at hx
    split at hx
    · rename_i hd
      obtain rfl := Option.some.inj hx
      refine .inr ⟨List.getElem?_eq_none ?_, rfl⟩
      rw [hd]
      exact hw₁.calls_length
    · exact ih hx

theorem session {σ : SessionId} {y : Session} (hy : h.session? σ = some y) :
    ∃ y', h'.session? σ = some y' ∧ y'.connection = y.connection ∧ (y.closed = true → y'.closed = true) := by
  induction hw with
  | refl => exact ⟨y, hy, rfl, id⟩
  | setSlot _ _ _ _ ih =>
    rw [session?, setSlot_sessions]
    exact ih
  | openSlot _ _ ih | setProgress _ _ _ ih | idle _ _ _ ih | keep _ _ _ _ ih => exact ih
  | spawn _ _ ih =>
    rw [session?, spawn_sessions]
    exact ih
  | @closeSession _ _ τ _ ih =>
    obtain ⟨y', hy', hconnection, hclosed⟩ := ih
    rw [session?] at hy'
    rw [session?, Host.closeSession, List.getElem?_modify, hy']
    by_cases hτ : τ.number = σ.number
    · exact ⟨{ y' with closed := true }, by simp [hτ], hconnection, fun _ => rfl⟩
    · exact ⟨y', by simp [hτ], hconnection, hclosed⟩
  | addSession _ _ id uri ih =>
    obtain ⟨y', hy', hrest⟩ := ih
    exact ⟨y', (List.getElem?_append_left (List.getElem?_eq_some_iff.1 hy').1).trans hy', hrest⟩

/-- A session that counts as closed did before, or is new, or is the task's to close. -/
theorem closed_back {σ : SessionId} {y y' : Session} (hy : h.session? σ = some y) (hy' : h'.session? σ = some y')
    (hclosed : y'.closed = true) : y.closed = true ∨ t.MayClose σ := by
  induction hw generalizing y' with
  | refl =>
    obtain rfl := Option.some.inj (hy.symm.trans hy')
    exact .inl hclosed
  | setSlot _ _ _ _ ih =>
    rw [session?, setSlot_sessions] at hy'
    exact ih hy' hclosed
  | openSlot _ _ ih | setProgress _ _ _ ih | idle _ _ _ ih | keep _ _ _ _ ih => exact ih hy' hclosed
  | spawn _ _ ih =>
    rw [session?, spawn_sessions] at hy'
    exact ih hy' hclosed
  | @closeSession h₁ _ τ hτ ih =>
    rw [session?, Host.closeSession, List.getElem?_modify, Option.map_eq_map, Option.map_eq_some_iff] at hy'
    obtain ⟨z, hz, rfl⟩ := hy'
    by_cases he : τ.number = σ.number
    · obtain ⟨_⟩ := τ
      obtain rfl : _ = σ.number := he
      exact .inr hτ
    · rw [if_neg he] at hclosed
      exact ih hz hclosed
  | @addSession h₁ hw₁ _ id uri ih =>
    obtain ⟨z, hz, _⟩ := hw₁.session hy
    have hz' : (h₁.sessions ++ [⟨id, uri, false⟩])[σ.number]? = some z :=
      (List.getElem?_append_left (List.getElem?_eq_some_iff.1 hz).1).trans hz
    obtain rfl := Option.some.inj (hz'.symm.trans hy')
    exact ih hz hclosed

theorem begun {x x' : Call} (hx : h.call? d = some x) (hp : x.progress ≠ .fresh) (hx' : h'.call? d = some x') :
    x'.progress ≠ .fresh := by
  induction hw generalizing x' with
  | refl =>
    obtain rfl := Option.some.inj (hx.symm.trans hx')
    exact hp
  | setSlot _ _ _ _ ih =>
    rw [call?, setSlot_calls] at hx'
    exact ih hx'
  | openSlot _ _ ih | closeSession _ _ ih | idle _ _ _ ih | addSession _ _ _ _ ih | keep _ _ _ _ ih => exact ih hx'
  | setProgress _ _ hne ih =>
    rw [call?_setProgress] at hx'
    split at hx'
    · obtain ⟨_, _, rfl⟩ := Option.map_eq_some_iff.1 hx'
      exact hne
    · exact ih hx'
  | spawn hw₁ task ih =>
    obtain ⟨y, hy, _⟩ := hw₁.call hx
    rw [call?_spawn, if_neg (Nat.ne_of_lt (List.getElem?_eq_some_iff.1 hy).1)] at hx'
    exact ih hx'

theorem answered {r : Request} {a : Answer} :
    (h.Answered d r a → h'.Answered d r a) ∧ (d ≠ c → h'.Answered d r a → h.Answered d r a) := by
  constructor
  · rintro ⟨i, s, t, hs, ht, hrest⟩
    obtain ⟨s', hs', hg, _⟩ := hw.slot hs
    obtain ⟨newer, hn, _⟩ := hg.log
    refine ⟨i, s', t, hs', Slot.mem_turns.2 ?_, hrest⟩
    rw [hn]
    exact List.mem_append_right _ (Slot.mem_turns.1 ht)
  · rintro hd ⟨i, s', t, hs', ht, htd, hrest⟩
    have hother {r : Record} (hr : r.call = c) : r ≠ .turn t := by
      rintro rfl
      exact hd (htd.symm.trans hr)
    rcases hw.slot_back hs' with ⟨s, hs, hg⟩ | ⟨_, hlog⟩
    · obtain ⟨newer, hn, hnewer⟩ := hg.log
      have ht := Slot.mem_turns.1 ht
      rw [hn, List.mem_append] at ht
      refine ⟨i, s, t, hs, Slot.mem_turns.2 (ht.resolve_left fun hm => ?_), htd, hrest⟩
      exact hother (hnewer _ hm) rfl
    · exact absurd rfl (hother (hlog _ (Slot.mem_turns.1 ht)))

end Frame

/-- A call that is none of the lifecycle's leaves alone what that keeps. -/
theorem aside (hw : Works t c h h') (ht : ¬t.OfEditors) :
    h'.attachments = h.attachments ∧ h'.nextToken = h.nextToken ∧ h'.sessions.length = h.sessions.length := by
  induction hw with
  | refl => exact ⟨rfl, rfl, rfl⟩
  | setSlot _ _ _ _ ih => simpa using ih
  | openSlot _ _ ih | setProgress _ _ _ ih | idle _ _ _ ih => exact ih
  | closeSession _ _ ih => simpa [Host.closeSession] using ih
  | spawn _ _ ih => simpa using ih
  | addSession _ hown | keep _ hown => exact absurd hown ht

section Registry
variable (hw : Works t c h h')
include hw

theorem finish {r : Result} (hr : t.Reaches (.ended r)) : Works t c h (h'.finish c r) := hw.setProgress hr nofun

theorem visit (i : Nat) (r : Request) : Works t c h (h'.visit c i r).1 := by
  cases hs : h'.registry.slots[i]? with
  | none =>
    rw [Host.visit, hs]
    exact hw
  | some s =>
    rw [visit_eq h' hs]
    exact hw.setSlot hs (s.arrive_grows h'.now ⟨c, r⟩) (s.arrive_spares h'.now ⟨c, r⟩)

theorem visitToAcquire (key : ServerKey) (document : Option Path) :
    Works t c h (h'.visitToAcquire c key document).1 := (hw.openSlot key).visit _ _

theorem beginRelease {σ : SessionId} (hσ : t.MayClose σ) : Works t c h (h'.beginRelease c σ).1 := by
  unfold Host.beginRelease
  split
  · exact hw
  · split
    · exact hw
    · exact (hw.closeSession hσ).visit _ _

theorem abandonSlots : Works t c h (h'.abandonSlots c) := by
  unfold Host.abandonSlots
  generalize List.range h'.registry.slots.length = l
  induction l generalizing h' with
  | nil => exact hw
  | cons i l ih =>
    rw [List.foldl_cons]
    split
    · rename_i s hs
      exact ih (hw.setSlot hs (s.abandon_grows c) (s.abandon_spares c))
    · exact ih hw

theorem interrupt (p : Progress) : Works t c h (h'.interrupt c p) := by
  unfold Host.interrupt
  dsimp only
  split
  · exact hw.abandonSlots.spawn _
  · exact hw.abandonSlots

omit hw in
theorem clearSlots (hw : Works t c h h') (l : List Nat) : Works t c h (h'.clearSlots c l).1 := by
  induction l generalizing h' with
  | nil => exact hw
  | cons i rest ih =>
    have hv := hw.visit i .clear
    unfold Host.clearSlots
    cases hout : h'.visit c i .clear with
    | mk h₁ ans =>
      rw [hout] at hv
      cases ans with
      | none => exact ih hv
      | some a =>
        cases a with
        | acquired | refused | released | cleared => exact ih hv

theorem finishClear {report : Bool} (ht : t.Clears report) (closed : List ConnectionId) :
    Works t c h (h'.finishClear c closed report) := by
  unfold Host.finishClear
  rcases ht.eq with ⟨rfl, rfl⟩ | ⟨rfl, rfl⟩
  · exact hw.finish trivial
  · exact hw.finish trivial

theorem shutdownAll {report : Bool} (ht : t.Clears report) : Works t c h (h'.shutdownAll c report) := by
  have hv := hw.clearSlots (List.range h'.registry.slots.length)
  unfold Host.shutdownAll
  split
  · rename_i he
    rw [he] at hv
    exact hv.finishClear ht _
  · rename_i he
    rw [he] at hv
    exact hv.setProgress ht.reaches nofun

theorem beginPlainRelease (hreleasing : t.Reaches .releasing) (hdone : t.Reaches (.ended .done)) (i : Option Nat)
    (expected : Option ConnectionId) : Works t c h (h'.beginPlainRelease c i expected) := by
  unfold Host.beginPlainRelease
  split
  · exact hw.finish hdone
  · rename_i i
    have hv := hw.visit i (.release expected)
    split
    · rename_i he
      rw [he] at hv
      exact hv.finish hdone
    · rename_i he
      rw [he] at hv
      exact hv.setProgress hreleasing nofun

omit hw in
theorem acquire {key : ServerKey} {document : Option Path} (hw : Works (.acquire key document) c h h') :
    Works (.acquire key document) c h (h'.acquire c key document) := by
  unfold Host.acquire
  split
  · exact hw.finish trivial
  · have hv := hw.visitToAcquire key document
    split
    · rename_i he
      rw [he] at hv
      exact hv.finish trivial
    · rename_i he
      rw [he] at hv
      exact hv.finish trivial
    · rename_i he
      rw [he] at hv
      exact hv.setProgress trivial nofun

omit hw in
theorem releaseSession {σ : SessionId} (hw : Works (.releaseSession σ) c h h') :
    Works (.releaseSession σ) c h (h'.releaseSession c σ) := by
  have hr := hw.beginRelease (.inr rfl)
  unfold Host.releaseSession
  split
  · rename_i he
    rw [he] at hr
    exact hr.finish trivial
  · rename_i he
    rw [he] at hr
    exact hr.finish trivial
  · rename_i he
    rw [he] at hr
    exact hr.setProgress rfl nofun

end Registry

section Lifecycle

theorem detach (hw : Works t c h h') (ht : t.OfEditors) (e : EditorId) : Works t c h (h'.detach e) :=
  hw.keep ht _ (Nat.le_refl _)

theorem attach (hw : Works t c h h') (ht : t.OfEditors) (e : EditorId) (a : Attachment) :
    Works t c h (h'.attach e a) := hw.keep ht _ (Nat.le_refl _)

theorem withdraw (hw : Works t c h h') (ht : t.OfEditors) (e : EditorId) (token : Nat) :
    Works t c h (h'.withdraw e token) := by
  unfold Host.withdraw
  split
  · split
    · exact hw.detach ht e
    · exact hw
  · exact hw

theorem discard (hw : Works t c h h') (hdone : t.Reaches (.ended .done)) {σ : SessionId} (hσ : t.MayClose σ)
    {p : Progress} (hp : t.Reaches p) (hne : p ≠ .fresh) :
    Works t c h (match h'.beginRelease c σ with
      | (h, some none) => h.setProgress c p
      | (h, _) => h.finish c .done) := by
  have hr := hw.beginRelease hσ
  split
  · rename_i he
    rw [he] at hr
    exact hr.setProgress hp hne
  · rename_i _ he
    rw [he] at hr
    exact hr.finish hdone

section Open
variable {e : Editor} (hw : Works (.openEditor e) c h h') {o : Opening} (ho : Task.Opens (.openEditor e) o)
include hw ho

theorem completeOpen (id : ConnectionId) : Works (.openEditor e) c h (h'.completeOpen c o id) := by
  have hadd := hw.addSession trivial id o.what.uri
  unfold Host.completeOpen
  dsimp only
  split
  · split
    · split
      · exact (hadd.detach trivial o.editor).discard trivial (.inl trivial) ho.1 nofun
      · exact (hadd.attach trivial o.editor _).finish trivial
    · exact hadd.discard trivial (.inl trivial) ho.1 nofun
  · exact hadd.discard trivial (.inl trivial) ho.1 nofun

theorem answerOpen (a : Answer) : Works (.openEditor e) c h (h'.answerOpen c o a) := by
  cases a with
  | acquired id => exact hw.completeOpen ho id
  | refused | released | cleared => exact (hw.withdraw trivial o.editor o.token).finish trivial

theorem acquireForOpen : Works (.openEditor e) c h (h'.acquireForOpen c o) := by
  unfold Host.acquireForOpen
  split
  · exact (hw.withdraw trivial o.editor o.token).finish trivial
  · have hv := hw.visitToAcquire o.what.key o.what.document
    split
    · rename_i he
      rw [he] at hv
      exact hv.answerOpen ho _
    · rename_i he
      rw [he] at hv
      exact hv.setProgress ho nofun

theorem beginOpen : Works (.openEditor e) c h (h'.beginOpen c o) := by
  have ha := hw.attach trivial o.editor (.pending o.token false)
  unfold Host.beginOpen
  dsimp only
  split
  · rename_i σ _
    have hr := ha.beginRelease (σ := σ) (.inl trivial)
    split
    · rename_i he
      rw [he] at hr
      exact hr.setProgress ho nofun
    · rename_i _ he
      rw [he] at hr
      exact hr.acquireForOpen ho
  · exact ha.acquireForOpen ho

end Open

theorem openEditor {e : Editor} (hw : Works (.openEditor e) c h h') :
    Works (.openEditor e) c h (h'.openEditor c e) := by
  have hk : Works (.openEditor e) c h { h' with nextToken := h'.nextToken + 1 } :=
    hw.keep trivial _ (Nat.le_succ _)
  unfold Host.openEditor
  dsimp only
  split
  · rename_i what hr
    exact hk.beginOpen ⟨rfl, hr⟩
  · exact hk.finish trivial
  · exact hk.finish trivial

theorem closeEditor {e : EditorId} (hw : Works (.closeEditor e) c h h') :
    Works (.closeEditor e) c h (h'.closeEditor c e) := by
  unfold Host.closeEditor
  split
  · exact hw.finish trivial
  · exact (hw.attach trivial e _).finish trivial
  · exact (hw.detach trivial e).discard trivial (.inl trivial) trivial nofun

theorem drained (hw : Works t c h h') (ht : t.OfEditors) : Works t c h h'.drained := by
  have hfold (l : List (EditorId × Attachment)) {h₁ : Host} (hw₁ : Works t c h h₁) :
      Works t c h (l.foldl (fun h entry => match entry.2 with
        | .attached s => h.closeSession s
        | .pending _ _ => h) h₁) := by
    induction l generalizing h₁ with
    | nil => exact hw₁
    | cons entry l ih =>
      rw [List.foldl_cons]
      apply ih
      split
      · exact hw₁.closeSession (.inl ht)
      · exact hw₁
  exact hfold _ (hw.keep ht [] (Nat.le_refl _))

theorem shutdownLifecycle (hw : Works .shutdownLifecycle c h h') :
    Works .shutdownLifecycle c h (h'.shutdownLifecycle c) := (hw.drained trivial).shutdownAll trivial

end Lifecycle

theorem begin (hw : Works t c h h') : Works t c h (h'.begin c t) := by
  cases t with
  | acquire key document => exact hw.acquire
  | release key => exact hw.beginPlainRelease trivial trivial (h'.registry.slotIndex? key) none
  | releaseConnection id => exact hw.beginPlainRelease trivial trivial (some id.slot) (some id)
  | shutdownAll => exact hw.shutdownAll trivial
  | releaseSession σ => exact hw.releaseSession
  | openEditor e => exact hw.openEditor
  | closeEditor e => exact hw.closeEditor
  | shutdownLifecycle => exact hw.shutdownLifecycle

theorem answers (hw : Works t c h h') (ht : ∀ p, h'.progress? c = some p → t.Reaches p) (i : Nat) (a : Answer) :
    Works t c h (h'.answered c i a) := by
  unfold Host.answered
  split
  · rename_i hp
    obtain ⟨key, document, rfl⟩ := (ht _ hp).acquiring
    split
    · exact hw.finish trivial
    · exact hw.finish trivial
    · exact hw
  · rename_i hp
    exact hw.finish (ht _ hp).releasing
  · rename_i hp
    exact hw.finish (ht _ hp).releasingSession
  · rename_i hp
    have hclears := (ht _ hp).clearing
    dsimp only
    split
    · exact hw.finishClear hclears _
    · exact hw.setProgress hclears.reaches nofun
  · rename_i hp
    obtain ⟨e, rfl, ho⟩ := (ht _ hp).opening rfl
    exact hw.acquireForOpen ho
  · rename_i hp
    obtain ⟨e, rfl, ho⟩ := (ht _ hp).opening rfl
    exact hw.answerOpen ho a
  · rename_i hp
    exact hw.finish (ht _ hp).discarding
  · rename_i hp
    exact hw.finish (ht _ hp).closing
  · exact hw

end Works
end Host
end LanguageHost
