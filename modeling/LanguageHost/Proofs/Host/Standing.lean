import LanguageHost.Proofs.Host.Drops
import LanguageHost.Proofs.Registry.References

/-! Where unfinished calls are: a call that has begun stands at every gate that it waits for, and waits for one at
least. -/
namespace LanguageHost

def Request.Fits : Request → Answer → Prop
  | .acquire _ _ _, .acquired _ | .acquire _ _ _, .refused _ | .release _, .released | .clear, .cleared _ => True
  | _, _ => False

namespace Slot
variable {s x : Slot} {v : Visit} {now : Nat} {a : Answer}

/-- Connections carry the number of their slot. -/
def Numbered (s : Slot) : Prop := ∀ c ∈ s.connections, c.id.slot = s.number

/-- A call has gone on at the gate. It is still there, or has an answer that fits; and what it is given is of this
slot. -/
structure Meets (s : Slot) (v : Visit) (r : Slot × Option Answer) : Prop where
  number : r.1.number = s.number
  numbered : r.1.Numbered
  waits : r.2 = none → v ∈ r.1.visits
  fits : ∀ a, r.2 = some a → v.request.Fits a
  given : ∀ id, r.2 = some (.acquired id) → id.slot = s.number

theorem Lives.numbered (h : s.Lives) : s.Numbered := by
  intro c hc
  obtain ⟨j, hj⟩ := List.mem_iff_getElem?.1 hc
  rw [h.valid.id_eq hj]

theorem Numbered.modify (h : s.Numbered) (g : Nat) {f : Connection → Connection} (hf : ∀ c, (f c).id = c.id) :
    (s.modify g f).Numbered := by
  intro c hc
  obtain ⟨j, hj⟩ := List.mem_iff_getElem?.1 hc
  simp only [Slot.modify, List.getElem?_modify, Option.map_eq_map, Option.map_eq_some_iff] at hj
  obtain ⟨d, hd, rfl⟩ := hj
  split
  · rw [hf]
    exact h d (List.mem_of_getElem? hd)
  · exact h d (List.mem_of_getElem? hd)

theorem Numbered.current? (h : s.Numbered) {c : Connection} (hc : s.current? = some c) : c.id.slot = s.number := by
  obtain ⟨g, -, hg⟩ := Option.bind_eq_some_iff.1 hc
  rw [connection?] at hg
  split at hg
  · cases hg
  · exact h c (List.mem_of_getElem? hg)

theorem meets_reply {e : Ending} (hnumber : x.number = s.number) (hx : x.Numbered) (hfits : v.request.Fits a)
    (hgiven : ∀ id, a = .acquired id → id.slot = s.number) : s.Meets v (x.reply v e a) := by
  refine ⟨?_, ?_, nofun, ?_, fun id hid => hgiven id (Option.some.inj hid)⟩
  · rw [reply_fst, leave_number, hnumber]
  · rw [reply_fst, Numbered, leave_connections, leave_number]
    exact hx
  · rintro b hb
    rwa [← Option.some.inj hb]

theorem meets_stop {c : Connection} (hnumber : x.number = s.number) (hx : x.Numbered) (hfits : v.request.Fits a)
    (hgiven : ∀ id, a ≠ .acquired id) : s.Meets v (x.stop now v c a) := by
  have hcurrent : ({ x with current := none } : Slot).Numbered := hx
  unfold stop
  dsimp only
  split
  · exact ⟨hnumber, hcurrent.modify _ fun c => c.ages_beginStop.id, fun _ => List.mem_cons_self, nofun, nofun⟩
  · exact meets_reply hnumber (hcurrent.modify _ fun c => c.beginStop.ages_endStop.id.trans c.ages_beginStop.id)
      hfits fun id hid => absurd hid (hgiven id)

theorem Numbered.serve (h : s.Numbered) (now : Nat) (v : Visit) : s.Meets v (s.serve now v) := by
  have hrefs (g n : Nat) : (s.modify g fun c => { c with refs := n }).Numbered := h.modify g fun _ => rfl
  unfold Slot.serve
  split
  · rename_i key document seen hr
    unfold acquire
    split
    · rename_i c hc
      have hcurrent : s.current? = some c := (Option.filter_eq_some_iff.1 hc).1
      refine meets_reply rfl (h.modify _ fun _ => rfl) (by rw [hr]; trivial) fun id hid => ?_
      rw [← Answer.acquired.inj hid]
      exact h.current? hcurrent
    · split
      · exact meets_reply rfl h (by rw [hr]; trivial) nofun
      · refine ⟨rfl, fun c hc => ?_, fun _ => List.mem_cons_self, nofun, nofun⟩
        rcases List.mem_append.1 hc with hc | hc
        · exact h c hc
        · rw [List.mem_singleton.1 hc]
          rfl
  · rename_i hr
    unfold release
    split
    · exact meets_reply rfl h (by rw [hr]; trivial) nofun
    · split
      · exact meets_reply rfl h (by rw [hr]; trivial) nofun
      · exact meets_stop rfl (hrefs _ _) (by rw [hr]; trivial) nofun
      · exact meets_reply rfl (hrefs _ _) (by rw [hr]; trivial) nofun
  · rename_i hr
    unfold clear
    dsimp only
    split
    · exact meets_reply rfl h (by rw [hr]; trivial) nofun
    · split
      · exact meets_stop rfl (hrefs _ _) (by rw [hr]; trivial) nofun
      · exact meets_reply rfl h (by rw [hr]; trivial) nofun

theorem Numbered.arrive (h : s.Numbered) (now : Nat) (v : Visit) : s.Meets v (s.arrive now v) := by
  unfold Slot.arrive
  split
  · have hnote : (s.note (.came v)).Numbered := h
    obtain ⟨hnumber, hnumbered, hwaits, hfits, hgiven⟩ := hnote.serve now v
    exact ⟨hnumber, hnumbered, hwaits, hfits, hgiven⟩
  · refine ⟨rfl, h, fun _ => ?_, nofun, nofun⟩
    exact List.mem_append_right _ (List.mem_append_right _ (List.mem_singleton_self v))

/-- An answer that was given fits what was asked, and a connection that was given is of the slot. -/
theorem Lives.fits (h : s.Lives) {t : Turn} (ht : t ∈ s.turns) (ha : t.answer = some a) :
    t.request.Fits a ∧ ∀ id, a = .acquired id → id.slot = s.number := by
  refine ⟨?_, fun id hid => ?_⟩
  · obtain ⟨newer, older, hturns⟩ := List.append_of_mem ht
    have hruns := h.counts.runs
    rw [hturns] at hruns
    cases hruns.allows with
    | share hr | launched hr | failed hr | turnedAway hr | kept hr | stopped hr | nothing hr | cleared hr =>
      rw [← Option.some.inj ha, hr]
      trivial
    | launchGivenUp | stopGivenUp | clearGivenUp => cases ha
  · have hgrants : t.grants id = true := by
      rw [Turn.grants, ha, hid]
      exact decide_eq_true rfl
    exact (h.counts.runs.granted_launched (List.countP_pos_iff.2 ⟨t, ht, hgrants⟩)).1

theorem Goes.fits (hg : s.Goes v (x, some a)) (hl : x.Lives) :
    v.request.Fits a ∧ ∀ id, a = .acquired id → id.slot = x.number := by
  obtain ⟨e, hlog⟩ := hg.log
  have hturn : ⟨v, e, some a⟩ ∈ x.turns := by
    rw [mem_turns, hlog]
    exact List.mem_cons_self
  exact hl.fits hturn rfl

theorem Step.keeps {s' : Slot} {c : CallId} (h : s.Valid) (hs : s.Step c s') (hlog : s'.log = s.log)
    (hv : v ∈ s.visits) : v ∈ s'.visits := by
  have hlonger {r : Record} (he : r :: s.log = s.log) : False := List.cons_ne_self r s.log he
  cases hs with
  | @come w ha =>
    rw [(h.come_eq w).2.2.1] at hlog
    exact (hlonger hlog).elim
  | @serve w now r hh hr =>
    have hleaves := hr.leaves
    generalize r = out at hleaves hlog
    cases hleaves with
    | waits hvisits => rwa [hvisits, show w :: s.queue = s.visits by simp [visits, hh]]
    | answered _ hl => exact (hlonger (hl.symm.trans hlog)).elim
  | launched | failed | stopped | dropLaunch | dropStop =>
    rw [leave_log] at hlog
    exact (hlonger hlog).elim
  | dropGranted =>
    rw [handOver_log] at hlog
    exact (hlonger hlog).elim
  | dropQueued => exact (hlonger hlog).elim

end Slot

namespace Registry
variable {r : Registry} {i : Nat} {s : Slot}

/-- Every slot is at the position of its number, which its connections carry. -/
def Numbered (r : Registry) : Prop := ∀ (i : Nat) (s : Slot), r.slots[i]? = some s → s.number = i ∧ s.Numbered

theorem Sound.numbered (h : r.Sound) : r.Numbered := fun i s hs => ⟨h.numbers i s hs, (h.lives i s hs).numbered⟩

namespace Numbered

theorem setSlot (h : r.Numbered) (hs : r.slots[i]? = some s) {s' : Slot} (hnumber : s'.number = s.number)
    (hnumbered : s'.Numbered) : (r.setSlot i s').Numbered := by
  intro j t ht
  rw [setSlot_get hs] at ht
  split at ht
  · rename_i hj
    obtain rfl := Option.some.inj ht
    exact ⟨hnumber.trans ((h i s hs).1.trans hj.symm), hnumbered⟩
  · exact h j t ht

theorem openSlot (h : r.Numbered) (key : ServerKey) : (r.openSlot key).1.Numbered := by
  unfold Registry.openSlot
  split
  · exact h
  · intro j t ht
    rw [List.getElem?_append] at ht
    split at ht
    · exact h j t ht
    · rw [List.getElem?_singleton] at ht
      split at ht
      · obtain rfl := Option.some.inj ht
        exact ⟨by simp only [Slot.new]; omega, nofun⟩
      · cases ht

end Numbered

end Registry

namespace Host
variable {h h' : Host} {c : CallId} {x : Call} {i : Nat} {s : Slot} {r : Request} {id : ConnectionId}
  {ans : Option Answer} {σ : SessionId} {o : Opening} {p : Progress}

def At (h : Host) (c : CallId) (i : Nat) : Prop := ∃ s, h.registry.slots[i]? = some s ∧ ∃ v ∈ s.visits, v.call = c

/-- The call is at every gate that it waits for, and waits for one at least. -/
def Stationed (h : Host) (c : CallId) : Progress → Prop
  | .fresh | .ended _ => True
  | .clearing waiting _ _ => waiting ≠ [] ∧ ∀ i ∈ waiting, h.At c i
  | _ => ∃ i, h.At c i

/-- The slots are numbered, and connections of sessions and those to be given back are of slots that are there. -/
structure Rooted (h : Host) : Prop where
  slots : ∀ (i : Nat) (s : Slot), h.registry.slots[i]? = some s → s.number = i ∧ s.Numbered
  sessions : ∀ σ id, h.connectionOf? σ = some id → id.slot < h.registry.slots.length
  releases : ∀ c x id, h.call? c = some x → x.task = .releaseConnection id → id.slot < h.registry.slots.length

/-- The call has gone as far as it can. -/
structure Landed (h : Host) (c : CallId) : Prop where
  rooted : h.Rooted
  stands : ∀ p, h.progress? c = some p → p ≠ .fresh ∧ h.Stationed c p

structure Called (h' : Host) (c : CallId) (i : Nat) (r : Request) (ans : Option Answer) : Prop where
  rooted : h'.Rooted
  waits : ans = none → h'.At c i
  fits : ∀ a, ans = some a → r.Fits a
  given : ∀ id, ans = some (.acquired id) → id.slot < h'.registry.slots.length

theorem visit_numbered (hn : h.registry.Numbered) (c : CallId) (i : Nat) (r : Request) :
    (h.visit c i r).1.registry.Numbered ∧ ∀ id, (h.visit c i r).2 = some (.acquired id) → id.slot = i := by
  cases hs : h.registry.slots[i]? with
  | none =>
    rw [visit, hs]
    exact ⟨hn, by simp⟩
  | some s =>
    obtain ⟨hnumber, hnumbered⟩ := hn i s hs
    have hmeets := hnumbered.arrive h.now ⟨c, r⟩
    rw [visit_eq h hs, setSlot_registry]
    exact ⟨hn.setSlot hs hmeets.number hmeets.numbered, fun id hid => (hmeets.given id hid).trans hnumber⟩

theorem beginRelease_numbered (hn : h.registry.Numbered) (c : CallId) (σ : SessionId) :
    (h.beginRelease c σ).1.registry.Numbered := by
  unfold Host.beginRelease
  split
  · exact hn
  · split
    · exact hn
    · exact (visit_numbered (h := h.closeSession σ) hn ..).1

namespace Rooted

section Pieces
variable (hr : h.Rooted)
include hr

theorem frame (hslots : h'.registry = h.registry) (hsessions : h'.sessions = h.sessions) (hcalls : h'.calls = h.calls) :
    h'.Rooted := by
  refine ⟨?_, fun σ id hσ => ?_, fun c x id hx => ?_⟩
  · rw [hslots]
    exact hr.slots
  · rw [connectionOf?, session?, hsessions] at hσ
    rw [hslots]
    exact hr.sessions σ id hσ
  · rw [call?, hcalls] at hx
    rw [hslots]
    exact hr.releases c x id hx

theorem setSlot (hs : h.registry.slots[i]? = some s) {s' : Slot} (hnumber : s'.number = s.number)
    (hnumbered : s'.Numbered) : (h.setSlot i s').Rooted := by
  have hlength : (h.setSlot i s').registry.slots.length = h.registry.slots.length := by
    rw [setSlot_registry, Registry.setSlot_eq hs, List.length_set]
  refine ⟨?_, fun σ id hσ => ?_, fun d y id hy => ?_⟩
  · rw [setSlot_registry]
    exact Registry.Numbered.setSlot hr.slots hs hnumber hnumbered
  · rw [connectionOf?, session?, setSlot_sessions] at hσ
    rw [hlength]
    exact hr.sessions σ id hσ
  · rw [call?, setSlot_calls] at hy
    rw [hlength]
    exact hr.releases d y id hy

theorem openSlot (key : ServerKey) : ({ h with registry := (h.registry.openSlot key).1 } : Host).Rooted ∧
    (h.registry.openSlot key).2 < (h.registry.openSlot key).1.slots.length := by
  obtain ⟨s, hs, -⟩ := Registry.Sound.openSlot_get h.registry key
  have hlonger : h.registry.slots.length ≤ (h.registry.openSlot key).1.slots.length := by
    unfold Registry.openSlot
    split
    · exact Nat.le_refl _
    · simp
  refine ⟨⟨Registry.Numbered.openSlot hr.slots key, fun σ id hσ => ?_, fun c x id hx ht => ?_⟩,
    (List.getElem?_eq_some_iff.1 hs).1⟩
  · exact Nat.lt_of_lt_of_le (hr.sessions σ id hσ) hlonger
  · exact Nat.lt_of_lt_of_le (hr.releases c x id hx ht) hlonger

theorem setProgress (c : CallId) (p : Progress) : (h.setProgress c p).Rooted := by
  refine ⟨hr.slots, hr.sessions, fun d y id hy ht => ?_⟩
  rw [call?_setProgress] at hy
  split at hy
  · obtain ⟨z, hz, rfl⟩ := Option.map_eq_some_iff.1 hy
    exact hr.releases d z id hz ht
  · exact hr.releases d y id hy ht

theorem closeSession (σ : SessionId) : (h.closeSession σ).Rooted := by
  refine ⟨hr.slots, fun τ id hτ => ?_, hr.releases⟩
  rw [connectionOf?_closeSession] at hτ
  exact hr.sessions τ id hτ

theorem spawn {task : Task} (ht : ∀ id, task = .releaseConnection id → id.slot < h.registry.slots.length) :
    (h.spawn task).Rooted := by
  refine ⟨?_, fun σ id hσ => ?_, fun d y id hy hid => ?_⟩
  · rw [spawn_registry]
    exact hr.slots
  · rw [connectionOf?, session?, spawn_sessions] at hσ
    rw [spawn_registry]
    exact hr.sessions σ id hσ
  · rw [call?_spawn] at hy
    rw [spawn_registry]
    split at hy
    · obtain rfl := Option.some.inj hy
      exact ht id hid
    · exact hr.releases d y id hy hid

theorem addSession (hid : id.slot < h.registry.slots.length) (uri : String) : (h.addSession id uri).1.Rooted := by
  refine ⟨hr.slots, fun σ d hσ => ?_, hr.releases⟩
  obtain ⟨y, hy, rfl⟩ := Option.map_eq_some_iff.1 hσ
  rw [session?, Host.addSession, List.getElem?_append] at hy
  split at hy
  · exact hr.sessions σ _ (by rw [connectionOf?, session?, hy]; rfl)
  · rw [List.getElem?_singleton] at hy
    split at hy
    · obtain rfl := Option.some.inj hy
      exact hid
    · cases hy

theorem land (hne : p ≠ .fresh) (hp : h.Stationed c p) : (h.setProgress c p).Landed c := by
  refine ⟨hr.setProgress c p, fun q hq => ?_⟩
  obtain ⟨y, hy, rfl⟩ := Option.map_eq_some_iff.1 hq
  rw [call?_setProgress, if_pos rfl] at hy
  obtain ⟨z, -, rfl⟩ := Option.map_eq_some_iff.1 hy
  exact ⟨hne, hp⟩

theorem finish (c : CallId) (result : Result) : (h.finish c result).Landed c := hr.land (by simp) trivial

theorem visit (hi : i < h.registry.slots.length) (hv : h.visit c i r = (h', ans)) : h'.Called c i r ans := by
  have hs : h.registry.slots[i]? = some h.registry.slots[i] := List.getElem?_eq_getElem hi
  obtain ⟨hnumber, hnumbered⟩ := hr.slots i _ hs
  have hmeets := hnumbered.arrive h.now ⟨c, r⟩
  rw [visit_eq h hs] at hv
  obtain ⟨rfl, rfl⟩ := Prod.mk.inj hv
  have hslot := setSlot_slot hs ((h.registry.slots[i]).arrive h.now ⟨c, r⟩).1
  refine ⟨hr.setSlot hs hmeets.number hmeets.numbered, fun hnone => ?_, hmeets.fits, fun id hid => ?_⟩
  · exact ⟨_, hslot, ⟨c, r⟩, hmeets.waits hnone, rfl⟩
  · rw [hmeets.given id hid, hnumber]
    exact (List.getElem?_eq_some_iff.1 hslot).1

theorem visitToAcquire {key : ServerKey} {document : Option Path}
    (hv : h.visitToAcquire c key document = (h', ans)) :
    ∃ i seen, h'.Called c i (.acquire key document seen) ans := by
  obtain ⟨hopen, hi⟩ := hr.openSlot key
  exact ⟨_, _, hopen.visit hi hv⟩

/-- A session goes back: it is done with, or the call stands at the gate of the connection. -/
theorem beginRelease {out : Option (Option Answer)} (hv : h.beginRelease c σ = (h', out)) :
    h'.Rooted ∧ (out = some none → ∃ i, h'.At c i) := by
  unfold Host.beginRelease at hv
  split at hv
  · obtain ⟨rfl, rfl⟩ := Prod.mk.inj hv
    exact ⟨hr, nofun⟩
  · rename_i session hsession
    split at hv
    · obtain ⟨rfl, rfl⟩ := Prod.mk.inj hv
      exact ⟨hr, nofun⟩
    · have hi := hr.sessions σ session.connection (by rw [connectionOf?, hsession]; rfl)
      cases hvisit : (h.closeSession σ).visit c session.connection.slot (.release (some session.connection)) with
      | mk h₁ ans =>
        rw [hvisit] at hv
        obtain ⟨rfl, rfl⟩ := Prod.mk.inj hv
        have hcalled := (hr.closeSession σ).visit hi hvisit
        exact ⟨hcalled.rooted, fun hnone => ⟨_, hcalled.waits (Option.some.inj hnone)⟩⟩

theorem discard (hne : p ≠ .fresh) (hp : ∀ i, ∀ h' : Host, h'.At c i → h'.Stationed c p) :
    (match h.beginRelease c σ with
      | (h, some none) => h.setProgress c p
      | (h, _) => h.finish c .done).Landed c := by
  cases hv : h.beginRelease c σ with
  | mk h₁ out =>
    obtain ⟨hroot, hat⟩ := hr.beginRelease hv
    cases out with
    | none => exact hroot.finish c _
    | some ans =>
      cases ans with
      | none =>
        obtain ⟨i, hi⟩ := hat rfl
        exact hroot.land hne (hp i h₁ hi)
      | some a => exact hroot.finish c _

theorem withdraw (e : EditorId) (token : Nat) : (h.withdraw e token).Rooted :=
  hr.frame (withdraw_registry ..) (withdraw_sessions ..) (withdraw_calls ..)

end Pieces

section Calls

theorem completeOpen (hr : h.Rooted) (hid : id.slot < h.registry.slots.length) : (h.completeOpen c o id).Landed c := by
  have hadd := hr.addSession hid o.what.uri
  unfold Host.completeOpen
  dsimp only
  split
  · split
    · split
      · exact Rooted.discard (hadd.frame rfl rfl rfl) nofun fun i h₁ hi => ⟨i, hi⟩
      · have hattach (a : Attachment) : ((h.addSession id o.what.uri).1.attach o.editor a).Rooted :=
          hadd.frame rfl rfl rfl
        exact (hattach _).finish c _
    · exact hadd.discard nofun fun i h₁ hi => ⟨i, hi⟩
  · exact hadd.discard nofun fun i h₁ hi => ⟨i, hi⟩

theorem answerOpen (hr : h.Rooted) {a : Answer} (ha : ∀ id, a = .acquired id → id.slot < h.registry.slots.length) :
    (h.answerOpen c o a).Landed c := by
  cases a with
  | acquired id => exact hr.completeOpen (ha id rfl)
  | refused | released | cleared => exact (hr.withdraw o.editor o.token).finish c _

theorem acquireForOpen (hr : h.Rooted) : (h.acquireForOpen c o).Landed c := by
  unfold Host.acquireForOpen
  split
  · exact (hr.withdraw o.editor o.token).finish c _
  · cases hv : h.visitToAcquire c o.what.key o.what.document with
    | mk h₁ ans =>
      obtain ⟨i, seen, hcalled⟩ := hr.visitToAcquire hv
      cases ans with
      | none => exact hcalled.rooted.land nofun ⟨i, hcalled.waits rfl⟩
      | some a => exact hcalled.rooted.answerOpen fun id hid => hcalled.given id (congrArg some hid)

theorem beginOpen (hr : h.Rooted) : (h.beginOpen c o).Landed c := by
  have hattach : (h.attach o.editor (.pending o.token false)).Rooted := hr.frame rfl rfl rfl
  unfold Host.beginOpen
  dsimp only
  split
  · rename_i σ _
    cases hv : (h.attach o.editor (.pending o.token false)).beginRelease c σ with
    | mk h₁ out =>
      obtain ⟨hroot, hat⟩ := hattach.beginRelease hv
      cases out with
      | none => exact hroot.acquireForOpen
      | some ans =>
        cases ans with
        | none => exact hroot.land nofun (hat rfl)
        | some a => exact hroot.acquireForOpen
  · exact hattach.acquireForOpen

theorem openEditor (hr : h.Rooted) (e : Editor) : (h.openEditor c e).Landed c := by
  have htoken : ({ h with nextToken := h.nextToken + 1 } : Host).Rooted := hr.frame rfl rfl rfl
  unfold Host.openEditor
  dsimp only
  split
  · exact htoken.beginOpen
  · exact htoken.finish c _
  · exact htoken.finish c _

theorem closeEditor (hr : h.Rooted) (e : EditorId) : (h.closeEditor c e).Landed c := by
  have hframe (entries : List (EditorId × Attachment)) : ({ h with attachments := entries } : Host).Rooted :=
    hr.frame rfl rfl rfl
  unfold Host.closeEditor
  split
  · exact hr.finish c _
  · exact Rooted.finish (hframe _) c _
  · exact Rooted.discard (hframe _) nofun fun i h₁ hi => ⟨i, hi⟩

theorem releaseSession (hr : h.Rooted) (σ : SessionId) : (h.releaseSession c σ).Landed c := by
  unfold Host.releaseSession
  cases hv : h.beginRelease c σ with
  | mk h₁ out =>
    obtain ⟨hroot, hat⟩ := hr.beginRelease hv
    cases out with
    | none => exact hroot.finish c _
    | some ans =>
      cases ans with
      | none => exact hroot.land nofun (hat rfl)
      | some a => exact hroot.finish c _

theorem clearSlots (hr : h.Rooted) {l : List Nat} (hl : l.Nodup) (hlt : ∀ i ∈ l, i < h.registry.slots.length)
    {waiting : List Nat} {closed : List ConnectionId} (hv : h.clearSlots c l = (h', waiting, closed)) :
    h'.Rooted ∧ ∀ i ∈ waiting, h'.At c i := by
  induction l generalizing h h' waiting closed with
  | nil =>
    obtain ⟨rfl, hw⟩ := Prod.mk.inj hv
    obtain ⟨rfl, -⟩ := Prod.mk.inj hw
    exact ⟨hr, List.forall_mem_nil _⟩
  | cons i rest ih =>
    obtain ⟨hi, hrest⟩ := List.nodup_cons.1 hl
    obtain ⟨hilt, hlt⟩ := List.forall_mem_cons.1 hlt
    cases hvisit : h.visit c i .clear with
    | mk h₁ ans =>
      have hcalled := hr.visit hilt hvisit
      have hlt₁ : ∀ j ∈ rest, j < h₁.registry.slots.length := by
        intro j hj
        have hslot := visit_slots h c i .clear j
        rw [hvisit, List.getElem?_eq_getElem (hlt j hj)] at hslot
        exact (List.getElem?_eq_some_iff.1 hslot).1
      cases hmore : h₁.clearSlots c rest with
      | mk h₂ out =>
        obtain ⟨waiting₁, closed₁⟩ := out
        obtain ⟨hroot, hat⟩ := ih hcalled.rooted hrest hlt₁ hmore
        rw [Host.clearSlots, hvisit] at hv
        cases ans with
        | none =>
          simp only [hmore] at hv
          obtain ⟨rfl, hw⟩ := Prod.mk.inj hv
          obtain ⟨rfl, -⟩ := Prod.mk.inj hw
          refine ⟨hroot, List.forall_mem_cons.2 ⟨?_, hat⟩⟩
          -- The visits to the other slots leave this one as it is.
          obtain ⟨s, hs, hv⟩ := hcalled.waits rfl
          have hslot := clearSlots_slots h₁ c rest hrest i
          rw [hmore, hs] at hslot
          exact ⟨s, by simpa [hi] using hslot, hv⟩
        | some a =>
          have hfits := hcalled.fits a rfl
          cases a with
          | cleared id =>
            simp only [hmore] at hv
            obtain ⟨rfl, hw⟩ := Prod.mk.inj hv
            obtain ⟨rfl, -⟩ := Prod.mk.inj hw
            exact ⟨hroot, hat⟩
          | acquired | refused | released => exact hfits.elim

theorem shutdownAll (hr : h.Rooted) (report : Bool) : (h.shutdownAll c report).Landed c := by
  unfold Host.shutdownAll
  cases hv : h.clearSlots c (List.range h.registry.slots.length) with
  | mk h₁ rest =>
    obtain ⟨waiting, closed⟩ := rest
    obtain ⟨hroot, hat⟩ := hr.clearSlots List.nodup_range (fun i hi => List.mem_range.1 hi) hv
    cases waiting with
    | nil => exact hroot.finish c _
    | cons i waiting => exact hroot.land nofun ⟨List.cons_ne_nil i waiting, hat⟩

theorem drained (hr : h.Rooted) : h.drained.Rooted := by
  refine List.foldlRecOn h.attachments _ (hr.frame rfl rfl rfl) fun h₁ hr₁ entry _ => ?_
  split
  · exact hr₁.closeSession _
  · exact hr₁

theorem beginPlainRelease (hr : h.Rooted) {i : Option Nat} (hi : ∀ j, i = some j → j < h.registry.slots.length)
    (expected : Option ConnectionId) : (h.beginPlainRelease c i expected).Landed c := by
  unfold Host.beginPlainRelease
  split
  · exact hr.finish c _
  · rename_i i
    cases hv : h.visit c i (.release expected) with
    | mk h₁ ans =>
      have hcalled := hr.visit (hi i rfl) hv
      cases ans with
      | none => exact hcalled.rooted.land nofun ⟨i, hcalled.waits rfl⟩
      | some a => exact hcalled.rooted.finish c _

theorem acquire (hr : h.Rooted) (key : ServerKey) (document : Option Path) : (h.acquire c key document).Landed c := by
  unfold Host.acquire
  split
  · exact hr.finish c _
  · cases hv : h.visitToAcquire c key document with
    | mk h₁ ans =>
      obtain ⟨i, seen, hcalled⟩ := hr.visitToAcquire hv
      cases ans with
      | none => exact hcalled.rooted.land nofun ⟨i, hcalled.waits rfl⟩
      | some a =>
        have hfits := hcalled.fits a rfl
        cases a with
        | acquired | refused => exact hcalled.rooted.finish c _
        | released | cleared => exact hfits.elim

theorem begin (hr : h.Rooted) {task : Task} (hx : h.call? c = some ⟨task, .fresh⟩) : (h.begin c task).Landed c := by
  cases task with
  | acquire key document => exact hr.acquire key document
  | release key =>
    refine hr.beginPlainRelease (fun j hj => ?_) none
    obtain ⟨s, hs, -⟩ := Registry.Sound.slotIndex?_slot hj
    exact (List.getElem?_eq_some_iff.1 hs).1
  | releaseConnection id =>
    show (h.beginPlainRelease c (some id.slot) (some id)).Landed c
    refine hr.beginPlainRelease (fun j hj => ?_) (some id)
    rw [← Option.some.inj hj]
    exact hr.releases c _ id hx rfl
  | shutdownAll => exact hr.shutdownAll true
  | releaseSession σ => exact hr.releaseSession σ
  | openEditor e => exact hr.openEditor e
  | closeEditor e => exact hr.closeEditor e
  | shutdownLifecycle => exact hr.drained.shutdownAll false

end Calls

/-- A call leaves every slot, and perhaps another one is made to give its session back. -/
theorem interrupt (hr : h.Rooted) (hsound : h.registry.Sound) (c : CallId) (p : Progress) :
    (h.interrupt c p).Rooted := by
  obtain ⟨slots, woken, he, hslots⟩ := abandonSlots_eq h c
  have hthere {n : Nat} (hn : n < h.registry.slots.length) : n < slots.length := by
    have hslot := hslots n
    rw [List.getElem?_eq_getElem hn] at hslot
    exact (List.getElem?_eq_some_iff.1 hslot).1
  have habandon : (h.abandonSlots c).Rooted := by
    rw [he]
    refine ⟨fun i s hs => ?_, fun σ id hσ => ?_, fun d y id hy ht => ?_⟩
    · rw [show _ = _ from hslots i, Option.map_eq_some_iff] at hs
      obtain ⟨t, ht, rfl⟩ := hs
      have hchange := (hsound.lives i t ht).abandon c
      exact ⟨hchange.number.trans (hr.slots i t ht).1, hchange.lives.numbered⟩
    · exact hthere (hr.sessions σ id hσ)
    · exact hthere (hr.releases d y id hy ht)
  unfold Host.interrupt
  dsimp only
  split
  · rename_i session hsession
    refine habandon.spawn fun id hid => ?_
    obtain ⟨σ, -, hσ⟩ := Option.bind_eq_some_iff.1 hsession
    rw [← Task.releaseConnection.inj hid]
    exact habandon.sessions σ _ (by rw [connectionOf?, hσ]; rfl)
  · exact habandon

theorem answered (hr : h.Rooted) (hx : h.call? c = some x) (hw : h.Waits x i r) {a : Answer} (hfits : r.Fits a)
    (hgiven : ∀ id, a = .acquired id → id.slot < h.registry.slots.length)
    (hothers : ∀ waiting closed report, x.progress = .clearing waiting closed report →
      ∀ j ∈ waiting, j ≠ i → h.At c j) :
    (h.answered c i a).Landed c := by
  have hprogress : h.progress? c = some x.progress := by rw [progress?, hx]; rfl
  unfold Host.answered
  rw [hprogress]
  cases hw with
  | acquiring hp =>
    rw [hp]
    cases a with
    | acquired | refused => exact hr.finish c _
    | released | cleared => exact hfits.elim
  | opening hp =>
    rw [hp]
    exact hr.answerOpen hgiven
  | release hp | returning hp =>
    rw [hp]
    exact hr.finish c _
  | session hp =>
    cases hprog : x.progress with
    | reopening => exact hr.acquireForOpen
    | releasingSession | discarding | closing => exact hr.finish c _
    | fresh | acquiring | releasing | clearing | opening | ended => simp [hprog, releasing?] at hp
  | @clearing waiting closed report hp =>
    rw [hp]
    dsimp only
    split
    · exact hr.finish c _
    · rename_i hmore
      refine hr.land (by simp) ⟨hmore, fun j hj => ?_⟩
      obtain ⟨hj, hne⟩ := List.mem_filter.1 hj
      exact hothers waiting closed report hp j hj (of_decide_eq_true hne)

end Rooted

def AllStationed (h : Host) : Prop := ∀ c x, h.call? c = some x → h.Stationed c x.progress

theorem Stationed.mono (hp : h.Stationed c p) (hat : ∀ i, h.At c i → h'.At c i) : h'.Stationed c p := by
  cases p with
  | fresh | ended => trivial
  | clearing => exact ⟨hp.1, fun i hi => hat i (hp.2 i hi)⟩
  | acquiring | releasing | releasingSession | reopening | opening | discarding | closing =>
    obtain ⟨i, hi⟩ := hp
    exact ⟨i, hat i hi⟩

theorem Ordered.rooted {Q : Nat → Request → Prop} {air : Option CallId} (ho : h.Ordered air Q)
    (hsessions : ∀ σ id, h.connectionOf? σ = some id → id.slot < h.registry.slots.length)
    (hreleases : ∀ c x id, h.call? c = some x → x.task = .releaseConnection id → id.slot < h.registry.slots.length) :
    h.Rooted :=
  ⟨ho.sound.numbered, hsessions, hreleases⟩

section Event
variable {actor : Option CallId} {task : Option Task} {Q : Nat → Request → Prop}

theorem Happens.stationed (hh : h.Happens (some c) task h') (ho : h.Ordered none Q) (hr : h.Rooted)
    (ha : h.AllStationed) : h'.Rooted ∧ ∀ p, h'.progress? c = some p → h'.Stationed c p := by
  have hlanded {h₁ : Host} (hl : h₁.Landed c) : h₁.Rooted ∧ ∀ p, h₁.progress? c = some p → h₁.Stationed c p :=
    ⟨hl.rooted, fun p hp => (hl.stands p hp).2⟩
  cases hh with
  | calm now woken =>
    refine ⟨hr.frame rfl rfl rfl, fun p hp => ?_⟩
    obtain ⟨y, hy, rfl⟩ := Option.map_eq_some_iff.1 hp
    exact (ha c y hy).mono fun _ hat => hat
  | begins hx => exact hlanded (hr.begin hx)
  | @waits i s v stage s' x hs hl hh hg hm hx hw =>
    have hchange := hl.change_of_step hm
    refine ⟨hr.setSlot hs hchange.number hchange.lives.numbered, fun p hp => ?_⟩
    rw [progress?, call?, setSlot_calls] at hp
    obtain ⟨y, hy, rfl⟩ := Option.map_eq_some_iff.1 hp
    refine (ha _ y hy).mono fun j hat => ?_
    obtain ⟨t, ht, w, hw, hc⟩ := hat
    by_cases hj : j = i
    · subst hj
      obtain rfl := Option.some.inj (hs.symm.trans ht)
      refine ⟨s', setSlot_slot hs s', w, ?_, hc⟩
      obtain ⟨e, hlog⟩ := hg.log
      rcases hm with rfl | hm
      · exact hw
      · exact hm.keeps hl.valid hlog hw
    · exact ⟨t, by rw [setSlot_registry, Registry.setSlot_get hs, if_neg hj]; exact ht, w, hw, hc⟩
  | @answered i s v stage s' a x hs hl hh hg hm hx hw =>
    have hchange := hl.change_of_step hm
    have hr₁ := hr.setSlot hs hchange.number hchange.lives.numbered
    obtain ⟨hfits, hgiven⟩ := hg.fits hchange.lives
    have hslot := setSlot_slot hs s'
    have hw₁ : (h.setSlot i s').Waits x i v.request := by
      refine hw.keeps (keeps_evolves (c := v.call) ?_ fun σ id hσ => ?_)
      · rw [setSlot_registry]
        exact .setSlot ho.sound hs hchange
      · rw [connectionOf?, session?, setSlot_sessions]
        exact hσ
    refine hlanded (hr₁.answered (by rw [call?, setSlot_calls]; exact hx) hw₁ hfits (fun id hid => ?_) ?_)
    · rw [hgiven id hid, hchange.number, ho.sound.numbers i s hs]
      exact (List.getElem?_eq_some_iff.1 hslot).1
    · intro waiting closed report hp j hj hne
      have hstands := ha _ x hx
      rw [hp] at hstands
      obtain ⟨t, ht, hat⟩ := hstands.2 j hj
      exact ⟨t, by rw [setSlot_registry, Registry.setSlot_get hs, if_neg hne]; exact ht, hat⟩
  | dropped hx hp => exact hlanded ((hr.interrupt ho.sound _ _).finish c _)
  | crashed hx hp =>
    obtain ⟨h₁, result, he, -, hregistry, hcalls, hsessions⟩ := crash_lands hx hp
    rw [he]
    exact hlanded (((hr.interrupt ho.sound _ _).frame hregistry hsessions hcalls).finish c result)

/-- Calls stand where they wait, whatever happens. -/
theorem Happens.allStationed (hh : h.Happens actor task h') (ho : h.Ordered none Q) (hs : h.Staged) (hr : h.Rooted)
    (ha : h.AllStationed) : h'.AllStationed := by
  intro c x' hx'
  rcases hh.call_back hs hx' with ⟨x, hx, -, hother⟩ | ⟨-, hfresh⟩
  · by_cases hc : actor = some c
    · subst hc
      exact (hh.stationed ho hr ha).2 _ (by rw [progress?, hx']; rfl)
    · rw [hother hc]
      refine (ha c x hx).mono fun i hat => ?_
      obtain ⟨s, hslot, v, hv, hvc⟩ := hat
      obtain ⟨s', d, hslot', hd, -, hspares⟩ := hh.spares hs (by rw [hx]; rfl) hc hslot
      exact ⟨s', hslot', v, (hspares.visits v (hvc ▸ hd.symm)).2 hv, hvc⟩
  · rw [hfresh]
    trivial

end Event

end Host
end LanguageHost
