import LanguageHost.Proofs.Host.Attaching
import LanguageHost.Proofs.Host.Returns

/-! Editor events converge to the last one, however opens, closes and shutdowns overlap. -/
namespace LanguageHost.Host
variable {h h' : Host} {g : Doings} {c d : CallId} {x : Call} {e : EditorId} {σ τ : SessionId} {id : ConnectionId}
  {air : Option CallId} {loose : Option SessionId} {o : Opening} {p : Progress} {r : Result} {t : Task}
  {actor : Option CallId} {task : Option Task} {Q : Nat → Request → Prop}

section Events

theorem Ordered.acquired_there (ho : h.Ordered none Q) (ha : h.Acquired c id) : (h.call? c).isSome := by
  obtain ⟨_, _, _, i, s, t, hs, ht, rfl, _⟩ := ha
  obtain ⟨x, hx, _⟩ := ho.asked i s hs t ht
  rw [hx]
  rfl

theorem Follows.spawn (hf : h.Follows air loose g) (hthere : ∀ d id, h.Acquired d id → (h.call? d).isSome) (t : Task) :
    (h.spawn t).Follows air loose g := by
  have hsessions : (h.spawn t).sessions = h.sessions := spawn_sessions ..
  have hcall (d : CallId) (x : Call) (hx : h.call? d = some x) : (h.spawn t).call? d = some x := by
    rw [call?_spawn, if_neg (Nat.ne_of_lt (List.getElem?_eq_some_iff.1 hx).1), hx]
  refine hf.frame (spawn_attachments ..) (Nat.le_of_eq (spawn_nextToken ..).symm)
    (fun d x hx => ⟨x, hcall d x hx, rfl⟩) (fun d x' _ hx' => ?_) (fun _ _ => connectionOf?_congr hsessions _)
    (fun _ => (closed_congr hsessions _).2) (fun _ _ _ hcl => .inl ((closed_congr hsessions _).1 hcl))
    fun d _ id => acquired_congr (spawn_registry ..)
  rw [call?_spawn] at hx'
  split at hx'
  · rename_i hd
    obtain rfl := Option.some.inj hx'
    have hnone : h.call? d = none := List.getElem?_eq_none (Nat.le_of_eq hd.symm)
    refine .inr ⟨rfl, hnone, fun id ha => ?_⟩
    have hd' := hthere d id ha
    rw [hnone] at hd'
    cases hd'
  · exact .inl hx'

theorem Follows.interrupt (hf : h.Follows none none g) (ho : h.Ordered none Q) (c : CallId) (p : Progress) :
    (h.interrupt c p).Follows (some c) none g ∧ ∀ d id, (h.interrupt c p).Acquired d id ↔ h.Acquired d id := by
  have hp := h.abandonSlots_passes c none
  obtain ⟨slots, woken, he, _⟩ := abandonSlots_eq h c
  have hsessions : (h.abandonSlots c).sessions = h.sessions := by rw [he]
  have hleft := (hf.takeOff c).passes hp nofun fun e σ _ hcl => .inl ((closed_congr hsessions σ).1 hcl)
  have hacq (d : CallId) (id : ConnectionId) := hp.acquired d id nofun
  have hthere (d : CallId) (id : ConnectionId) (ha : (h.abandonSlots c).Acquired d id) :
      ((h.abandonSlots c).call? d).isSome := by
    rw [hp.call?]
    exact ho.acquired_there ((hacq d id).1 ha)
  unfold Host.interrupt
  dsimp only
  split
  · exact ⟨hleft.spawn hthere _, fun d id => (acquired_congr (spawn_registry ..)).trans (hacq d id)⟩
  · exact ⟨hleft, hacq⟩

theorem Works.acquired (hw : Works t c h h') (hd : d ≠ c) : h'.Acquired d id ↔ h.Acquired d id := by
  constructor
  · rintro ⟨key, document, seen, ha⟩
    exact ⟨key, document, seen, hw.answered.2 hd ha⟩
  · rintro ⟨key, document, seen, ha⟩
    exact ⟨key, document, seen, hw.answered.1 ha⟩

theorem stands_aside {last : EditorId → Option CallId} (hreach : x.task.Reaches x.progress)
    (hno : ¬x.task.OfEditors) (hlast : ∀ e, last e ≠ some c) : h.Stands last c x := by
  refine ⟨fun o ho => ?_, fun e token σ hp => ?_, ?_, fun e id hl => absurd hl (hlast e)⟩
  · obtain ⟨editor, ht, _⟩ := hreach.opening ho
    rw [ht] at hno
    exact absurd trivial hno
  · rw [hp] at hreach
    obtain ⟨editor, ht⟩ := hreach.discarding_open
    rw [ht] at hno
    exact absurd trivial hno
  · rintro ⟨editor, ht⟩
    rw [ht] at hno
    exact absurd trivial hno

theorem Follows.aside (hf : h.Follows none none g) (ho : h.Ordered none Q) (hs : h.Staged) (hw : Works t c h h')
    (hx : h.call? c = some x) (ht : x.task = t) (hno : ¬t.OfEditors) : h.Lands c g h' := by
  obtain ⟨hattachments, htoken, hlength⟩ := hw.aside hno
  have hopened (e : EditorId) : ¬h.Opened c e := by
    rintro ⟨y, editor, hy, hty, _⟩
    obtain rfl := Option.some.inj (hx.symm.trans hy)
    rw [← ht, hty] at hno
    exact hno trivial
  have hframe : h'.Follows (some c) none g := by
    refine (hf.takeOff c).frame hattachments (Nat.le_of_eq htoken.symm) (fun d y hy => ?_) (fun d y' hd hy' => ?_)
      (fun σ => hw.connectionOf?_eq) (fun σ => hw.closed) (fun e σ ha hcl => ?_) fun d hd id => ?_
    · obtain ⟨y', hy', hty, _⟩ := hw.call hy
      exact ⟨y', hy', hty⟩
    · rcases hw.call_back (by rw [hx]; rfl) hy' with ⟨y, hy⟩ | ⟨hnone, hp⟩
      · obtain ⟨z, hz, _, hsame⟩ := hw.call hy
        rw [Option.some.inj (hy'.symm.trans hz), hsame fun he => hd (congrArg some he)]
        exact .inl hy
      · refine .inr ⟨hp, hnone, fun id ha => ?_⟩
        have hthere := ho.acquired_there ha
        rw [hnone] at hthere
        cases hthere
    · obtain ⟨d, _, hm⟩ := hf.attached e σ ha
      obtain ⟨y, hy⟩ := Option.isSome_iff_exists.1 (hf.made σ d hm).2.1
      obtain ⟨y', hy', hcl⟩ := hcl
      rcases hw.closed_back hy hy' hcl with hcl | hmay | rfl
      · exact .inl ⟨y, hy, hcl⟩
      · exact absurd hmay hno
      · obtain ⟨x', hx', htx, _⟩ := hw.call hx
        exact .inr ⟨c, x', hx', htx.trans ht⟩
    · refine hw.acquired ?_
      rintro rfl
      rcases hd with hd | ⟨σ, hm⟩
      · exact hd rfl
      · obtain ⟨⟨e, he, _⟩, _⟩ := hf.made σ d hm
        exact hopened e he
  refine lands_same hlength (hframe.rest fun x' hx' => ?_)
  have hreach := hw.staged hx ht hs c x' hx'
  obtain ⟨y, hy, hty, _⟩ := hw.call hx
  obtain rfl := Option.some.inj (hx'.symm.trans hy)
  exact stands_aside hreach (by rwa [hty, ht]) fun e hl => hopened e (hf.last e c hl)

theorem Follows.begin (hf : h.Follows none none g) (ho : h.Ordered none Q) (hs : h.Staged)
    (hx : h.call? c = some ⟨t, .fresh⟩) :
    h.Lands c { g with last := lastOpen (some c) (some t) g.last } (h.begin c t) := by
  have hstands := hf.stands c _ nofun hx
  cases t with
  | openEditor editor => exact (hf.takeOff c).openEditor hx rfl (hstands.silent ⟨editor, rfl⟩ (.inl rfl))
  | closeEditor e =>
    obtain ⟨hfollows, hlength⟩ := (hf.takeOff c).closeEditor hx rfl
    exact lands_same hlength hfollows
  | shutdownLifecycle =>
    obtain ⟨hfollows, hlength⟩ := (hf.takeOff c).shutdownLifecycle hx
    exact lands_same hlength hfollows
  | acquire key document => exact hf.aside ho hs (Works.refl.begin (t := .acquire key document)) hx rfl (fun hno => hno)
  | release key => exact hf.aside ho hs (Works.refl.begin (t := .release key)) hx rfl (fun hno => hno)
  | releaseConnection id => exact hf.aside ho hs (Works.refl.begin (t := .releaseConnection id)) hx rfl (fun hno => hno)
  | shutdownAll => exact hf.aside ho hs (Works.refl.begin (t := .shutdownAll)) hx rfl (fun hno => hno)
  | releaseSession σ => exact hf.aside ho hs (Works.refl.begin (t := .releaseSession σ)) hx rfl (fun hno => hno)

theorem Follows.flies (hf : h.Follows none none g) (hs : h.Staged) (hx : h.call? c = some x)
    (ho : x.progress.opening? = some o) : h.Flies g c x o ∧ ∀ id, ¬h.Acquired c id := by
  obtain ⟨editor, ht, he, _⟩ := (hs c x hx).opening ho
  have hstands := hf.stands c x (by simp) hx
  have hsilent := hstands.silent ⟨editor, ht⟩ (.inr (by rw [ho]; rfl))
  exact ⟨⟨hx, ⟨editor, ht, he.symm⟩, (hstands.opening o ho).1, (hstands.opening o ho).2, hf.unmade hsilent⟩, hsilent⟩

section Answered
variable {i : Nat} {s s' : Slot} {v : Visit} {a : Answer} (hf : h.Follows none none g)
  (hslot : h.registry.slots[i]? = some s) (hg : s.Goes v (s', some a))
include hf hslot hg

theorem Follows.turned_open (hs : h.Staged) (hx : h.call? v.call = some x) (ho : x.progress.opening? = some o)
    (hq : v.request.Acquires) : h.Lands v.call g ((h.setSlot i s').answerOpen v.call o a) := by
  obtain ⟨hflies, hsilent⟩ := hf.flies hs hx ho
  have hpass : h.Passes (some v.call) (h.setSlot i s') := goes_passes hslot hg fun _ _ _ => rfl
  have hacq (id : ConnectionId) : (h.setSlot i s').Acquired v.call id ↔ a = .acquired id := by
    refine (goes_acquired hslot hg).trans ((or_iff_right (hsilent id)).trans ?_)
    simp [hq]
  have hfollows := (hf.takeOff v.call).passes hpass (fun d hd => ⟨hd, Option.some.inj hd ▸ hflies.unmade⟩)
    fun _ σ _ hcl => .inl ((closed_congr (setSlot_sessions ..) σ).1 hcl)
  exact (hfollows.answerOpen (hflies.passes hpass) hacq).since hpass.length

variable (hq : ¬v.request.Acquires)
include hq

/-- A call that waited for something other than a connection has acquired nothing new. -/
theorem Follows.turned_aside : (h.setSlot i s').Follows (some v.call) none g ∧ h.Passes none (h.setSlot i s') := by
  have hpass : h.Passes none (h.setSlot i s') := goes_passes hslot hg fun _ hq' _ => absurd hq' hq
  exact ⟨(hf.takeOff v.call).passes hpass (by simp) fun _ σ _ hcl => .inl ((closed_congr (setSlot_sessions ..) σ).1 hcl),
    hpass⟩

theorem Follows.turned_wanted (hx : h.call? v.call = some x) (hl : g.last e = some v.call)
    (ha : (h.setSlot i s').Acquired v.call id) : ∃ σ, (h.setSlot i s').attachment? e = some (.attached σ) := by
  obtain ⟨_, hpass⟩ := hf.turned_aside hslot hg hq
  rw [hpass.attachment?]
  exact (hf.stands v.call x (by simp) hx).wanted e id hl ((hpass.acquired _ id (by simp)).1 ha)

theorem Follows.turned_finish (hx : h.call? v.call = some x) (r : Result) :
    h.Lands v.call g ((h.setSlot i s').finish v.call r) := by
  obtain ⟨hfollows, hpass⟩ := hf.turned_aside hslot hg hq
  exact lands_same hpass.length
    (hfollows.finish ((hpass.call? _).trans hx) (fun e id hl ha => hf.turned_wanted hslot hg hq hx hl ha) r)

end Answered

theorem Follows.answered (hf : h.Follows none none g) (hs : h.Staged) {i : Nat} {s s' : Slot} {v : Visit} {a : Answer}
    (hslot : h.registry.slots[i]? = some s) (hg : s.Goes v (s', some a)) (hx : h.call? v.call = some x)
    (hw : h.Waits x i v.request) (hown : x.task.OfEditors) :
    h.Lands v.call g ((h.setSlot i s').answered v.call i a) := by
  have hcall : (h.setSlot i s').call? v.call = some x := by rwa [call?, setSlot_calls]
  have hprogress {p : Progress} (hp : x.progress = p) : (h.setSlot i s').progress? v.call = some p := by
    rw [progress?, hcall, Option.map_some, hp]
  generalize hq : v.request = q at hw
  cases hw with
  | acquiring _ ht | release _ ht | returning _ ht =>
    rw [ht] at hown
    exact hown.elim
  | @opening o seen hp ht hi =>
    simp only [Host.answered, hprogress hp]
    exact hf.turned_open hslot hg hs hx (by rw [hp]; rfl) (hq ▸ ⟨_, _, _, rfl⟩)
  | @session σ id hp ht hid hi =>
    have hacquires : ¬v.request.Acquires := hq ▸ Request.release_not_acquires
    cases hprog : x.progress with
    | fresh | acquiring | releasing | clearing | opening | ended => simp [hprog, releasing?] at hp
    | reopening o τ =>
      obtain ⟨hfollows, hpass⟩ := hf.turned_aside hslot hg hacquires
      obtain ⟨hflies, hsilent⟩ := hf.flies hs hx (o := o) (by rw [hprog]; rfl)
      simp only [Host.answered, hprogress hprog]
      refine (hfollows.acquireForOpen (hflies.passes hpass) fun id ha => ?_).since hpass.length
      exact hsilent id ((hpass.acquired _ id (by simp)).1 ha)
    | releasingSession τ | discarding e token τ | closing τ =>
      simp only [Host.answered, hprogress hprog]
      exact hf.turned_finish hslot hg hacquires hx _
  | @clearing waiting closed report hp ht hi =>
    have hacquires : ¬v.request.Acquires := hq ▸ Request.clear_not_acquires
    simp only [Host.answered, hprogress hp]
    split
    · exact hf.turned_finish hslot hg hacquires hx _
    · obtain ⟨hfollows, hpass⟩ := hf.turned_aside hslot hg hacquires
      exact lands_same hpass.length (hfollows.land hcall ⟨by simp [Progress.opening?], by simp,
        by simp [Progress.opening?], fun e id hl ha => hf.turned_wanted hslot hg hacquires hx hl ha⟩)

theorem interrupt_attachment? (h : Host) (c : CallId) (p : Progress) (e : EditorId) :
    (h.interrupt c p).attachment? e = h.attachment? e := by
  rw [attachment?, (h.interrupt_fields c p).2, attachment?]

theorem Follows.givenUp (hf : h.Follows none none g) (ho : h.Ordered none Q) (hx : h.call? c = some x) (r : Result) :
    h.Lands c g ((h.interrupt c x.progress).finish c r) := by
  obtain ⟨hfollows, hacq⟩ := hf.interrupt ho c x.progress
  refine lands_same (congrArg List.length (interrupt_sessions ..))
    (hfollows.finish (interrupt_call? hx c x.progress) (fun e id hl ha => ?_) r)
  rw [interrupt_attachment?]
  exact (hf.stands c x nofun hx).wanted e id hl ((hacq c id).1 ha)

theorem Follows.crash (hf : h.Follows none none g) (ho : h.Ordered none Q) (hx : h.call? c = some x)
    (hp : ∀ r, x.progress ≠ .ended r) : h.Lands c g (h.crash c) := by
  have hstands := hf.stands c x nofun hx
  obtain ⟨hfollows, hacq⟩ := hf.interrupt ho c x.progress
  have hwithdraw (e : EditorId) (token : Nat)
      (hown : h.attachment? e = some (.pending token false) → g.last e = some c) :
      h.Lands c g (((h.interrupt c x.progress).withdraw e token).finish c .done) := by
    have hcall' : ((h.interrupt c x.progress).withdraw e token).call? c = some x := by
      rw [call?, withdraw_calls]
      exact interrupt_call? hx c x.progress
    refine lands_same (congrArg List.length ((withdraw_sessions ..).trans (interrupt_sessions ..)))
      ((hfollows.withdraw fun he => hown (by rwa [← interrupt_attachment? h c x.progress])).finish hcall'
        (fun e' id hl ha => ?_) .done)
    obtain ⟨σ, hσ⟩ := hstands.wanted e' id hl ((hacq c id).1 ((acquired_congr (withdraw_registry ..)).1 ha))
    exact ⟨σ, Follows.attached_withdraw (by rwa [interrupt_attachment?]) e token⟩
  rw [Ordered.crash_eq hx hp]
  split
  · rename_i o σ hprog
    exact hwithdraw _ _ (hstands.opening o (by rw [hprog]; rfl)).2.1
  · rename_i o hprog
    exact hwithdraw _ _ (hstands.opening o (by rw [hprog]; rfl)).2.1
  · rename_i e token σ hprog
    exact hwithdraw _ _ fun he => absurd he ((hstands.discarding e token σ hprog).2 false)
  · exact hf.givenUp ho hx _
  · exact hf.givenUp ho hx _

/-- Whatever happens, every editor is what the last of its events makes it. -/
theorem Happens.follows (hh : h.Happens actor task h') (ho : h.Ordered none Q) (hs : h.Staged)
    (hf : h.Follows none none g) : h'.Follows none none (doings h actor task h' g) := by
  -- A call that does not begin is no event of an editor.
  have hlands {c : CallId} (hl : h.Lands c g h') : h'.Follows none none (doings h (some c) none h' g) := hl
  have hquiet (actor : Option CallId) (hlength : h'.sessions.length = h.sessions.length)
      (hf' : h'.Follows none none g) :
      h'.Follows none none (doings h actor none h' g) := by
    rw [doings, hlength, madeBy_same]
    exact hf'
  cases hh with
  | calm now woken =>
    refine hquiet _ rfl (hf.frame rfl (Nat.le_refl _) (fun _ y hy => ⟨y, hy, rfl⟩) (fun _ _ _ hy => .inl hy)
      (fun _ _ => rfl) (fun _ hc => hc) (fun _ _ _ hc => .inl hc) fun _ _ _ => acquired_congr rfl)
  | made t =>
    exact hquiet none (congrArg List.length (spawn_sessions ..)) (hf.spawn (fun _ _ ha => ho.acquired_there ha) t)
  | wrapped id uri =>
    have hadd := (hf.addSession none id uri (by simp)).bind fun c e hm => by
      dsimp only at hm
      rw [madeBy_succ, if_pos rfl] at hm
      cases hm
    have hlength : (h.addSession id uri).1.sessions.length = h.sessions.length + 1 := by simp [Host.addSession]
    rw [doings, hlength]
    exact hadd
  | begins hx => exact hf.begin ho hs hx
  | @waits i s v stage s' x hslot _ _ hg hm hx hw =>
    have hp : h.Passes none (h.setSlot i s') := goes_passes hslot hg (by simp)
    refine hquiet _ hp.length (hf.passes hp (by simp) fun e σ _ hcl => .inl ?_)
    exact (closed_congr (setSlot_sessions ..) σ).1 hcl
  | @answered i s v stage s' a x hslot hl _ hg hm hx hw =>
    by_cases hown : x.task.OfEditors
    · exact hlands (hf.answered hs hslot hg hx hw hown)
    · have hwork := (Works.refl.setSlot hslot hg.grows (hl.spares hm)).answers (t := x.task) (fun p hp => ?_) i a
      · exact hlands (hf.aside ho hs hwork hx rfl hown)
      · rw [progress?, call?, setSlot_calls] at hp
        obtain ⟨y, hy, rfl⟩ := Option.map_eq_some_iff.1 hp
        obtain rfl := Option.some.inj (hx.symm.trans hy)
        exact hs v.call _ hx
  | dropped hx hp => exact hlands (hf.givenUp ho hx .dropped)
  | crashed hx hp => exact hlands (hf.crash ho hx hp)

/-- An open that has begun, and is not the last event of the editor, will not be again. -/
theorem Happens.not_last (hh : h.Happens actor task h') (hs : h.Staged) (hx : h.call? c = some x)
    (hp : x.progress ≠ .fresh) {last : EditorId → Option CallId} (hl : last e ≠ some c) :
    lastOpen actor task last e ≠ some c ∧ ∃ x', h'.call? c = some x' ∧ x'.progress ≠ .fresh := by
  obtain ⟨_, _, _, _, hw⟩ := hh.works hs
  obtain ⟨x', hx', _⟩ := hw.call hx
  refine ⟨?_, x', hx', hw.begun hx hp hx'⟩
  cases hh with
  | @begins d t hy =>
    have hne : d ≠ c := by
      rintro rfl
      obtain rfl := Option.some.inj (hx.symm.trans hy)
      exact hp rfl
    cases t with
    | openEditor editor =>
      simp only [lastOpen]
      split
      · split
        · exact fun he => hne (Option.some.inj he)
        · exact hl
      · exact hl
      · exact hl
    | closeEditor e' =>
      simp only [lastOpen]
      split
      · simp
      · exact hl
    | shutdownLifecycle => simp [lastOpen]
    | acquire | release | releaseConnection | shutdownAll | releaseSession => exact hl
  | calm | made | wrapped | waits | answered | dropped | crashed => exact hl

end Events

section Main

/-- What is remembered of the editors in a run. -/
def doingsOf (h : Host) (g : Doings) (events : List Event) : Doings :=
  h.chronicle (fun h e => doings h (h.actor e) (h.begins? e) (h.apply e)) g events

/-- The last event of every editor has its way. -/
structure Converged (h : Host) (g : Doings) : Prop where
  entries : (h.attachments.map Prod.fst).Nodup
  /-- It is attached just if its last event is an open that has acquired a connection. -/
  attached : ∀ e, h.isAttached e = true ↔ ∃ c id, g.last e = some c ∧ h.Acquired c id
  /-- Its session is then the one that this open made, for the connection that it acquired, and stays open unless
  somebody else releases it. -/
  session : ∀ e σ, h.attachment? e = some (.attached σ) → ∃ c id, g.last e = some c ∧ g.maker σ = some c ∧
    h.connectionOf? σ = some id ∧ (∀ id', h.Acquired c id' ↔ id' = id) ∧ (h.Closed σ → h.Recalled σ)
  /-- Every other session that an open of the editor made is closed. -/
  others : ∀ e c σ, g.maker σ = some c → h.Opened c e → h.attachment? e ≠ some (.attached σ) → h.Closed σ

theorem Follows.converged (hf : h.Follows none none g) (hthere : ∀ c id, h.Acquired c id → (h.call? c).isSome) :
    h.Converged g := by
  have hattached (e : EditorId) (σ : SessionId) (ha : h.attachment? e = some (.attached σ)) :
      ∃ c id, g.last e = some c ∧ g.maker σ = some c ∧ h.connectionOf? σ = some id ∧
        ∀ id', h.Acquired c id' ↔ id' = id := by
    obtain ⟨c, hl, hm⟩ := hf.attached e σ ha
    obtain ⟨_, hsome, hid⟩ := hf.made σ c hm
    obtain ⟨y, hy⟩ := Option.isSome_iff_exists.1 hsome
    have hconnection : h.connectionOf? σ = some y.connection := by rw [connectionOf?, hy, Option.map_some]
    refine ⟨c, y.connection, hl, hm, hconnection, fun id' => ?_⟩
    rw [← hid id', hconnection, Option.some.injEq, eq_comm]
  refine ⟨hf.editors, fun e => ⟨fun ha => ?_, ?_⟩, fun e σ ha => ?_, fun e c σ hm ho hne => ?_⟩
  · unfold isAttached at ha
    split at ha
    · rename_i σ hσ
      obtain ⟨c, id, hl, _, _, hacq⟩ := hattached e σ hσ
      exact ⟨c, id, hl, (hacq id).2 rfl⟩
    · cases ha
  · rintro ⟨c, id, hl, ha⟩
    obtain ⟨x, hx⟩ := Option.isSome_iff_exists.1 (hthere c id ha)
    obtain ⟨σ, hσ⟩ := (hf.stands c x (by simp) hx).wanted e id hl ha
    rw [isAttached, hσ]
  · obtain ⟨c, id, hl, hm, hid, hacq⟩ := hattached e σ ha
    exact ⟨c, id, hl, hm, hid, hacq, hf.released e σ ha⟩
  · obtain ⟨⟨e', ho', hplace⟩, _⟩ := hf.made σ c hm
    obtain rfl := ho.unique ho'
    exact (hplace (by simp)).resolve_left hne

theorem run_follows (bounds : Bounds) (events : List Event) : ((Host.new bounds).run events).Follows none none
    ((Host.new bounds).doingsOf ⟨fun _ => none, fun _ => none⟩ events) := by
  refine run_chronicle bounds events (P := fun h g => h.Follows none none g) ?_
    fun h g e ho hs hh hf => hh.follows ho hs hf
  refine ⟨List.nodup_nil, fun c x _ hx => ?_, by simp, by simp [Host.new, attachment?], by simp [Host.new, attachment?],
    by simp⟩
  simp [Host.new, call?] at hx

/-- At every moment of a run each editor is attached just if the last of its events is an open that has acquired
its connection, by the session that this open made of it. Every other session that was made for it is closed, be it
that a call was sent to give it back or that the lifecycle was shut down. An open that is not the last event any more
never comes to attach the editor. -/
theorem editors_converge (bounds : Bounds) (events : List Event) :
    let h := (Host.new bounds).run events
    let g := (Host.new bounds).doingsOf ⟨fun _ => none, fun _ => none⟩ events
    h.Converged g ∧
    (∀ e c σ, g.maker σ = some c → h.Opened c e → h.attachment? e ≠ some (.attached σ) →
      custodyOf bounds events σ = .forgotten ∨ ∃ first second, custodyOf bounds events σ = .sent first second) ∧
    ∀ events' e c x, h.call? c = some x → x.progress ≠ .fresh → g.last e ≠ some c →
      ∀ σ, (h.doingsOf g events').maker σ = some c → (h.run events').attachment? e ≠ some (.attached σ) := by
  intro h g
  have hs : h.Settled False _ := (settled_new bounds).run events False.elim
  have hstaged : h.Staged := run_staged bounds events
  have hf : h.Follows none none g := run_follows bounds events
  have hconverged := hf.converged fun c id => hs.ordered.acquired_there
  refine ⟨hconverged, fun e c σ hm ho hne => ?_, fun events' e c x hx hp hl σ hm ha => ?_⟩
  · have htended : h.Tended σ (custodyOf bounds events σ) := (run_tended bounds events σ).1
    cases hk : custodyOf bounds events σ with
    | held => exact absurd (hconverged.others e c σ hm ho hne) (htended.held.1 hk)
    | forgotten => exact .inl rfl
    | sent first second => exact .inr ⟨first, second, rfl⟩
  · obtain ⟨_, hf', hl', _⟩ := hs.chronicle
      (P := fun h g => h.Follows none none g ∧ g.last e ≠ some c ∧ ∃ x, h.call? c = some x ∧ x.progress ≠ .fresh)
      hstaged ⟨hf, hl, x, hx, hp⟩
      (fun h g e ho hs hh hg => by
        obtain ⟨hf, hl, x, hx, hp⟩ := hg
        exact ⟨hh.follows ho hs hf, hh.not_last hs hx hp hl⟩) events'
    obtain ⟨d, hd, hmd⟩ := hf'.attached e σ ha
    obtain rfl := Option.some.inj (hm.symm.trans hmd)
    exact hl' hd

/-- An editor is opened in one project and, while the server is launched for that, again in another, whose server
is up first. -/
def openedTwice : List Event :=
  let editor (p : String) : Editor := ⟨⟨0⟩, .value "file:///a.rs", .value ⟨p⟩, .value ⟨⟨p⟩⟩,
    .value ⟨"rust", ["rs"], .new "ra", List.nodup_singleton _⟩, .missing⟩
  [.call (.openEditor (editor "/p")), .call (.openEditor (editor "/q")), .begin ⟨0⟩, .begin ⟨1⟩,
    .launched 1 (.ok ⟨none, none⟩), .launched 0 (.ok ⟨none, none⟩)]

theorem opened_twice :
    let h := (Host.new default).run openedTwice
    h.attachment? ⟨0⟩ = some (.attached ⟨0⟩) ∧ h.Acquired ⟨1⟩ ⟨1, 1⟩ ∧ h.connectionOf? ⟨1⟩ = some ⟨0, 1⟩ ∧
      h.Closed ⟨1⟩ ∧ (∃ first second, custodyOf default openedTwice ⟨1⟩ = .sent first second) ∧
      ((Host.new default).run (openedTwice.take 4)).attachment? ⟨0⟩ = some (.pending 1 false) ∧
      h.attachment? ⟨0⟩ ≠ some (.attached ⟨1⟩) := by
  intro h
  obtain ⟨hconverged, hreturned, _⟩ := editors_converge default openedTwice
  obtain ⟨_, _, hpast⟩ := editors_converge default (openedTwice.take 4)
  have ha : h.attachment? ⟨0⟩ = some (.attached ⟨0⟩) := rfl
  obtain ⟨c, id, hl, _, hid, hacq, _⟩ := hconverged.session ⟨0⟩ ⟨0⟩ ha
  obtain rfl : ⟨1⟩ = c := Option.some.inj hl
  obtain rfl : ⟨1, 1⟩ = id := Option.some.inj hid
  -- The first open has begun, and when it is answered it is not the last event any more.
  have hnever : h.attachment? ⟨0⟩ ≠ some (.attached ⟨1⟩) :=
    hpast (openedTwice.drop 4) ⟨0⟩ ⟨0⟩ _ rfl (by simp) (by decide) ⟨1⟩ rfl
  have hopened : h.Opened ⟨0⟩ ⟨0⟩ := ⟨_, _, rfl, rfl, rfl⟩
  refine ⟨ha, (hacq _).2 rfl, rfl, hconverged.others ⟨0⟩ ⟨0⟩ ⟨1⟩ rfl hopened hnever, ?_, rfl, hnever⟩
  exact (hreturned ⟨0⟩ ⟨0⟩ ⟨1⟩ rfl hopened hnever).resolve_left fun he => by cases he

end Main

end LanguageHost.Host
