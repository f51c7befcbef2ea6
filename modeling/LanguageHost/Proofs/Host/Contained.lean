import LanguageHost.Proofs.Host.Confined
import LanguageHost.Proofs.Host.Holders

/-! What goes wrong with one editor stays with it. An open that comes to no server returns as if nothing had been: it
takes its own entry away and no other, and all that it does at the gates it does in slots of its own. -/
namespace LanguageHost

section Editor

/-- Something that a server takes is missing or empty, or a capability crashes. Only the document path may be
missing. -/
inductive Editor.Unfit (editor : Editor) : Prop
  | language (h : editor.language = .missing ∨ editor.language = .crash)
  | uri (h : editor.uri = .missing ∨ editor.uri = .crash ∨ editor.uri = .value "")
  | projectPath (h : editor.projectPath = .missing ∨ editor.projectPath = .crash ∨
      ∃ p, editor.projectPath = .value p ∧ p.isEmpty = true)
  | project (h : editor.project = .missing ∨ editor.project = .crash)
  | documentPath (h : editor.documentPath = .crash)

theorem Capability.value_or {α : Type} (c : Capability α) : (∃ a, c = .value a) ∨ c = .missing ∨ c = .crash := by
  cases c with
  | value a => exact .inl ⟨a, rfl⟩
  | missing => exact .inr (.inl rfl)
  | crash => exact .inr (.inr rfl)

theorem Capability.andThen_eligible {α : Type} {c : Capability α} {wanted : α → Bool} {next : α → Resolution}
    {what : Resolved} :
    c.andThen wanted next = .eligible what ↔ ∃ a, c = .value a ∧ wanted a = true ∧ next a = .eligible what := by
  cases c with
  | value a =>
    rw [andThen]
    split
    · rename_i ha
      simp [ha]
    · rename_i ha
      simp [ha]
  | missing | crash => simp [andThen]

theorem Editor.unfit_iff (editor : Editor) : editor.Unfit ↔ ∀ what, editor.resolve ≠ .eligible what := by
  constructor
  · intro hu what hr
    obtain ⟨_, hlanguage, _, hr⟩ := Capability.andThen_eligible.1 hr
    obtain ⟨_, huri, hwanted, hr⟩ := Capability.andThen_eligible.1 hr
    obtain ⟨_, hpath, hwanted', hr⟩ := Capability.andThen_eligible.1 hr
    obtain ⟨_, hproject, _, hr⟩ := Capability.andThen_eligible.1 hr
    cases hu with
    | language h => simp [hlanguage] at h
    | uri h =>
      obtain rfl : _ = "" := by simpa [huri] using h
      cases hwanted
    | projectPath h =>
      obtain ⟨p, hp, hempty⟩ : ∃ p, editor.projectPath = .value p ∧ p.isEmpty = true := by simpa [hpath] using h
      obtain rfl := Capability.value.inj (hpath.symm.trans hp)
      simp [hempty] at hwanted'
    | project h => simp [hproject] at h
    | documentPath h => simp [h] at hr
  · intro hno
    by_contra hfit
    obtain ⟨language, hlanguage⟩ := editor.language.value_or.resolve_right fun h => hfit (.language h)
    obtain ⟨uri, huri⟩ := editor.uri.value_or.resolve_right fun h => hfit (.uri (or_assoc.1 (.inl h)))
    obtain ⟨p, hpath⟩ := editor.projectPath.value_or.resolve_right fun h => hfit (.projectPath (or_assoc.1 (.inl h)))
    obtain ⟨project, hproject⟩ := editor.project.value_or.resolve_right fun h => hfit (.project h)
    have hwanted : uri ≠ "" := fun h => hfit (.uri (.inr (.inr (h ▸ huri))))
    have hwanted' : ¬p.isEmpty = true := fun h => hfit (.projectPath (.inr (.inr ⟨p, hpath, h⟩)))
    have hresolve (document : Option Path) (hdocument : editor.documentPath = .ofOption document) :
        editor.resolve = .eligible ⟨uri, ⟨language, project⟩, document⟩ := by
      cases document <;>
        simp [Editor.resolve, hlanguage, huri, hpath, hproject, hdocument, Capability.andThen, Capability.ofOption,
          hwanted, hwanted']
    rcases editor.documentPath.value_or with ⟨document, hdocument⟩ | hdocument | hdocument
    · exact hno _ (hresolve (some document) hdocument)
    · exact hno _ (hresolve none hdocument)
    · exact hfit (.documentPath hdocument)

end Editor

namespace Host
variable {h h' : Host} {c : CallId} {x : Call} {editor : Editor} {what : Resolved} {o : Opening} {e : EditorId}
  {g : Entrants} {f : Doings} {task : Option Task} {actor : Option CallId} {last : EditorId → Option CallId}
  {Q : Nat → Request → Prop} {i : Nat} {q : Request} {ev : Event}

/-- The call opens the editor, which is eligible for a server and attached by this. -/
def Wants (h : Host) (c : CallId) (editor : Editor) (what : Resolved) : Prop :=
  ∃ x, h.call? c = some x ∧ x.task = .openEditor editor ∧ editor.resolve = .eligible what

/-- The open begins in the event, or goes on while it is on its way to a connection, and is not given up. -/
structure Seeks (h : Host) (ev : Event) (c : CallId) : Prop where
  acts : h.actor ev = some c
  stage : (h.begins? ev).isSome ∨ ∃ o, h.UnderWay c o
  kept : (h.apply ev).progress? c ≠ some (.ended .dropped)

/-- The event by which an open comes to no connection, or crashes. -/
inductive Fails (h : Host) (ev : Event) (c : CallId) (what : Resolved) : Prop
  | invalid (hseeks : h.Seeks ev c) (hkey : what.key.isValid = false)
      (hpast : ∀ o σ, (h.apply ev).progress? c ≠ some (.reopening o σ))
  | refused {q : Request} {error : Error} (hseeks : h.Seeks ev c) (hq : q.Acquires)
      (hbefore : ¬h.Answered c q (.refused error)) (hafter : (h.apply ev).Answered c q (.refused error))
  /-- The launcher that the open waits for crashes, or the process of a server that it stops. -/
  | crashes {i : Nat} {s : Slot} {v : Visit} {w : Work} (hev : ev = .crash i) (hslot : h.registry.slots[i]? = some s)
      (hwork : s.work? = some (v, w)) (hv : v.call = c)

/-- The open has come to nothing: it has returned, the entry that it came into has gone, unless a newer open came into
that, which is left as it is, and so are the entries of the other editors. -/
structure Undone (h : Host) (c : CallId) (e : EditorId) (last : EditorId → Option CallId) (h' : Host) : Prop where
  returns : h'.progress? c = some (.ended .done)
  own : last e = some c → h'.attachment? e = none
  newer : last e ≠ some c → h'.attachment? e = h.attachment? e
  others : ∀ e', e' ≠ e → h'.attachment? e' = h.attachment? e'

/-- Whoever gives a session back because it is not wanted has left no entry behind. -/
def Spent (h : Host) (g : Entrants) : Prop := ∀ c x e token σ, h.call? c = some x →
  x.progress = .discarding e token σ → g.last e = some c → h.attachment? e = none

section Event

theorem begin_unfit (hx : h.call? c = some ⟨.openEditor editor, .fresh⟩) (hu : editor.Unfit) :
    h.apply (.begin c) = { h with nextToken := h.nextToken + 1 }.finish c .done := by
  have hno := editor.unfit_iff.1 hu
  rw [apply_begin hx]
  show h.openEditor c editor = _
  unfold openEditor
  dsimp only
  split
  · rename_i what hr
    exact absurd hr (hno what)
  · rfl
  · rfl

theorem Claims.left_none (hc : h.Claims g) (hu : h.UnderWay c o) (hl : g.last o.editor = some c)
    (hw : h.Without o.editor o.token h') : h'.attachment? o.editor = none := by
  by_cases hentered : h.Entered o.editor o.token
  · exact hw.own hentered
  · rw [hw.stale hentered]
    exact (hc.latest c o hu hl).resolve_right hentered

theorem Claims.undone (hc : h.Claims g) (hu : h.UnderWay c o) (hw : h.Without o.editor o.token h')
    (hp : h'.progress? c = some (.ended .done)) : h.Undone c o.editor g.last h' :=
  ⟨hp, fun hl => hc.left_none hu hl hw, fun hl => hw.stale (hc.stale c o hu hl), hw.others⟩

theorem entering_undone (hw : (h.entering o).Without o.editor o.token h') (hl : last o.editor = some c)
    (hp : h'.progress? c = some (.ended .done)) : h.Undone c o.editor last h' := by
  refine ⟨hp, fun _ => hw.own (h.entering_entered o), fun hno => absurd hl hno, fun e' hne => ?_⟩
  rw [hw.others e' hne, entering_attachment?, if_neg hne]

/-- A step by which an open neither waits on nor gets a connection undoes it. -/
theorem Moves.undone (hm : h.Moves (some c) task h') (hs : h.Staged) (hc : h.Claims g) (hwants : h.Wants c editor what)
    (hstage : task = some (.openEditor editor) ∨ ∃ o, h.UnderWay c o)
    (hkept : h'.progress? c ≠ some (.ended .dropped))
    (hfails : ∀ {h₀ : Host} {o : Opening} {ans : Option Answer}, o.what = what → h₀.Comes c o ans h' →
      h.Learns c ans h' → h₀.Without o.editor o.token h' ∧ h'.progress? c = some (.ended .done)) :
    h.Undone c editor.id (lastEntrant (some c) task g.last) h' := by
  obtain ⟨x, hx, ht, hr⟩ := hwants
  cases hm with
  | still _ htask hcalls =>
    obtain ⟨_, _, haside⟩ := hcalls c x rfl hx
    rcases hstage with hstage | ⟨o, hu⟩
    · exact absurd hr (htask editor what hstage)
    · cases ((underWay_iff hx).1 hu).symm.trans haside.before
  | opens hx₀ hr' hcomes hlearns =>
    obtain rfl := Option.some.inj (hx₀.symm.trans hx)
    obtain rfl := Task.openEditor.inj ht
    obtain ⟨hw, hp⟩ := hfails (Resolution.eligible.inj (hr'.symm.trans hr)) hcomes hlearns
    exact entering_undone hw (lastEntrant_of_enters ⟨_, what, rfl, hr, rfl⟩) hp
  | goes hx₀ ho hcomes hlearns =>
    obtain rfl := Option.some.inj (hx₀.symm.trans hx)
    obtain ⟨editor', ht', he, hr'⟩ := (hs c _ hx).opening ho
    obtain rfl := Task.openEditor.inj (ht'.symm.trans ht)
    obtain ⟨hw, hp⟩ := hfails (Resolution.eligible.inj (hr'.symm.trans hr)) hcomes hlearns
    rw [← he]
    exact hc.undone ((underWay_iff hx).2 ho) hw hp
  | dropped _ _ _ hp => exact absurd hp hkept
  | closes hx₀ | drains hx₀ =>
    obtain rfl := Option.some.inj (hx₀.symm.trans hx)
    cases ht

/-- An open at a gate is on its way to a connection, or gives one back that it does not want. -/
theorem Waits.open_stage (hw : h.Waits x i q) (hreaches : (Task.openEditor editor).Reaches x.progress) :
    (∃ o, x.progress.opening? = some o) ∨ ∃ e token σ, x.progress = .discarding e token σ := by
  cases hp : x.progress with
  | opening o | reopening o => exact .inl ⟨o, rfl⟩
  | discarding e token σ => exact .inr ⟨e, token, σ, rfl⟩
  | acquiring | releasing | releasingSession | clearing | closing =>
    rw [hp] at hreaches
    exact hreaches.elim
  | fresh | ended =>
    cases hw with
    | session hσ =>
      rw [hp] at hσ
      cases hσ
    | acquiring hp' | opening hp' | release hp' | returning hp' | clearing hp' => cases hp.symm.trans hp'

theorem apply_crash {s : Slot} {v : Visit} {w : Work} (hslot : h.registry.slots[i]? = some s)
    (hwork : s.work? = some (v, w)) :
    h.actor (.crash i) = some v.call ∧ h.apply (.crash i) = h.crash v.call := by
  obtain ⟨stage, hh⟩ := Slot.holder_of_work hwork
  exact ⟨by simp [actor, hslot, hh], crashIn_of_work hslot hwork⟩

theorem crash_undone (hs : h.Staged) (hf : h.Follows none none f) (hc : h.Claims g) (hspent : h.Spent g)
    (hwants : h.Wants c editor what)
    (hin : (∃ o, h.UnderWay c o) ∨ ∃ e token σ, h.progress? c = some (.discarding e token σ)) :
    h.Undone c editor.id g.last (h.crash c) := by
  obtain ⟨x, hx, ht, hr⟩ := hwants
  rcases hin with ⟨o, hu⟩ | ⟨e, token, σ, hp⟩
  · have ho := (underWay_iff hx).1 hu
    obtain ⟨editor', ht', he, _⟩ := (hs c _ hx).opening ho
    obtain rfl := Task.openEditor.inj (ht'.symm.trans ht)
    obtain ⟨hw, hdone, _⟩ := crash_withdraws hx ho
    rw [← he]
    exact hc.undone hu hw hdone
  · obtain ⟨task, p⟩ := x
    obtain rfl : p = .discarding e token σ := by
      rw [progress?, hx, Option.map_some] at hp
      exact Option.some.inj hp
    have hreaches := hs c _ hx
    rw [show task = .openEditor editor from ht] at hreaches
    obtain rfl : e = editor.id := hreaches
    have hgone := ((hf.stands c _ (by simp) hx).discarding editor.id token σ rfl).2
    have hcrash := Ordered.crash_eq hx (by simp)
    have hw := (Without.withdraw (h.interrupt c (.discarding editor.id token σ)) editor.id token).since
      (interrupt_attachment? h c _)
    have hsame := hw.same (by
      rintro ⟨b, hb⟩
      exact hgone b hb)
    have hx' : ((h.interrupt c (.discarding editor.id token σ)).withdraw editor.id token).call? c =
        some ⟨task, .discarding editor.id token σ⟩ := by
      rw [call?, withdraw_calls]
      exact interrupt_call? hx c _
    rw [hcrash]
    refine ⟨progress?_setProgress hx' _, fun hl => ?_, fun _ => hsame editor.id, fun e' _ => hsame e'⟩
    exact (hsame editor.id).trans (hspent c _ editor.id token σ hx rfl hl)

/-- Whoever has begun to give a connection back has left no entry behind, and leaves none as long as no other open
comes into that. -/
theorem Happens.spent (hh : h.Happens actor task h') (hs : h.Staged) (hm : h.Moves actor task h') (hc : h.Claims g)
    (hspent : h.Spent g) : h'.Spent (entrants h actor task h' g) := by
  intro c x' e token σ hx' hp hl
  have hprogress : h'.progress? c = some (.discarding e token σ) := by rw [progress?, hx', Option.map_some, hp]
  rcases hh.discarding hs hm hx' hp with ⟨x, hx, _, hp₀⟩ | ⟨rfl, o, _, _, ⟨_, hcomes⟩ | ⟨rfl, hu, hcomes⟩⟩
  · have hno (t : Task) (ht : task = some t) (he : t.Enters e) : False := by
      obtain ⟨d, rfl, hx₀⟩ := hh.fresh ht
      subst ht
      obtain rfl := Option.some.inj ((lastEntrant_of_enters he).symm.trans hl)
      obtain rfl := Option.some.inj (hx₀.symm.trans hx)
      cases hp₀
    exact hm.absent (hspent c x e token σ hx hp₀ ((lastEntrant_of_not hno).symm.trans hl)) hno
  · obtain ⟨rfl, _, hw, _⟩ := hcomes.discarding hprogress
    exact hw.own (h.entering_entered o)
  · obtain ⟨rfl, _, hw, _⟩ := hcomes.discarding hprogress
    exact hc.left_none hu hl hw

/-- Whatever an open fails by, it comes to nothing. -/
theorem Fails.undone (hfails : h.Fails ev c what) (ho : h.Ordered none Q) (hs : h.Staged) (hf : h.Follows none none f)
    (hc : h.Claims g) (hspent : h.Spent g) (hwants : h.Wants c editor what) :
    h.Undone c editor.id (lastEntrant (h.actor ev) (h.begins? ev) g.last) (h.apply ev) := by
  have hh := ho.happens ev
  have hm := hh.moves ho hs hf hc.asking
  -- An open that begins in an event is the one that the event is about.
  have hstage (hseeks : h.Seeks ev c) :
      h.begins? ev = some (.openEditor editor) ∨ ∃ o, h.UnderWay c o := by
    refine hseeks.stage.imp_left fun hbegins => ?_
    obtain ⟨t, ht⟩ := Option.isSome_iff_exists.1 hbegins
    obtain ⟨d, hd, hx⟩ := hh.fresh ht
    obtain rfl := Option.some.inj (hd.symm.trans hseeks.acts)
    obtain ⟨x, hx', htask, _⟩ := hwants
    obtain rfl := Option.some.inj (hx.symm.trans hx')
    rw [ht, ← htask]
  cases hfails with
  | invalid hseeks hkey hpast =>
    rw [hseeks.acts] at hm ⊢
    refine hm.undone hs hc hwants (hstage hseeks) hseeks.kept fun {_ o _} hwhat hcomes _ => ?_
    have hinvalid (hvalid : o.what.key.isValid = true) : False := by
      rw [hwhat, hkey] at hvalid
      cases hvalid
    cases hcomes with
    | waits _ hp =>
      rcases hp with ⟨σ, hp⟩ | ⟨_, hvalid⟩
      · exact absurd hp (hpast _ σ)
      · exact (hinvalid hvalid).elim
    | fails _ hentries hp => exact ⟨hentries, hp⟩
    | attaches hid | discards hid => exact (hinvalid hid.1).elim
  | refused hseeks hq hbefore hafter =>
    rw [hseeks.acts] at hm ⊢
    refine hm.undone hs hc hwants (hstage hseeks) hseeks.kept fun _ hcomes hlearns => ?_
    obtain rfl := (hlearns _ _ hq hafter).resolve_left hbefore
    cases hcomes with
    | fails _ hentries hp => exact ⟨hentries, hp⟩
  | @crashes i s v w hev hslot hwork hv =>
    subst hev hv
    obtain ⟨x, hx, htask, hr⟩ := hwants
    obtain ⟨_, hcrash⟩ := apply_crash hslot hwork
    have hreaches := hs v.call x hx
    rw [htask] at hreaches
    have hwaits := ho.waits v.call x nofun hx i s hslot v (Slot.mem_of_work hwork) rfl
    rw [hcrash]
    refine crash_undone hs hf hc hspent ⟨x, hx, htask, hr⟩ ?_
    rcases hwaits.open_stage hreaches with ⟨o, ho⟩ | ⟨e, token, σ, hp⟩
    · exact .inl ⟨o, (underWay_iff hx).2 ho⟩
    · exact .inr ⟨e, token, σ, by rw [progress?, hx, Option.map_some, hp]⟩

end Event

/-- What goes wrong with one editor stays with it, whatever happens next. -/
structure Contained (h : Host) (g : Entrants) : Prop where
  /-- The open of an editor without a server returns at once, and leaves the registry and all entries as they are. -/
  unfit : ∀ c editor, h.call? c = some ⟨.openEditor editor, .fresh⟩ → editor.Unfit →
    let h' := h.apply (.begin c)
    h'.progress? c = some (.ended .done) ∧ h'.registry = h.registry ∧ h'.attachments = h.attachments
  /-- An open that fails comes to nothing, and only its own entry goes. -/
  failing : ∀ ev c editor what, h.Wants c editor what → h.Fails ev c what →
    h.Undone c editor.id (entrants h (h.actor ev) (h.begins? ev) (h.apply ev) g).last (h.apply ev)
  /-- Whatever an open does, and whatever becomes of it, changes the slot of its key only, and while it gives the prior
  session of its editor back the one that this is of. -/
  confined : ∀ ev c editor what, h.Wants c editor what → h.actor ev = some c →
    h.registry.ChangesOnly (h.Touches c editor.id what.key) (h.apply ev).registry
  /-- What is done for an editor changes neither the entry of another nor the references that belong to that. -/
  others : ∀ ev c x e e', h.actor ev = some c → h.call? c = some x → x.task.editor? = some e → e' ≠ e →
    (h.apply ev).attachment? e' = h.attachment? e' ∧ ∀ id, (h.apply ev).share e' id = h.share e' id

section Main

theorem run_spent (bounds : Bounds) (events : List Event) :
    let h := (Host.new bounds).run events
    h.Backed ∧ h.Spent ((Host.new bounds).entrantsOf ⟨fun _ => none, fun _ => false⟩ events) := by
  have hnobody (c : CallId) (x : Call) (hx : (Host.new bounds).call? c = some x) : False := by
    cases (show (Host.new bounds).call? c = none from rfl).symm.trans hx
  have hall := run_chronicle bounds events (g := (⟨fun _ => none, fun _ => false⟩ : Entrants))
    (f := fun h e => entrants h (h.actor e) (h.begins? e) (h.apply e))
    (P := fun h g => ((∃ f, h.Follows none none f) ∧ h.Claims g) ∧ h.Backed ∧ h.Spent g)
    ⟨run_claims bounds [], fun c x _ _ _ _ _ hx => (hnobody c x hx).elim, fun c x _ _ _ hx => (hnobody c x hx).elim⟩
    fun h g e ho hs hh hP => ?_
  · exact hall.2
  · obtain ⟨⟨⟨f, hf⟩, hc⟩, hb, hspent⟩ := hP
    have hm := hh.moves ho hs hf hc.asking
    exact ⟨⟨⟨_, hh.follows ho hs hf⟩, hh.claims hs ho hf hc⟩, hh.backed hs hm hb, hh.spent hs hm hc hspent⟩

/-- In every run what goes wrong with one editor stays with it; and as long as only the lifecycle uses the registry, the
references to a connection are those of its holders. -/
theorem failures_contained (bounds : Bounds) (events : List Event) :
    let h := (Host.new bounds).run events
    h.Contained ((Host.new bounds).entrantsOf ⟨fun _ => none, fun _ => false⟩ events) ∧
      ((Host.new bounds).Within events → h.Accounted) := by
  intro h
  have hsettled : h.Settled False _ := (settled_new bounds).run events False.elim
  have ho := hsettled.ordered
  have hs : h.Staged := run_staged bounds events
  obtain ⟨⟨f, hf⟩, hc⟩ := run_claims bounds events
  obtain ⟨hb, hspent⟩ := run_spent bounds events
  refine ⟨⟨fun c editor hx hu => ?_, fun ev c editor what hwants hfails => ?_, fun ev c editor what hwants hacts => ?_,
    fun ev c x e e' hacts hx he hne => ?_⟩, fun hw => (run_books hw).accounted ho.sound⟩
  · rw [begin_unfit hx hu]
    exact ⟨progress?_setProgress (h := { h with nextToken := h.nextToken + 1 }) hx _, rfl, rfl⟩
  · exact hfails.undone ho hs hf hc hspent hwants
  · obtain ⟨x, hx, ht, hr⟩ := hwants
    have hh := ho.happens ev
    rw [hacts] at hh
    exact (hh.confined ho hs hc.asking hb hx ht hr).changesOnly ho.sound (hsettled.apply ev False.elim).ordered.sound
  · have hh := ho.happens ev
    have hf' := hh.follows ho hs hf
    rw [hacts] at hh
    have hentry := (hh.moves ho hs hf hc.asking).others hs hx he hne
    exact ⟨hentry, hh.others_share hs hx ho (hsettled.apply ev False.elim).ordered hf hf' hentry fun he' =>
      hne (Option.some.inj (he'.symm.trans he))⟩

/-- An editor is attached, and so is another. The first one is opened again in a project of its own, for which the
launcher is at work when its first server has been stopped. -/
def openedElsewhere : List Event :=
  [.call (.openEditor (editorIn 0 "/p")), .begin ⟨0⟩, .launched 0 (.ok ⟨none, none⟩),
    .call (.openEditor (editorIn 1 "/q")), .begin ⟨1⟩, .launched 1 (.ok ⟨none, none⟩),
    .call (.openEditor (editorIn 0 "/r")), .begin ⟨2⟩, .stopped 0]

theorem launcher_crashes_alone :
    let h := (Host.new default).run openedElsewhere
    let h' := h.apply (.crash 2)
    h'.progress? ⟨2⟩ = some (.ended .done) ∧ h'.attachment? ⟨0⟩ = none ∧
      h'.attachment? ⟨1⟩ = some (.attached ⟨1⟩) ∧ h'.share ⟨1⟩ ⟨1, 1⟩ = 1 ∧ h.Accounted := by
  intro h h'
  have hwithin : (Host.new default).Within openedElsewhere := by
    simp [openedElsewhere, Within, OfLifecycle, Task.OfEditor]
  obtain ⟨hcontained, haccounted⟩ := failures_contained default openedElsewhere
  have hundone := hcontained.failing (.crash 2) ⟨2⟩ (editorIn 0 "/r") _ ⟨_, rfl, rfl, rfl⟩ (.crashes rfl rfl rfl rfl)
  have hothers := hcontained.others (.crash 2) ⟨2⟩ _ ⟨0⟩ ⟨1⟩ rfl rfl rfl (by decide)
  refine ⟨hundone.returns, hundone.own (by decide), hothers.1.trans rfl, (hothers.2 ⟨1, 1⟩).trans rfl,
    haccounted hwithin⟩

end Main

end Host
end LanguageHost
