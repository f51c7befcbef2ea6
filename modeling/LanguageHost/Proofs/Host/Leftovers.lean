import LanguageHost.Proofs.Host.Entries
import LanguageHost.Proofs.Host.Teardown

/-! Whose the entry of an editor is. An entry that stands for an open under way is that of the last open to have
come into it, and outlives that only if it is given up. -/
namespace LanguageHost

/-- The task opens the editor, which is eligible for a server. -/
def Task.Enters (t : Task) (e : EditorId) : Prop :=
  ∃ editor what, t = .openEditor editor ∧ editor.resolve = .eligible what ∧ editor.id = e

/-- The call is an open of the editor that has begun and not ended. -/
def Call.opens (e : EditorId) : Call → Bool
  | ⟨.openEditor _, .fresh⟩ | ⟨.openEditor _, .ended _⟩ => false
  | ⟨.openEditor editor, _⟩ => editor.id = e
  | _ => false

/-- For every editor the open that was the last to come into its entry, and whether an open was given up while it
was on its way to a connection. -/
structure Entrants where
  last : EditorId → Option CallId
  cut : CallId → Bool

namespace Host

/-- Only an open of an editor that is eligible comes into the entry. -/
def lastEntrant (actor : Option CallId) (task : Option Task) (last : EditorId → Option CallId) (e : EditorId) :
    Option CallId :=
  match task with
  | some (.openEditor editor) =>
    match editor.resolve with
    | .eligible _ => if editor.id = e then actor else last e
    | .ineligible | .crashed => last e
  | _ => last e

/-- The call is an open that was under way and has been given up. -/
def cutsOff (h : Host) (c : CallId) (h' : Host) : Bool :=
  match (h.progress? c).bind Progress.opening?, h'.progress? c with
  | some _, some (.ended .dropped) => true
  | _, _ => false

def entrants (h : Host) (actor : Option CallId) (task : Option Task) (h' : Host) (g : Entrants) : Entrants :=
  ⟨lastEntrant actor task g.last, fun c => g.cut c || cutsOff h c h'⟩

/-- What is remembered of the entries in a run. -/
def entrantsOf (h : Host) (g : Entrants) (events : List Event) : Entrants :=
  h.chronicle (fun h e => entrants h (h.actor e) (h.begins? e) (h.apply e)) g events

/-- The open has come into the entry of its editor, and is on its way to a connection. -/
def UnderWay (h : Host) (c : CallId) (o : Opening) : Prop := (h.progress? c).bind Progress.opening? = some o

def NoOpen (h : Host) (e : EditorId) : Prop := ∀ x ∈ h.calls, x.opens e = false

instance (h : Host) (e : EditorId) : Decidable (h.NoOpen e) :=
  inferInstanceAs (Decidable (∀ x ∈ h.calls, x.opens e = false))

variable {h h' : Host} {g : Entrants} {f : Doings} {c : CallId} {x : Call} {e : EditorId} {o o' : Opening}
  {token : Nat} {b : Bool} {actor : Option CallId} {task : Option Task} {t : Task} {ans : Option Answer}
  {last : EditorId → Option CallId} {Q : Nat → Request → Prop}

structure Claims (h : Host) (g : Entrants) : Prop where
  /-- An entry that stands for an open is that of the last open to come into it, which is still under way or has been
  given up. -/
  pending : ∀ e token b, h.attachment? e = some (.pending token b) → ∃ c, g.last e = some c ∧
    (g.cut c = true ∨ ∃ o, h.UnderWay c o ∧ o.editor = e ∧ o.token = token)
  /-- The last open has the entry as long as there is one. -/
  latest : ∀ c o, h.UnderWay c o → g.last o.editor = some c →
    h.attachment? o.editor = none ∨ h.Entered o.editor o.token
  /-- An open that is not the last one has lost its entry for good. -/
  stale : ∀ c o, h.UnderWay c o → g.last o.editor ≠ some c → ¬h.Entered o.editor o.token
  asking : h.Asking

section Memory

theorem underWay_iff (hx : h.call? c = some x) : h.UnderWay c o ↔ x.progress.opening? = some o := by
  rw [UnderWay, progress?, hx, Option.map_some, Option.bind_some]

theorem UnderWay.call (hu : h.UnderWay c o) : ∃ x, h.call? c = some x ∧ x.progress.opening? = some o := by
  obtain ⟨p, hp, ho⟩ := Option.bind_eq_some_iff.1 hu
  obtain ⟨x, hx, rfl⟩ := Option.map_eq_some_iff.1 hp
  exact ⟨x, hx, ho⟩

theorem UnderWay.opens (hu : h.UnderWay c o) (hs : h.Staged) : ¬h.NoOpen o.editor := by
  obtain ⟨⟨t, p⟩, hx, ho⟩ := hu.call
  obtain ⟨editor, rfl, he, _⟩ := (hs c _ hx).opening ho
  intro hno
  have hquiet := hno _ (List.mem_of_getElem? hx)
  rcases Progress.opening?_eq_some ho with rfl | ⟨σ, rfl⟩ <;> simp [Call.opens, he] at hquiet

theorem lastEntrant_of_enters (ht : t.Enters e) : lastEntrant actor (some t) last e = actor := by
  obtain ⟨editor, what, rfl, hr, he⟩ := ht
  simp only [lastEntrant, hr]
  exact if_pos he

theorem lastEntrant_of_not (hno : ∀ t, task = some t → ¬t.Enters e) : lastEntrant actor task last e = last e := by
  unfold lastEntrant
  split
  · rename_i editor
    split
    · rename_i what hr
      exact if_neg fun he => hno _ rfl ⟨editor, what, rfl, hr, he⟩
    · rfl
    · rfl
  · rfl

end Memory

theorem Without.pending {e₀ : EditorId} {token₀ : Nat} (hw : h.Without e₀ token₀ h')
    (he : h'.attachment? e = some (.pending token b)) :
    h.attachment? e = some (.pending token b) ∧ ¬(e = e₀ ∧ token = token₀) := by
  by_cases hown : h.Entered e₀ token₀
  · have hne : e ≠ e₀ := by
      rintro rfl
      cases (hw.own hown).symm.trans he
    exact ⟨(hw.others e hne).symm.trans he, fun hboth => hne hboth.1⟩
  · have hsame := (hw.same hown e).symm.trans he
    refine ⟨hsame, ?_⟩
    rintro ⟨rfl, rfl⟩
    exact hown ⟨b, hsame⟩

namespace Comes

theorem others (hc : h.Comes c o ans h') (hne : e ≠ o.editor) : h'.attachment? e = h.attachment? e := by
  cases hc with
  | waits hsame => exact hsame e
  | fails _ hw | discards _ _ hw => exact hw.others e hne
  | attaches _ _ hentries => rw [hentries, if_neg hne]

/-- What a step of an open leaves pending was so before; and if it is the open's own entry then the open waits on. -/
theorem pending (hc : h.Comes c o ans h') (he : h'.attachment? e = some (.pending token b)) :
    h.attachment? e = some (.pending token b) ∧ (e = o.editor ∧ token = o.token → h'.UnderWay c o) := by
  cases hc with
  | waits hsame hp =>
    refine ⟨(hsame e).symm.trans he, fun _ => ?_⟩
    rcases hp with ⟨σ, hp⟩ | ⟨hp, _⟩ <;> rw [UnderWay, hp] <;> rfl
  | fails _ hw | discards _ _ hw =>
    obtain ⟨hsame, hno⟩ := hw.pending he
    exact ⟨hsame, fun hboth => absurd hboth hno⟩
  | attaches _ _ hentries =>
    rw [hentries] at he
    split at he
    · cases he
    · rename_i hne
      exact ⟨he, fun hboth => absurd hboth.1 hne⟩

theorem waited (hc : h.Comes c o ans h') (hu : h'.UnderWay c o') : o' = o ∧
    (∀ e, h'.attachment? e = h.attachment? e) ∧ (h'.progress? c = some (.opening o) → o.what.key.isValid = true) := by
  rw [UnderWay] at hu
  cases hc with
  | waits hsame hp =>
    rcases hp with ⟨σ, hp⟩ | ⟨hp, hvalid⟩ <;> rw [hp] at hu ⊢
    · exact ⟨(Option.some.inj hu).symm, hsame, fun hp => by cases hp⟩
    · exact ⟨(Option.some.inj hu).symm, hsame, fun _ => hvalid⟩
  | fails _ _ hp | attaches _ _ _ hp =>
    rw [hp] at hu
    cases hu
  | discards _ _ _ hp => rcases hp with hp | hp <;> rw [hp] at hu <;> cases hu

theorem superseded (hc : h.Comes c o ans h') (hno : ¬h.Entered o.editor o.token) (e : EditorId) :
    h'.attachment? e = h.attachment? e := by
  cases hc with
  | waits hsame => exact hsame e
  | fails _ hw | discards _ _ hw => exact hw.same hno e
  | attaches _ hown => exact absurd ⟨false, hown⟩ hno

end Comes

theorem not_underWay (hx : h.call? c = some ⟨t, .fresh⟩) : ¬h.UnderWay c o := by
  rw [underWay_iff hx]
  exact nofun

section Event
variable (hh : h.Happens actor task h') (hs : h.Staged) (hm : h.Moves actor task h')

include hh hs in
theorem UnderWay.stays (hu : h.UnderWay c o) (hne : actor ≠ some c) : h'.UnderWay c o := by
  obtain ⟨x, hx, ho⟩ := hu.call
  obtain ⟨_, d, hd, _, hw⟩ := hh.works hs
  have hcd : c ≠ d := by
    rintro rfl
    rcases hd with hd | ⟨_, hd⟩
    · exact hne hd
    · cases hx.symm.trans hd
  obtain ⟨x', hx', _, hsame⟩ := hw.call hx
  rw [underWay_iff hx', hsame hcd, ho]

include hh hs hm in
/-- Whoever is under way was so before, and has changed no entry, or has just come into the entry of its editor. It
waits for a connection only if that can be asked for. -/
theorem UnderWay.before (hu : h'.UnderWay c o) :
    (h.UnderWay c o ∧ (actor = some c → ∀ e, h'.attachment? e = h.attachment? e) ∨
      ∃ t, actor = some c ∧ task = some t ∧ t.Enters o.editor ∧ h'.Entered o.editor o.token) ∧
    (actor = some c → h'.progress? c = some (.opening o) → o.what.key.isValid = true) := by
  obtain ⟨x', hx', ho⟩ := hu.call
  rcases hh.call_back hs hx' with ⟨x, hx, htask, hsame⟩ | ⟨_, hfresh⟩
  · by_cases ha : actor = some c
    · subst ha
      obtain ⟨editor, hopen, _⟩ := (hh.staged hs c x' hx').opening ho
      cases hm with
      | still _ _ hcalls =>
        obtain ⟨p, hp, haside⟩ := hcalls c x rfl hx
        rw [UnderWay, hp] at hu
        cases haside.after.symm.trans hu
      | @opens _ _ editor what _ hx₀ hr hc =>
        obtain ⟨rfl, hentries, hvalid⟩ := hc.waited hu
        refine ⟨.inr ⟨_, rfl, rfl, ⟨editor, what, rfl, hr, rfl⟩, false, ?_⟩, fun _ => hvalid⟩
        rw [hentries, entering_attachment?, if_pos rfl]
      | goes hx₀ ho₀ hc =>
        obtain ⟨rfl, hentries, hvalid⟩ := hc.waited hu
        exact ⟨.inl ⟨(underWay_iff hx₀).2 ho₀, fun _ => hentries⟩, fun _ => hvalid⟩
      | dropped _ _ _ hp =>
        rw [UnderWay, hp] at hu
        cases hu
      | closes hx₀ | drains hx₀ =>
        obtain rfl := Option.some.inj (hx₀.symm.trans hx)
        cases htask.symm.trans hopen
    · obtain rfl := hsame ha
      exact ⟨.inl ⟨(underWay_iff hx).2 ho, fun he => absurd he ha⟩, fun he => absurd he ha⟩
  · rw [hfresh] at ho
    cases ho

include hm in
/-- An entry that is pending after an event is one that was there, or that of an open that has just come into it. An
open that has not lost its entry waits on, or has been given up. -/
theorem Moves.pending (he : h'.attachment? e = some (.pending token b)) :
    ((∃ b', h.attachment? e = some (.pending token b')) ∧ (∀ t, task = some t → ¬t.Enters e) ∧
      ∀ c o, actor = some c → h.UnderWay c o → o.editor = e → o.token = token →
        h'.UnderWay c o ∨ h'.progress? c = some (.ended .dropped)) ∨
    ∃ c t o, actor = some c ∧ task = some t ∧ t.Enters e ∧ token = h.nextToken ∧
      h'.UnderWay c o ∧ o.editor = e ∧ o.token = token := by
  cases hm with
  | still hentries htask hcalls =>
    refine .inl ⟨⟨b, (hentries e).symm.trans he⟩, ?_, fun c o hc hu _ _ => ?_⟩
    · rintro t ht ⟨editor, what, rfl, hr, _⟩
      exact htask editor what ht hr
    · obtain ⟨x, hx, ho⟩ := hu.call
      obtain ⟨_, _, haside⟩ := hcalls c x hc hx
      cases ho.symm.trans haside.before
  | @opens _ c editor what ans hx hr hc =>
    obtain ⟨hsame, hwaits⟩ := hc.pending he
    rw [entering_attachment?] at hsame
    split at hsame
    · rename_i heq
      cases hsame
      exact .inr ⟨c, _, _, rfl, rfl, ⟨editor, what, rfl, hr, heq.symm⟩, rfl, hwaits ⟨heq, rfl⟩, heq.symm, rfl⟩
    · rename_i hne
      refine .inl ⟨⟨b, hsame⟩, ?_, fun d o hd hu _ _ => ?_⟩
      · rintro t ht ⟨editor', _, rfl, _, he'⟩
        obtain rfl := Task.openEditor.inj (Option.some.inj ht)
        exact hne he'.symm
      · obtain rfl := Option.some.inj hd
        exact absurd hu (not_underWay hx)
  | goes hx ho hc =>
    obtain ⟨hsame, hwaits⟩ := hc.pending he
    refine .inl ⟨⟨b, hsame⟩, (fun _ ht => by cases ht), fun d o' hd hu he' ht => .inl ?_⟩
    obtain rfl := Option.some.inj hd
    obtain rfl := Option.some.inj (ho.symm.trans ((underWay_iff hx).1 hu))
    exact hwaits ⟨he'.symm, ht.symm⟩
  | dropped hx ho hentries hp =>
    refine .inl ⟨⟨b, (hentries e).symm.trans he⟩, (fun _ ht => by cases ht), fun d _ hd _ _ _ => .inr ?_⟩
    rwa [← Option.some.inj hd]
  | @closes _ c e₀ hx hothers hown =>
    have hbefore : ∃ b', h.attachment? e = some (.pending token b') := by
      by_cases heq : e = e₀
      · subst heq
        rcases hown with ⟨_, hnone⟩ | ⟨token', b', hb', htrue⟩
        · cases hnone.symm.trans he
        · cases htrue.symm.trans he
          exact ⟨b', hb'⟩
      · exact ⟨b, (hothers e heq).symm.trans he⟩
    refine .inl ⟨hbefore, ?_, fun d _ hd hu _ _ => ?_⟩
    · rintro t ht ⟨_, _, rfl, _⟩
      cases ht
    · obtain rfl := Option.some.inj hd
      exact absurd hu (not_underWay hx)
  | drains _ hentries => cases (hentries e).symm.trans he

include hm in
/-- When no open comes into the entry of an editor, or has its connection there, the entry stays, goes, or is told of
a close. -/
theorem Moves.entry (hno : ∀ t, task = some t → ¬t.Enters e)
    (hother : ∀ c o, actor = some c → h.UnderWay c o → o.editor = e → h.Entered e o.token →
      ∀ e, h'.attachment? e = h.attachment? e) :
    h'.attachment? e = h.attachment? e ∨ h'.attachment? e = none ∨
      ∃ token b, h.attachment? e = some (.pending token b) ∧ h'.attachment? e = some (.pending token true) := by
  cases hm with
  | still hentries | dropped _ _ hentries => exact .inl (hentries e)
  | @opens _ _ editor what _ _ hr hc =>
    have hne : e ≠ editor.id := fun he => hno _ rfl ⟨editor, what, rfl, hr, he.symm⟩
    rw [hc.others hne, entering_attachment?, if_neg hne]
    exact .inl rfl
  | @goes _ c x o _ hx ho hc =>
    by_cases he : e = o.editor
    · by_cases hentered : h.Entered e o.token
      · exact .inl (hother c o rfl ((underWay_iff hx).2 ho) he.symm hentered e)
      · exact .inl (hc.superseded (he ▸ hentered) e)
    · exact .inl (hc.others he)
  | @closes _ c e₀ hx hothers hclosed =>
    by_cases he : e = e₀
    · subst he
      exact .inr (hclosed.imp_left And.right)
    · exact .inl (hothers e he)
  | drains _ hentries => exact .inr (.inl (hentries e))

include hm in
theorem Moves.absent (hnone : h.attachment? e = none) (hno : ∀ t, task = some t → ¬t.Enters e) :
    h'.attachment? e = none := by
  have hentry := hm.entry hno fun _ _ _ _ _ ⟨_, hb⟩ => by cases hnone.symm.trans hb
  rcases hentry with hsame | hgone | ⟨_, _, hb, _⟩
  · rw [hsame, hnone]
  · exact hgone
  · cases hnone.symm.trans hb

include hh in
theorem Happens.fresh (ht : task = some t) : ∃ c, actor = some c ∧ h.call? c = some ⟨t, .fresh⟩ := by
  cases hh with
  | begins hx =>
    obtain rfl := Option.some.inj ht
    exact ⟨_, rfl, hx⟩
  | calm | made | wrapped | waits | answered | dropped | crashed => cases ht

include hh hs in
theorem Happens.claims (horder : h.Ordered none Q) (hf : h.Follows none none f) (hc : h.Claims g) :
    h'.Claims (entrants h actor task h' g) := by
  have hm := hh.moves horder hs hf hc.asking
  have hlast {e : EditorId} (hno : ∀ t, task = some t → ¬t.Enters e) :
      (entrants h actor task h' g).last e = g.last e := lastEntrant_of_not hno
  have hentrant {e : EditorId} {t : Task} (ht : task = some t) (he : t.Enters e) :
      (entrants h actor task h' g).last e = actor := by
    subst ht
    exact lastEntrant_of_enters he
  refine ⟨fun e token b he => ?_, fun c o hu hl => ?_, fun c o hu hl => ?_, fun c x o hx hp => ?_⟩
  · rcases hm.pending he with ⟨⟨b', hb'⟩, hno, hown⟩ | ⟨c, t, o, rfl, rfl, ht, _, hu, ho⟩
    · obtain ⟨c, hl, hclaim⟩ := hc.pending e token b' hb'
      refine ⟨c, (hlast hno).trans hl, ?_⟩
      rcases hclaim with hcut | ⟨o, hu, heq, htoken⟩
      · exact .inl (by simp [entrants, hcut])
      · by_cases ha : actor = some c
        · rcases hown c o ha hu heq htoken with hu' | hp
          · exact .inr ⟨o, hu', heq, htoken⟩
          · have hcuts : cutsOff h c h' = true := by
              rw [UnderWay] at hu
              simp only [cutsOff, hp, hu]
            exact .inl (by simp [entrants, hcuts])
        · exact .inr ⟨o, hu.stays hh hs ha, heq, htoken⟩
    · exact ⟨c, hentrant rfl ht, .inr ⟨o, hu, ho⟩⟩
  · rcases (hu.before hh hs hm).1 with ⟨hu₀, hquiet⟩ | ⟨_, _, _, _, hentered⟩
    · have hno (t : Task) (ht : task = some t) (henters : t.Enters o.editor) : False := by
        obtain ⟨d, rfl, hx⟩ := hh.fresh ht
        obtain rfl := Option.some.inj ((hentrant ht henters).symm.trans hl)
        exact not_underWay hx hu₀
      rw [hlast hno] at hl
      -- Another open under way is stale, and has no entry to take away.
      have hentry := hm.entry hno fun d o' hd hu' he hentered => by
        have hl' : g.last o'.editor = some d := by
          by_contra hne
          exact hc.stale d o' hu' hne (he ▸ hentered)
        obtain rfl := Option.some.inj ((he ▸ hl').symm.trans hl)
        exact hquiet hd
      rcases hentry with hsame | hgone | ⟨token, b, hb, hclosed⟩
      · rw [Entered, hsame]
        exact hc.latest c o hu₀ hl
      · exact .inl hgone
      · rcases hc.latest c o hu₀ hl with hnone | ⟨b', hb'⟩
        · cases hnone.symm.trans hb
        · cases hb'.symm.trans hb
          exact .inr ⟨true, hclosed⟩
    · exact .inr hentered
  · rintro ⟨b, hb⟩
    rcases (hu.before hh hs hm).1 with ⟨hu₀, _⟩ | ⟨t, rfl, ht, henters, _⟩
    · rcases hm.pending hb with ⟨hb', hno, _⟩ | ⟨_, _, _, _, _, _, htoken, _⟩
      · exact hc.stale c o hu₀ (hlast hno ▸ hl) hb'
      · obtain ⟨x, hx, ho⟩ := hu₀.call
        exact absurd htoken (Nat.ne_of_lt ((hf.stands c x (by simp) hx).opening o ho).1)
    · exact hl (hentrant ht henters)
  · have hu : h'.UnderWay c o := (underWay_iff hx).2 (by rw [hp]; rfl)
    by_cases ha : actor = some c
    · exact (hu.before hh hs hm).2 ha (by rw [progress?, hx, Option.map_some, hp])
    · rcases hh.call_back hs hx with ⟨x₀, hx₀, _, hsame⟩ | ⟨_, hfresh⟩
      · exact hc.asking c x₀ o hx₀ (hsame ha ▸ hp)
      · cases hp.symm.trans hfresh

end Event

section Main

theorem run_claims (bounds : Bounds) (events : List Event) :
    (∃ f, ((Host.new bounds).run events).Follows none none f) ∧
      ((Host.new bounds).run events).Claims ((Host.new bounds).entrantsOf ⟨fun _ => none, fun _ => false⟩ events) := by
  refine run_chronicle bounds events (P := fun h g => (∃ f, h.Follows none none f) ∧ h.Claims g)
    ⟨⟨_, run_follows bounds []⟩, ?_⟩ fun h g e ho hs hh hP => ?_
  · have hempty (e : EditorId) : (Host.new bounds).attachment? e = none := rfl
    have hnobody (c : CallId) : (Host.new bounds).call? c = none := rfl
    have hidle (c : CallId) (o : Opening) (hu : (Host.new bounds).UnderWay c o) : False := by
      obtain ⟨x, hx, _⟩ := hu.call
      cases (hnobody c).symm.trans hx
    refine ⟨fun e token b he => ?_, fun c o hu => (hidle c o hu).elim, fun c o hu => (hidle c o hu).elim,
      fun c x o hx => ?_⟩
    · cases (hempty e).symm.trans he
    · cases (hnobody c).symm.trans hx
  · obtain ⟨⟨f, hf⟩, hc⟩ := hP
    exact ⟨⟨_, hh.follows ho hs hf⟩, hh.claims hs ho hf hc⟩

theorem Settled.absent {K : EditorId → Option ServerKey} {after : List Event} (hs : h.Settled False K)
    (hstaged : h.Staged) (hf : h.Follows none none f) (hc : h.Claims g) (hnone : h.attachment? e = none)
    (hbegins : h.Begins (fun t => ¬t.Enters e) after) : (h.run after).attachment? e = none := by
  induction after generalizing h K f g with
  | nil => exact hnone
  | cons event after ih =>
    have hh := hs.ordered.happens event
    exact ih (hs.apply event False.elim) (hh.staged hstaged) (hh.follows hs.ordered hstaged hf)
      (hh.claims hstaged hs.ordered hf hc) ((hh.moves hs.ordered hstaged hf hc.asking).absent hnone hbegins.1)
      hbegins.2

/-- At every moment of a run at which no open of an editor is in progress, unless the last one that came into the entry
was given up on its way to a connection, the editor is attached or has no entry; and if it is closed then, it has none
from the first step of the close on until it is opened again. -/
theorem entries_settled (bounds : Bounds) (events : List Event) (e : EditorId) :
    let h := (Host.new bounds).run events
    let g := (Host.new bounds).entrantsOf ⟨fun _ => none, fun _ => false⟩ events
    h.NoOpen e → (∀ c, g.last e = some c → g.cut c = false) →
    (h.attachment? e = none ∨ ∃ σ, h.attachment? e = some (.attached σ)) ∧
    ∀ c after, h.call? c = some ⟨.closeEditor e, .fresh⟩ → (h.apply (.begin c)).Begins (fun t => ¬t.Enters e) after →
      (h.run (.begin c :: after)).attachment? e = none := by
  intro h g hno hcut
  have hs : h.Settled False _ := (settled_new bounds).run events False.elim
  have hstaged : h.Staged := run_staged bounds events
  obtain ⟨⟨f, hf⟩, hc⟩ := run_claims bounds events
  have hsettled : h.attachment? e = none ∨ ∃ σ, h.attachment? e = some (.attached σ) := by
    cases he : h.attachment? e with
    | none => exact .inl rfl
    | some a =>
      cases a with
      | attached σ => exact .inr ⟨σ, rfl⟩
      | pending token b =>
        obtain ⟨c, hl, hgiven | ⟨o, hu, rfl, _⟩⟩ := hc.pending e token b he
        · cases (hcut c hl).symm.trans hgiven
        · exact absurd hno (hu.opens hstaged)
  refine ⟨hsettled, fun c after hx hbegins => ?_⟩
  have hh := hs.ordered.happens (.begin c)
  refine (hs.apply (.begin c) False.elim).absent (hh.staged hstaged) (hh.follows hs.ordered hstaged hf)
    (hh.claims hstaged hs.ordered hf hc) ?_ hbegins
  rw [apply_begin hx]
  rcases (closeEditor_entries hx e).2 with ⟨_, hgone⟩ | ⟨token, b, hb, _⟩
  · exact hgone
  · rcases hsettled with hnone | ⟨σ, hσ⟩
    · cases hnone.symm.trans hb
    · cases hσ.symm.trans hb

/-- An editor is opened and that given up while its server is launched; it is opened again, and is to be closed. -/
def openedAnew : List Event :=
  [.call (.openEditor (editorIn 0 "/p")), .begin ⟨0⟩, .drop ⟨0⟩, .call (.openEditor (editorIn 0 "/p")), .begin ⟨1⟩,
    .launched 0 (.ok ⟨none, none⟩), .call (.closeEditor ⟨0⟩)]

theorem opened_anew :
    let h := (Host.new default).run openedAnew
    let g := (Host.new default).entrantsOf ⟨fun _ => none, fun _ => false⟩ openedAnew
    h.NoOpen ⟨0⟩ ∧ g.last ⟨0⟩ = some ⟨1⟩ ∧ g.cut ⟨0⟩ = true ∧ g.cut ⟨1⟩ = false ∧
      h.attachment? ⟨0⟩ = some (.attached ⟨0⟩) ∧ (h.run [.begin ⟨2⟩, .stopped 0]).attachment? ⟨0⟩ = none := by
  intro h g
  have hno : h.NoOpen ⟨0⟩ := by decide
  have hl : g.last ⟨0⟩ = some ⟨1⟩ := by decide
  have hcut : g.cut ⟨1⟩ = false := by decide
  obtain ⟨_, hcloses⟩ := entries_settled default openedAnew ⟨0⟩ hno fun c hc => by
    obtain rfl := Option.some.inj (hl.symm.trans hc)
    exact hcut
  exact ⟨hno, hl, by decide, hcut, rfl, hcloses ⟨2⟩ [.stopped 0] rfl (begins_nothing (by simp) _)⟩

/-- An open that is given up while its server is launched leaves its entry pending for good. Nobody is left to take it
away, and a close only marks it. -/
theorem half_open_left :
    let h := (Host.new default).run (openedAnew.take 3)
    h.NoOpen ⟨0⟩ ∧ h.progress? ⟨0⟩ = some (.ended .dropped) ∧ h.attachment? ⟨0⟩ = some (.pending 0 false) ∧
      let h' := h.run [.call (.closeEditor ⟨0⟩), .begin ⟨1⟩]
      h'.progress? ⟨1⟩ = some (.ended .done) ∧ h'.attachment? ⟨0⟩ = some (.pending 0 true) :=
  ⟨by decide, rfl, rfl, rfl, rfl⟩

/-- An editor that is opened again while a close of it waits for the shutdown of the server is attached when the close
has ended. -/
example :
    let h := (Host.new default).run [.call (.openEditor (editorIn 0 "/p")), .begin ⟨0⟩, .launched 0 (.ok ⟨none, none⟩),
      .call (.closeEditor ⟨0⟩), .begin ⟨1⟩, .call (.openEditor (editorIn 0 "/q")), .begin ⟨2⟩,
      .launched 1 (.ok ⟨none, none⟩), .stopped 0]
    h.progress? ⟨1⟩ = some (.ended .done) ∧ h.attachment? ⟨0⟩ = some (.attached ⟨1⟩) := ⟨rfl, rfl⟩

end Main

end Host
end LanguageHost
