import LanguageHost.Proofs.Host.Errands

/-! Sessions give their reference back once, however often that is asked for and interrupted: one call is
sent, another in its stead if that was given up, and one turn at most of the two counts. -/
namespace LanguageHost

/-- What has become of the reference of a session. -/
inductive Custody where
  | held
  /-- It counts as closed since the lifecycle was shut down, and nobody has been sent. -/
  | forgotten
  /-- A call was sent to give the reference back, and a new one in its stead if that was interrupted. -/
  | sent (first : Errand) (second : Option Errand)

namespace Host

/-- Everything noted at the slot of a connection. -/
def logAt (h : Host) (id : ConnectionId) : List Record := (h.registry.slots[id.slot]?.map Slot.log).getD []

instance (h : Host) (c : CallId) (σ : SessionId) : Decidable (h.Carries c σ) :=
  inferInstanceAs (Decidable ((h.progress? c).bind releasing? = some σ))

/-- Nobody is sent as long as the session is open. The call by whose doing it is closed has been sent, but for
the shutdown of the lifecycle. -/
def sendOff (σ : SessionId) (actor : Option CallId) (task : Option Task) (h' : Host) : Custody :=
  match h'.session? σ, actor, task with
  | some ⟨_, _, true⟩, some _, some .shutdownLifecycle => .forgotten
  | some ⟨id, _, true⟩, some c, _ => .sent (.of c id (h'.logAt id)) none
  | _, _, _ => .held

/-- A call that is interrupted while it gives the session back is replaced by the new call that it leaves. -/
def replace (σ : SessionId) (h : Host) (actor : Option CallId) (h' : Host) : Option Errand :=
  match h'.connectionOf? σ, actor with
  | some id, some c =>
    if h.Carries c σ ∧ h.calls.length < h'.calls.length then some ⟨⟨h.calls.length⟩, h'.logAt id⟩ else none
  | _, _ => none

/-- What an event makes of the reference of a session, by its actor and what that begins with. -/
def custody (σ : SessionId) (h : Host) (actor : Option CallId) (task : Option Task) (h' : Host) : Custody → Custody
  | .held => sendOff σ actor task h'
  | .sent e none => .sent e (replace σ h actor h')
  | k => k

variable {h h' : Host} {c d : CallId} {σ : SessionId} {id : ConnectionId} {actor : Option CallId} {task : Option Task}
  {e r : Errand} {x : Call} {Q : Nat → Request → Prop} {k : Custody}

section Custody

theorem sendOff_open (hopen : ¬h'.Closed σ) : sendOff σ actor task h' = .held := by
  cases hy : h'.session? σ with
  | none => simp [sendOff, hy]
  | some y =>
    obtain ⟨_, _, closed⟩ := y
    cases closed with
    | true => exact absurd ⟨_, hy, rfl⟩ hopen
    | false => simp [sendOff, hy]

theorem sendOff_shutdown (hclosed : h'.Closed σ) : sendOff σ (some c) (some .shutdownLifecycle) h' = .forgotten := by
  obtain ⟨⟨_, _, closed⟩, hy, hc⟩ := hclosed
  obtain rfl : closed = true := hc
  simp [sendOff, hy]

theorem sendOff_sent (hclosed : h'.Closed σ) (hid : h'.connectionOf? σ = some id)
    (ht : task ≠ some .shutdownLifecycle) :
    sendOff σ (some c) task h' = .sent (.of c id (h'.logAt id)) none := by
  obtain ⟨⟨id', uri, closed⟩, hy, hc⟩ := hclosed
  obtain rfl : closed = true := hc
  obtain rfl : id' = id := by simpa [connectionOf?, hy] using hid
  simp [sendOff, hy]

theorem replace_none (hk : ∀ c, actor = some c → h.Carries c σ → h'.calls.length ≤ h.calls.length) :
    replace σ h actor h' = none := by
  unfold replace
  split
  · exact if_neg fun hc => Nat.not_lt.2 (hk _ rfl hc.1) hc.2
  · rfl

theorem replace_some (hc : h.Carries c σ) (hlt : h.calls.length < h'.calls.length)
    (hid : h'.connectionOf? σ = some id) :
    replace σ h (some c) h' = some ⟨⟨h.calls.length⟩, h'.logAt id⟩ := by
  simp [replace, hid, hc, hlt]

end Custody

/-- A call that was sent alone: its errand is open as long as it carries the session, and has since come to
its turn and been answered. -/
def Alone (h : Host) (σ : SessionId) (id : ConnectionId) (e : Errand) : Prop :=
  ∃ s : Slot, h.registry.slots[id.slot]? = some s ∧ ((h.Carries e.call σ ∧ e.Open s.log) ∨
    (¬h.Carries e.call σ ∧
      ∃ t older, e.Ends s.log (.turn t) older ∧ t.request = .release (some id) ∧ t.answer ≠ none))

/-- A call that was given up, so that another was made: what turn it had it did not bring to an answer. -/
def Replaced (h : Host) (id : ConnectionId) (e r : Errand) : Prop :=
  ∃ s x, h.StandsIn id r s x ∧ (∃ between, r.before = between ++ e.before) ∧
    ∀ t older, e.Ends s.log (.turn t) older →
      e.Ends r.before (.turn t) older ∧ t.request = .release (some id) ∧ t.answer = none

/-- The calls that know of a session are those that were sent. -/
structure Tended (h : Host) (σ : SessionId) (k : Custody) : Prop where
  held : k = .held ↔ ¬h.Closed σ
  carries : ∀ c, h.Carries c σ → ∃ e, k = .sent e none ∧ e.call = c
  released : ∀ c, h.ReleasedBy σ c → ∃ e, k = .sent e none ∧ e.call = c
  alone : ∀ e id, k = .sent e none → h.connectionOf? σ = some id → Slot.Log.Acquired id e.before → h.Alone σ id e
  gone : ∀ e r, k = .sent e (some r) → ∃ x result, h.call? e.call = some x ∧ x.progress = .ended result
  replaced : ∀ e r id, k = .sent e (some r) → h.connectionOf? σ = some id → Slot.Log.Acquired id e.before →
    h.Replaced id e r

namespace Tended

theorem closed (hk : h.Tended σ k) (hsent : k ≠ .held) : h.Closed σ := Classical.byContradiction fun hopen =>
  hsent (hk.held.2 hopen)

theorem carrier (hk : h.Tended σ (.sent e none)) (hc : h.Carries d σ) : e.call = d := by
  obtain ⟨e', he, hd⟩ := hk.carries d hc
  rw [(Custody.sent.inj he).1]
  exact hd

theorem releaser (hk : h.Tended σ (.sent e none)) (hr : h.ReleasedBy σ d) : e.call = d := by
  obtain ⟨e', he, hd⟩ := hk.released d hr
  rw [(Custody.sent.inj he).1]
  exact hd

/-- Unless a call was sent alone nobody is in the middle of giving the session back, nor has returned that
it did. -/
theorem not_carried (hk : h.Tended σ k) (hnot : ∀ e, k ≠ .sent e none) (d : CallId) : ¬h.Carries d σ := fun hc => by
  obtain ⟨e, he, _⟩ := hk.carries d hc
  exact hnot e he

theorem not_released (hk : h.Tended σ k) (hnot : ∀ e, k ≠ .sent e none) (d : CallId) : ¬h.ReleasedBy σ d := fun hr => by
  obtain ⟨e, he, _⟩ := hk.released d hr
  exact hnot e he

end Tended

theorem Closed.isSome (hclosed : h.Closed σ) : (h.session? σ).isSome := by
  obtain ⟨y, hy, _⟩ := hclosed
  rw [hy]
  rfl

section Works
variable {t : Task} (hw : Works t c h h')
include hw

theorem Works.closed (hclosed : h.Closed σ) : h'.Closed σ := by
  obtain ⟨y, hy, hc⟩ := hclosed
  obtain ⟨y', hy', _, hkeep⟩ := hw.session hy
  exact ⟨y', hy', hkeep hc⟩

theorem Works.connectionOf?_eq (hsome : (h.session? σ).isSome) : h'.connectionOf? σ = h.connectionOf? σ := by
  obtain ⟨y, hy⟩ := Option.isSome_iff_exists.1 hsome
  obtain ⟨y', hy', hc, _⟩ := hw.session hy
  simp [connectionOf?, hy, hy', hc]

end Works

section Tended
variable (hh : h.Happens actor task h') (hs : h.Staged)
include hh hs

theorem Happens.closed (hclosed : h.Closed σ) : h'.Closed σ := by
  obtain ⟨t, d, _, _, hw⟩ := hh.works hs
  exact hw.closed hclosed

theorem Happens.connectionOf?_eq (hsome : (h.session? σ).isSome) : h'.connectionOf? σ = h.connectionOf? σ := by
  obtain ⟨t, d, _, _, hw⟩ := hh.works hs
  exact hw.connectionOf?_eq hsome

theorem Happens.carries_back (hclosed : h.Closed σ) (hc : h'.Carries d σ) : h.Carries d σ := by
  rcases hh.sends hs σ with ⟨_, hcar⟩ | ⟨_, _, _, hcar⟩ | ⟨c, _, _, hsends, hcar⟩
  · exact hcar d hc
  · exact hcar d hc
  · by_cases hd : d = c
    · subst hd
      cases hsends with
      | stays _ hnot => exact absurd hc hnot
      | carries hopen | done hopen => exact absurd hclosed hopen
    · exact hcar d hd hc

theorem Happens.released_back (hclosed : h.Closed σ) (hr : h'.ReleasedBy σ c) : h.ReleasedBy σ c ∨ h.Carries c σ :=
  (hh.releasedBy hs hr).imp_right fun hr => hr.resolve_right fun hr => hr.2.2.1 hclosed

theorem Happens.tended_held (hk : h.Tended σ .held) : h'.Tended σ (sendOff σ actor task h') := by
  have hopen : ¬h.Closed σ := hk.held.1 rfl
  have hno := hk.not_carried nofun
  have hnew {d : CallId} (hr : h'.ReleasedBy σ d) : actor = some d ∧ task = some (.releaseSession σ) ∧ h'.Closed σ := by
    rcases hh.releasedBy hs hr with hr | hc | ⟨ha, ht, _, hclosed⟩
    · exact absurd hr (hk.not_released nofun d)
    · exact absurd hc (hno d)
    · exact ⟨ha, ht, hclosed⟩
  by_cases hclosed : h'.Closed σ
  · rcases hh.sends hs σ with ⟨hkeep, _⟩ | ⟨c, rfl, rfl, hcar⟩ | ⟨c, rfl, ht, hsends, hcar⟩
    · exact absurd (hkeep hclosed) hopen
    · rw [sendOff_shutdown hclosed]
      refine ⟨by simp [hclosed], fun d hc => absurd (hcar d hc) (hno d), fun d hr => ?_, nofun, nofun, nofun⟩
      cases (hnew hr).2.1
    · have hsent {id : ConnectionId} (hid : h'.connectionOf? σ = some id)
          (halone : ∀ s : Slot, h'.registry.slots[id.slot]? = some s → h'.Alone σ id (.of c id s.log)) :
          h'.Tended σ (sendOff σ (some c) task h') := by
        rw [sendOff_sent hclosed hid ht]
        refine ⟨by simp [hclosed], fun d hc => ⟨_, rfl, ?_⟩, fun d hr => ⟨_, rfl, Option.some.inj (hnew hr).1⟩, ?_,
          nofun, nofun⟩
        · exact (Classical.byContradiction fun hd => hno d (hcar d (fun he => hd he.symm) hc) : c = d)
        · rintro e id' he hid' hacq
          obtain ⟨rfl, _⟩ := Custody.sent.inj he
          obtain rfl := Option.some.inj (hid.symm.trans hid')
          unfold logAt at hacq ⊢
          cases hslot : h'.registry.slots[id.slot]? with
          | none =>
            obtain ⟨t, hmem, _⟩ := hacq
            simp [hslot, Errand.of] at hmem
          | some s => exact halone s hslot
      cases hsends with
      | stays hkeep => exact absurd (hkeep hclosed) hopen
      | carries _ _ hid hp hlog => exact hsent hid fun s hslot => ⟨s, hslot, .inl ⟨hp, hlog s hslot⟩⟩
      | done _ _ hid hp hslot hends hr ha =>
        refine hsent hid fun s' hslot' => ?_
        obtain rfl := Option.some.inj (hslot.symm.trans hslot')
        exact ⟨_, hslot, .inr ⟨hp, _, _, hends, hr, ha⟩⟩
  · rw [sendOff_open hclosed]
    refine ⟨by simp [hclosed], fun d hc => ?_, fun d hr => absurd (hnew hr).2.2 hclosed, nofun, nofun, nofun⟩
    rcases hh.sends hs σ with ⟨_, hcar⟩ | ⟨_, _, _, hcar⟩ | ⟨c, _, _, hsends, hcar⟩
    · exact absurd (hcar d hc) (hno d)
    · exact absurd (hcar d hc) (hno d)
    · by_cases hd : d = c
      · subst hd
        cases hsends with
        | stays _ hnot => exact absurd hc hnot
        | carries _ hcl | done _ hcl => exact absurd hcl hclosed
      · exact absurd (hcar d hd hc) (hno d)

/-- Where nobody was sent alone, nobody comes to be in the middle of giving the session back, or to return
that it did. -/
theorem Happens.not_carried (hk : h.Tended σ k) (hsent : k ≠ .held) (hnot : ∀ e, k ≠ .sent e none) (d : CallId) :
    ¬h'.Carries d σ :=
  fun hc => hk.not_carried hnot d (hh.carries_back hs (hk.closed hsent) hc)

theorem Happens.not_released (hk : h.Tended σ k) (hsent : k ≠ .held) (hnot : ∀ e, k ≠ .sent e none) (d : CallId) :
    ¬h'.ReleasedBy σ d :=
  fun hr => (hh.released_back hs (hk.closed hsent) hr).elim (hk.not_released hnot d) (hk.not_carried hnot d)

theorem Happens.tended_forgotten (hk : h.Tended σ .forgotten) : h'.Tended σ .forgotten :=
  ⟨by simp [hh.closed hs (hk.closed nofun)], fun d hc => absurd hc (hh.not_carried hs hk nofun nofun d),
    fun d hr => absurd hr (hh.not_released hs hk nofun nofun d), nofun, nofun, nofun⟩

theorem Happens.alone (hclosed : h.Closed σ) (hact : ¬(actor = some e.call ∧ h.Carries e.call σ))
    (ha : h.Alone σ id e) : h'.Alone σ id e := by
  obtain ⟨s, hslot, ⟨hc, hopen⟩ | ⟨hnot, t, older, hends, hrest⟩⟩ := ha
  · obtain ⟨p, hprogress, hp⟩ := Option.bind_eq_some_iff.1 hc
    obtain ⟨x, hx, rfl⟩ := Option.map_eq_some_iff.1 hprogress
    obtain ⟨hx', hslots⟩ := hh.leaves_be hs hx (.inl fun ha => hact ⟨ha, hc⟩)
    obtain ⟨s', newer, hslot', hlog, hnewer⟩ := hslots _ s hslot
    refine ⟨s', hslot', .inl ⟨?_, ?_⟩⟩
    · rwa [Carries, progress?, hx']
    · rw [hlog]
      exact hopen.later fun r hr he => absurd he (hnewer r hr)
  · obtain ⟨_, _, _, _, hw⟩ := hh.works hs
    obtain ⟨s', hslot', hg, _⟩ := hw.slot hslot
    obtain ⟨newer, hlog, _⟩ := hg.log
    exact ⟨s', hslot', .inr ⟨fun hc => hnot (hh.carries_back hs hclosed hc), t, older, hlog ▸ hends.later newer, hrest⟩⟩

omit hh hs in
/-- The call that is given up is replaced by a new one, which has had no turn yet. -/
theorem Ordered.replaced (ho : h.Ordered none Q) (hc : h.Carries e.call σ) {s s' : Slot} {newer : List Record}
    (hslot : h.registry.slots[id.slot]? = some s) (hopen : e.Open s.log)
    (hslot' : h'.registry.slots[id.slot]? = some s') (hlog : s'.log = newer ++ s.log)
    (hturns : ∀ t, .turn t ∈ newer → t.call = e.call ∧ t.request = .release (some id) ∧ t.answer = none)
    (hnew : h'.call? ⟨h.calls.length⟩ = some ⟨.releaseConnection id, .fresh⟩) :
    h'.Replaced id e ⟨⟨h.calls.length⟩, s'.log⟩ := by
  have hold {t : Turn} (ht : .turn t ∈ s'.log) : t.call ≠ ⟨h.calls.length⟩ := by
    have hthere : (h.call? t.call).isSome := by
      rw [hlog] at ht
      rcases List.mem_append.1 ht with ht | ht
      · rw [(hturns t ht).1]
        exact hc.there
      · obtain ⟨y, hy, _⟩ := ho.asked id.slot s hslot t (Slot.mem_turns.2 ht)
        rw [hy]
        rfl
    intro he
    obtain ⟨y, hy⟩ := Option.isSome_iff_exists.1 hthere
    rw [he] at hy
    exact absurd (List.getElem?_eq_some_iff.1 hy).1 (Nat.lt_irrefl _)
  have hopen' := hopen
  obtain ⟨between, hbetween, _⟩ := hopen'
  refine ⟨s', _, ⟨hslot', hnew, rfl, ⟨[], rfl⟩, fun t ht he => absurd he (hold ht), fun _ => Errand.open_before _, nofun⟩,
    ⟨newer ++ between, ?_⟩, fun t older hends => ⟨hends, (hturns t ?_).2⟩⟩
  · rw [hlog, hbetween, List.append_assoc]
  · rw [hlog] at hends
    exact hends.new hopen

theorem Happens.releaser (hk : h.Tended σ (.sent e none)) (hr : h'.ReleasedBy σ d) : e.call = d :=
  (hh.released_back hs (hk.closed nofun) hr).elim hk.releaser hk.carrier

theorem Happens.tended_still (hk : h.Tended σ (.sent e none)) (hnone : replace σ h actor h' = none)
    (halone : ∀ id, h'.connectionOf? σ = some id → Slot.Log.Acquired id e.before → h'.Alone σ id e) :
    h'.Tended σ (.sent e (replace σ h actor h')) := by
  have hclosed := hk.closed nofun
  rw [hnone]
  refine ⟨by simp [hh.closed hs hclosed], fun d hc => ⟨e, rfl, hk.carrier (hh.carries_back hs hclosed hc)⟩,
    fun d hr => ⟨e, rfl, hh.releaser hs hk hr⟩, ?_, by simp, by simp⟩
  rintro e' id he
  obtain ⟨rfl, _⟩ := Custody.sent.inj he
  exact halone id

theorem Happens.tended_givenUp (hk : h.Tended σ (.sent e none)) {result : Result} (hx : h'.call? e.call = some x)
    (hp : x.progress = .ended result) (hresult : ∀ now, result ≠ .released now)
    (hreplaced : ∀ id, h'.connectionOf? σ = some id → Slot.Log.Acquired id e.before → h'.Replaced id e r) :
    h'.Tended σ (.sent e (some r)) := by
  have hclosed := hk.closed nofun
  refine ⟨by simp [hh.closed hs hclosed], fun d hd => ?_, fun d hd => ?_, by simp, ?_, ?_⟩
  · obtain rfl := hk.carrier (hh.carries_back hs hclosed hd)
    rw [Carries, progress?, hx, Option.map_some, Option.bind_some, hp] at hd
    simp [releasing?] at hd
  · obtain rfl := hh.releaser hs hk hd
    obtain ⟨x', hx', _, hp'⟩ := hd
    obtain rfl := Option.some.inj (hx.symm.trans hx')
    exact absurd (Progress.ended.inj (hp.symm.trans hp')) (hresult true)
  · rintro e' r' he
    obtain ⟨rfl, _⟩ := Custody.sent.inj he
    exact ⟨x, result, hx, hp⟩
  · rintro e' r' id he
    obtain ⟨rfl, hr⟩ := Custody.sent.inj he
    obtain rfl := Option.some.inj hr
    exact hreplaced id

theorem Happens.tended_acting (ho : h.Ordered none Q) (hk : h.Tended σ (.sent e none)) (hact : actor = some e.call)
    (hc : h.Carries e.call σ) : h'.Tended σ (.sent e (replace σ h actor h')) := by
  subst hact
  have hclosed := hk.closed nofun
  obtain ⟨id, hid⟩ : ∃ id, h.connectionOf? σ = some id := by
    obtain ⟨y, hy, _⟩ := hclosed
    exact ⟨y.connection, by simp [connectionOf?, hy]⟩
  have hid' := (hh.connectionOf?_eq hs hclosed.isSome).trans hid
  have hawait (hacq : Slot.Log.Acquired id e.before) :
      ∃ s : Slot, h.registry.slots[id.slot]? = some s ∧ e.Open s.log := by
    obtain ⟨s, hslot, ⟨_, hopen⟩ | ⟨hnot, _⟩⟩ := hk.alone e id rfl hid hacq
    · exact ⟨s, hslot, hopen⟩
    · exact absurd hc hnot
  cases hh.carriage ho hs hc hclosed hid with
  | waits hlen hc' hslots =>
    refine hh.tended_still hs hk (replace_none fun _ _ _ => Nat.le_of_eq hlen) fun id₁ hid₁ hacq => ?_
    obtain rfl := Option.some.inj (hid'.symm.trans hid₁)
    obtain ⟨s, hslot, hopen⟩ := hawait hacq
    obtain ⟨s', hslot', hlog⟩ := hslots s hslot
    exact ⟨s', hslot', .inl ⟨hc', hlog ▸ hopen⟩⟩
  | @answered s s' newer ending a hlen hc' hslot hslot' hlog =>
    refine hh.tended_still hs hk (replace_none fun _ _ _ => Nat.le_of_eq hlen) fun id₁ hid₁ hacq => ?_
    obtain rfl := Option.some.inj (hid'.symm.trans hid₁)
    obtain ⟨s₁, hslot₁, hopen⟩ := hawait hacq
    obtain rfl := Option.some.inj (hslot.symm.trans hslot₁)
    have hends := hopen.ends (r := .turn ⟨⟨e.call, .release (some id)⟩, ending, some a⟩) rfl rfl
    exact ⟨s', hslot', .inr ⟨hc', _, _, hlog ▸ hends.later newer, rfl, by simp⟩⟩
  | @givenUp x result hlen hnew hx hp hresult hslots =>
    rw [replace_some hc hlen hid']
    refine hh.tended_givenUp hs hk hx hp hresult fun id₁ hid₁ hacq => ?_
    obtain rfl := Option.some.inj (hid'.symm.trans hid₁)
    obtain ⟨s, hslot, hopen⟩ := hawait hacq
    obtain ⟨s', newer, hslot', hlog, hturns⟩ := hslots s hslot
    have hat : h'.logAt id = s'.log := by simp [logAt, hslot']
    rw [hat]
    exact ho.replaced hc hslot hopen hslot' hlog hturns hnew

theorem Happens.tended_alone (ho : h.Ordered none Q) (hk : h.Tended σ (.sent e none)) :
    h'.Tended σ (.sent e (replace σ h actor h')) := by
  have hclosed := hk.closed nofun
  by_cases hact : actor = some e.call ∧ h.Carries e.call σ
  · exact hh.tended_acting hs ho hk hact.1 hact.2
  · have hnone : replace σ h actor h' = none :=
      replace_none fun d ha hc => absurd ⟨by rw [ha, hk.carrier hc], by rwa [hk.carrier hc]⟩ hact
    refine hh.tended_still hs hk hnone fun id hid hacq => ?_
    exact hh.alone hs hclosed hact (hk.alone e id rfl ((hh.connectionOf?_eq hs hclosed.isSome).symm.trans hid) hacq)

theorem Happens.tended_replaced (ho : h.Ordered none Q) (hk : h.Tended σ (.sent e (some r))) :
    h'.Tended σ (.sent e (some r)) := by
  have hclosed := hk.closed nofun
  obtain ⟨x, result, hx, hp⟩ := hk.gone e r rfl
  obtain ⟨hx', hslots⟩ := hh.leaves_be hs hx (.inr ⟨result, hp⟩)
  refine ⟨by simp [hh.closed hs hclosed], fun d hc => absurd hc (hh.not_carried hs hk nofun nofun d),
    fun d hr => absurd hr (hh.not_released hs hk nofun nofun d), nofun, ?_, ?_⟩
  · rintro e' r' he
    obtain ⟨rfl, _⟩ := Custody.sent.inj he
    exact ⟨x, result, hx', hp⟩
  · rintro e' r' id he hid hacq
    obtain ⟨rfl, hr⟩ := Custody.sent.inj he
    obtain rfl := Option.some.inj hr
    obtain ⟨s, y, hstands, hbetween, hends⟩ := hk.replaced e r id rfl
      ((hh.connectionOf?_eq hs hclosed.isSome).symm.trans hid) hacq
    obtain ⟨s', y', hstands'⟩ := hh.standsIn ho hs hstands
    refine ⟨s', y', hstands', hbetween, fun t older ht => hends t older ?_⟩
    obtain ⟨s₁, newer, hslot₁, hlog, hnewer⟩ := hslots _ s hstands.slot
    obtain rfl := Option.some.inj (hslot₁.symm.trans hstands'.slot)
    rw [hlog] at ht
    exact ht.earlier hnewer

/-- Every event keeps the books on a session. -/
theorem Happens.tended (ho : h.Ordered none Q) (hk : h.Tended σ k) : h'.Tended σ (custody σ h actor task h' k) := by
  cases k with
  | held => exact hh.tended_held hs hk
  | forgotten => exact hh.tended_forgotten hs hk
  | sent e r =>
    cases r with
    | none => exact hh.tended_alone hs ho hk
    | some r => exact hh.tended_replaced hs ho hk

/-- Whatever turn a call to release the session has had, it was the call that was sent, and the turn is the end
of its errand. -/
def Turned (h : Host) (σ : SessionId) (k : Custody) : Prop :=
  ∀ (i : Nat) (s : Slot) (t : Turn) (x : Call), h.registry.slots[i]? = some s → .turn t ∈ s.log →
    h.call? t.call = some x → x.task = .releaseSession σ →
    ∃ e r id, k = .sent e r ∧ e.call = t.call ∧ h.connectionOf? σ = some id ∧ i = id.slot ∧
      (Slot.Log.Acquired id e.before → ∃ older, e.Ends s.log (.turn t) older)

omit hh hs in
theorem custody_sent (h h' : Host) (σ : SessionId) (actor : Option CallId) (task : Option Task) (e : Errand)
    (r : Option Errand) : ∃ r', custody σ h actor task h' (.sent e r) = .sent e r' := by
  cases r with
  | none => exact ⟨_, rfl⟩
  | some r => exact ⟨some r, rfl⟩

theorem Happens.turned (ho : h.Ordered none Q) (hk : h.Tended σ k) (hturned : h.Turned σ k) :
    h'.Turned σ (custody σ h actor task h' k) := by
  intro i s' t x' hslot' ht hx' htask
  have hclosed {e : Errand} {r : Option Errand} (he : k = .sent e r) : h.Closed σ := hk.closed (he ▸ nofun)
  have hold (hhad : h.HadTurn i s'.log t) : ∃ e r id, custody σ h actor task h' k = .sent e r ∧ e.call = t.call ∧
      h'.connectionOf? σ = some id ∧ i = id.slot ∧
      (Slot.Log.Acquired id e.before → ∃ older, e.Ends s'.log (.turn t) older) := by
    obtain ⟨s, newer, hslot, hlog, ht⟩ := hhad
    obtain ⟨x, hx, _⟩ := ho.asked i s hslot t (Slot.mem_turns.2 ht)
    obtain ⟨e, r, id, rfl, hc, hid, hi, hends⟩ := hturned i s t x hslot ht hx ((hh.same_task hs hx hx').trans htask)
    obtain ⟨r', hr'⟩ := custody_sent h h' σ actor task e r
    refine ⟨e, r', id, hr', hc, (hh.connectionOf?_eq hs (hclosed rfl).isSome).trans hid, hi, fun hacq => ?_⟩
    obtain ⟨older, hends⟩ := hends hacq
    exact ⟨older, hlog ▸ hends.later newer⟩
  rcases hh.turn_back hs hslot' ht with hhad | ⟨rfl, x, hx, _⟩
  · exact hold hhad
  · have htask₀ : x.task = .releaseSession σ := (hh.same_task hs hx hx').trans htask
    rcases hh.release_turn ho hs hx htask₀ hslot' ht with hhad | hgives
    · exact hold hhad
    · cases hgives with
      | @waited id s hc hid hi hslot hlog =>
        obtain ⟨e, rfl, he⟩ := hk.carries t.call hc
        obtain ⟨r', hr'⟩ := custody_sent h h' σ (some t.call) task e none
        refine ⟨e, r', id, hr', he, (hh.connectionOf?_eq hs (hclosed rfl).isSome).trans hid, hi, fun hacq => ?_⟩
        obtain ⟨s₁, hslot₁, ⟨_, hopen⟩ | ⟨hnot, _⟩⟩ := hk.alone e id rfl hid hacq
        · obtain rfl := Option.some.inj (hslot.symm.trans (hi ▸ hslot₁))
          exact ⟨s.log, hlog ▸ hopen.ends he.symm rfl⟩
        · exact absurd (he ▸ hc) hnot
      | @atOnce id s ht' hopen hclosed' hid hi hslot hlog =>
        -- The session was open until now, so the call sets out and is done in one event.
        obtain rfl := hk.held.2 hopen
        have hid' : h'.connectionOf? σ = some id := by
          obtain ⟨y, hy, _⟩ := Option.map_eq_some_iff.1 hid
          rw [hh.connectionOf?_eq hs (by rw [hy]; rfl), hid]
        refine ⟨_, none, id, sendOff_sent hclosed' hid' (by simp [ht']), rfl, hid', hi, fun _ => ?_⟩
        have hat : h'.logAt id = s'.log := by simp [logAt, ← hi, hslot']
        have hends : (Errand.of t.call id ([] ++ s'.log)).Ends ([] ++ s'.log) (.turn t)
            (.came ⟨t.call, .release (some id)⟩ :: s.log) := by
          rw [hlog]
          exact Errand.of_ends rfl (by simp)
        rw [hat]
        exact ⟨_, hends⟩

end Tended

section Main

/-- What has become of the reference of a session in a run. -/
def custodyOf (bounds : Bounds) (events : List Event) (σ : SessionId) : Custody :=
  (Host.new bounds).chronicle (fun h e => custody σ h (h.actor e) (h.begins? e) (h.apply e)) .held events

theorem run_tended (bounds : Bounds) (events : List Event) (σ : SessionId) :
    ((Host.new bounds).run events).Tended σ (custodyOf bounds events σ) ∧
      ((Host.new bounds).run events).Turned σ (custodyOf bounds events σ) := by
  refine run_chronicle bounds events (P := fun h k => h.Tended σ k ∧ h.Turned σ k) ?_
    fun h k e ho hs hh hk => ⟨hh.tended hs ho hk.1, hh.turned hs ho hk.1 hk.2⟩
  have hcall (c : CallId) : (Host.new bounds).call? c = none := by simp [Host.new, call?]
  refine ⟨⟨by simp [Closed, Host.new, session?], fun c hc => ?_, fun c hr => ?_, by simp, by simp, by simp⟩,
    fun _ _ _ _ _ _ hx => ?_⟩
  · simp [Carries, progress?, hcall] at hc
  · obtain ⟨x, hx, _⟩ := hr
    cases (hcall c).symm.trans hx
  · cases (hcall _).symm.trans hx

theorem shut_of_closes (hsound : h.registry.Sound) {s : Slot} (hslot : h.registry.slots[id.slot]? = some s)
    {newer older : List Record} {t : Turn} (hlog : s.log = newer ++ .turn t :: older)
    (hc : Slot.Log.Closes s.number id older t) : h.Shut id := by
  obtain ⟨hpos, d, hd, _, hclosed⟩ := (hsound.lives id.slot s hslot).closed_connection ⟨newer, t, older, hlog, hc⟩
  exact shut_of_closed hsound hslot (Nat.sub_add_cancel hpos).symm hd hclosed

/-- What the calls that were sent with the reference of a session do at the gate: they give it back once. -/
structure GivesOnce (h : Host) (id : ConnectionId) (first : Errand) (second : Option Errand) (s : Slot) : Prop where
  asks : ∀ e ∈ first :: second.toList, ∀ t older, e.Ends s.log (.turn t) older → t.request = .release (some id)
  /-- The first turn takes one reference off if the connection is the entry, and else does nothing. -/
  counts : ∀ e ∈ first :: second.toList, ∀ t older, e.Ends s.log (.turn t) older →
    (∀ e' ∈ first :: second.toList, ∀ t' older', ¬e'.Ends older (.turn t') older') →
    Slot.Log.Returns s.number id older t
  again : ∀ e ∈ first :: second.toList, ∀ t older, e.Ends s.log (.turn t) older →
    ∀ e' ∈ first :: second.toList, ∀ t' older', e'.Ends older (.turn t') older' →
    Slot.Log.tally s.number (.turn t :: older) = Slot.Log.tally s.number older
  /-- A call that was made in another's stead has no turn anywhere but the end of its errand. -/
  only : ∀ r, second = some r → ∀ (i : Nat) (s' : Slot) (t : Turn), h.registry.slots[i]? = some s' → .turn t ∈ s'.log →
    t.call = r.call → i = id.slot ∧ ∃ older, r.Ends s.log (.turn t) older
  /-- When the calls have ended there has been a turn, unless the call made in the first one's stead was given
  up itself. -/
  finished : (∀ e ∈ first :: second.toList, ∃ result, h.progress? e.call = some (.ended result)) →
    (∀ r, second = some r → h.progress? r.call ≠ some (.ended .dropped)) →
    ∃ e ∈ first :: second.toList, ∃ t older, e.Ends s.log (.turn t) older
  closes : ∀ e ∈ first :: second.toList, ∀ t older, e.Ends s.log (.turn t) older →
    Slot.Log.Closes s.number id older t → h.Shut id

theorem Alone.givesOnce (hsound : h.registry.Sound) (hacq : Slot.Log.Acquired id e.before) (ha : h.Alone σ id e) :
    ∃ s, h.registry.slots[id.slot]? = some s ∧ h.GivesOnce id e none s := by
  obtain ⟨s, hslot, hstate⟩ := ha
  have hl := hsound.lives id.slot s hslot
  have hasks {t : Turn} {older : List Record} (hends : e.Ends s.log (.turn t) older) :
      t.request = .release (some id) := by
    rcases hstate with ⟨_, hopen⟩ | ⟨_, t', older', hends', hreq, _⟩
    · exact absurd hopen hends.not_open
    · obtain ⟨he, _⟩ := hends.unique hends'
      rw [Record.turn.inj he]
      exact hreq
  refine ⟨s, hslot, ?_, ?_, ?_, nofun, ?_, ?_⟩
  · intro e' he' t older hends
    obtain rfl : e' = e := by simpa using he'
    exact hasks hends
  · intro e' he' t older hends _
    obtain rfl : e' = e := by simpa using he'
    obtain ⟨newer, hlog⟩ := hends.noted
    obtain ⟨between, rfl, _⟩ := hends.before
    have hsplit : s.log = (newer ++ [.turn t]) ++ (between ++ e'.before) := by simp [hlog]
    exact hl.returns hsplit (hacq.later between) (hasks hends)
  · intro e' he' t older hends e'' he'' t' older' hends'
    obtain rfl : e' = e := by simpa using he'
    obtain rfl : e'' = e' := by simpa using he''
    exact absurd hends.before hends'.not_open
  · intro hended _
    obtain ⟨result, hp⟩ := hended e (by simp)
    rcases hstate with ⟨hc, _⟩ | ⟨_, t, older, hends, _⟩
    · rw [Carries, hp] at hc
      cases hc
    · exact ⟨e, by simp, t, older, hends⟩
  · intro e' he' t older hends hcloses
    obtain ⟨newer, hlog⟩ := hends.noted
    exact shut_of_closes hsound hslot hlog hcloses

section InStead
variable {r e' e'' : Errand} {s : Slot} {x : Call} {t t' : Turn} {older older' : List Record}
  (ho : h.Ordered none Q) (hstands : h.StandsIn id r s x)
  (hbetween : ∃ between, r.before = between ++ e.before)
  (hfirst : ∀ t older, e.Ends s.log (.turn t) older →
    e.Ends r.before (.turn t) older ∧ t.request = .release (some id) ∧ t.answer = none)
include ho hstands hfirst

theorem StandsIn.asks (he' : e' ∈ [e, r]) (hends : e'.Ends s.log (.turn t) older) : t.request = .release (some id) := by
  rcases List.mem_cons.1 he' with rfl | he'
  · exact (hfirst t older hends).2.1
  · obtain rfl := List.mem_singleton.1 he'
    obtain ⟨newer, hlog⟩ := hends.noted
    obtain ⟨y, hy, hasks⟩ := ho.asked id.slot s hstands.slot t (Slot.mem_turns.2 (by simp [hlog]))
    have hcall : t.call = e'.call := hends.mine
    obtain rfl := Option.some.inj ((hcall ▸ hy).symm.trans hstands.call)
    exact (asks_returned hasks hstands.task).2

include hbetween

theorem StandsIn.returns (hacq : Slot.Log.Acquired id e.before) (he' : e' ∈ [e, r])
    (hends : e'.Ends s.log (.turn t) older) : Slot.Log.Returns s.number id older t := by
  have hlater : Slot.Log.Acquired id older := by
    obtain ⟨since, rfl, _⟩ := hends.before
    rcases List.mem_cons.1 he' with rfl | he'
    · exact hacq.later since
    · obtain rfl := List.mem_singleton.1 he'
      obtain ⟨between, hbetween⟩ := hbetween
      rw [hbetween]
      exact (hacq.later between).later since
  obtain ⟨newer, hlog⟩ := hends.noted
  have hsplit : s.log = (newer ++ [.turn t]) ++ older := by simp [hlog]
  exact (ho.sound.lives id.slot s hstands.slot).returns hsplit hlater (hstands.asks ho hfirst he' hends)

/-- A turn that was not brought to an answer closed the connection, so that the second call finds it gone. -/
theorem StandsIn.again (hacq : Slot.Log.Acquired id e.before) (he' : e' ∈ [e, r])
    (hends : e'.Ends s.log (.turn t) older) (he'' : e'' ∈ [e, r]) (hends' : e''.Ends older (.turn t') older') :
    Slot.Log.tally s.number (.turn t :: older) = Slot.Log.tally s.number older := by
  obtain ⟨newer, hlog⟩ := hends.noted
  obtain ⟨newer', hlog'⟩ := hends'.noted
  have hends'' : e''.Ends s.log (.turn t') older' := by
    rw [hlog, ← List.singleton_append, ← List.append_assoc]
    exact hends'.later _
  by_cases hsame : e'' = e'
  · subst hsame
    exact absurd hends.before hends'.not_open
  · rcases List.mem_cons.1 he' with rfl | he'
    · -- The first call is gone before the second is made.
      obtain rfl : e'' = r := by simpa [hsame] using he''
      obtain ⟨between₁, hbefore⟩ := (hfirst t older hends).1.noted
      obtain ⟨between₂, holder, _⟩ := hends'.before
      have hlen := congrArg List.length hbefore
      rw [hlog', holder] at hlen
      simp only [List.length_append, List.length_cons] at hlen
      omega
    · obtain rfl := List.mem_singleton.1 he'
      obtain rfl : e'' = e := by simpa [hsame] using he''
      obtain ⟨_, hreq, hnone⟩ := hfirst t' older' hends''
      have hlater : Slot.Log.Acquired id older' := by
        obtain ⟨since, rfl, _⟩ := hends'.before
        exact hacq.later since
      have hsplit : s.log = (newer ++ .turn t :: newer') ++ .turn t' :: older' := by
        rw [hlog, hlog', List.append_assoc]
        rfl
      have hcloses : Slot.Log.Closes s.number id older' t' :=
        (ho.sound.lives id.slot s hstands.slot).given_up_closes hsplit hlater hreq hnone
      refine (hstands.returns ho hbetween hfirst hacq (by simp) hends).spares fun hentered => ?_
      obtain ⟨⟨_, st⟩, hentry, rfl⟩ := Option.map_eq_some_iff.1 hentered
      exact Slot.Log.Closed.gone ⟨newer', t', older', hlog', hcloses⟩ st hentry

end InStead

/-- A call that was made in another's stead has its turn at the slot of the connection, if anywhere. -/
theorem StandsIn.turn_there {r : Errand} {s s' : Slot} {x : Call} {t : Turn} {i : Nat} (ho : h.Ordered none Q)
    (hstands : h.StandsIn id r s x) (hslot' : h.registry.slots[i]? = some s') (ht : .turn t ∈ s'.log)
    (hc : t.call = r.call) : i = id.slot ∧ ∃ older, r.Ends s.log (.turn t) older := by
  obtain ⟨y, hy, hasked⟩ := ho.asked i s' hslot' t (Slot.mem_turns.2 ht)
  rw [hc] at hy
  obtain rfl := Option.some.inj (hstands.call.symm.trans hy)
  have hi : i = id.slot := (asks_returned hasked hstands.task).1
  obtain rfl := Option.some.inj (hstands.slot.symm.trans (hi ▸ hslot'))
  exact ⟨hi, hstands.only t ht hc⟩

theorem Replaced.givesOnce (ho : h.Ordered none Q) (hacq : Slot.Log.Acquired id e.before) (hr : h.Replaced id e r) :
    ∃ s, h.registry.slots[id.slot]? = some s ∧ h.GivesOnce id e (some r) s := by
  obtain ⟨s, x, hstands, hbetween, hfirst⟩ := hr
  refine ⟨s, hstands.slot, fun e' he' t older hends => hstands.asks ho hfirst he' hends,
    fun e' he' t older hends _ => hstands.returns ho hbetween hfirst hacq he' hends,
    fun e' he' t older hends e'' he'' t' older' hends' =>
      hstands.again ho hbetween hfirst hacq he' hends he'' hends', ?_, ?_, ?_⟩
  · rintro r' hr' i s' t hslot' ht hc
    obtain rfl := Option.some.inj hr'
    exact hstands.turn_there ho hslot' ht hc
  · intro hended hdropped
    obtain ⟨result, hp⟩ := hended r (by simp)
    rw [progress?, hstands.call, Option.map_some, Option.some.injEq] at hp
    rcases hstands.final result hp with rfl | ⟨t, older, hends⟩
    · exact absurd (by rw [progress?, hstands.call, Option.map_some, hp]) (hdropped r rfl)
    · exact ⟨r, by simp, t, older, hends⟩
  · intro e' he' t older hends hcloses
    obtain ⟨newer, hlog⟩ := hends.noted
    exact shut_of_closes ho.sound hstands.slot hlog hcloses

/-- A session gives its reference back once. It is closed just if its reference has been taken care of; a call
to release it leaves it closed, and one at most returns that it released it. The calls that are there for
its connection touch no other. Those that were not sent have no turn. If the session was forgotten nobody is
sent with its reference; else that is given back by the first turn of those who are sent. -/
theorem given_back_once (bounds : Bounds) (events : List Event) (σ : SessionId) :
    let h := (Host.new bounds).run events
    let k := custodyOf bounds events σ
    (k = .held ↔ ¬h.Closed σ) ∧
    (∀ c, h.call? c = some ⟨.releaseSession σ, .fresh⟩ → (h.session? σ).isSome → (h.apply (.begin c)).Closed σ) ∧
    (∀ c c', h.ReleasedBy σ c → h.ReleasedBy σ c' → c = c') ∧
    (∀ e c x id, h.actor e = some c → h.call? c = some x → h.IsFor x id → h.LeavesOthers id (h.apply e)) ∧
    h.Turned σ k ∧
    ∀ first second id, k = .sent first second → h.connectionOf? σ = some id → Slot.Log.Acquired id first.before →
      ∃ s, h.registry.slots[id.slot]? = some s ∧ h.GivesOnce id first second s := by
  intro h k
  have ho : h.Ordered none Nowhere := run_ordered bounds events
  have hs : h.Staged := run_staged bounds events
  obtain ⟨hk, hturned⟩ : h.Tended σ k ∧ h.Turned σ k := run_tended bounds events σ
  refine ⟨hk.held, fun c hx hσ => ?_, fun c c' hc hc' => ?_, fun e c x id ha hx hf => ?_, hturned,
    fun first second id he hid hacq => ?_⟩
  · have happly : h.apply (.begin c) = h.releaseSession c σ := by
      simp only [Host.apply, hx]
      rfl
    rw [happly]
    exact releaseSession_closes hσ
  · obtain ⟨e, he, hc⟩ := hk.released c hc
    obtain ⟨e', he', hc'⟩ := hk.released c' hc'
    obtain ⟨rfl, _⟩ := Custody.sent.inj (he.symm.trans he')
    exact hc.symm.trans hc'
  · have hh := ho.happens e
    rw [ha] at hh
    exact hh.leaves_others ho hs hx hf
  · cases second with
    | none => exact (hk.alone first id he hid hacq).givesOnce ho.sound hacq
    | some r => exact (hk.replaced first r id he hid hacq).givesOnce ho hacq

/-- A session is given back and dropped while its server is stopped, and the call that is left goes in its
stead. -/
def droppedRelease : List Event :=
  let key : ServerKey := ⟨⟨"rust", ["rs"], .new "ra", List.nodup_singleton _⟩, ⟨⟨"/p"⟩⟩⟩
  [.call (.acquire key none), .begin ⟨0⟩, .launched 0 (.ok ⟨none, none⟩), .session ⟨0, 1⟩ "",
    .call (.releaseSession ⟨0⟩), .begin ⟨1⟩, .drop ⟨1⟩, .begin ⟨2⟩]

theorem dropped_release :
    let h := (Host.new default).run droppedRelease
    let before := (Host.new default).run (droppedRelease.take 7)
    (((Host.new default).run (droppedRelease.take 5)).apply (.begin ⟨1⟩)).Closed ⟨0⟩ ∧
      before.LeavesOthers ⟨0, 1⟩ (before.apply (.begin ⟨2⟩)) ∧
      ∃ first second s, h.GivesOnce ⟨0, 1⟩ first (some second) s ∧ first.call = ⟨1⟩ ∧ second.call = ⟨2⟩ ∧
        h.Shut ⟨0, 1⟩ := by
  intro h before
  obtain ⟨_, hcloses, _⟩ := given_back_once default (droppedRelease.take 5) ⟨0⟩
  obtain ⟨_, _, _, hothers, _⟩ := given_back_once default (droppedRelease.take 7) ⟨0⟩
  obtain ⟨_, _, _, _, _, hgives⟩ := given_back_once default droppedRelease ⟨0⟩
  refine ⟨hcloses ⟨1⟩ rfl rfl, hothers (.begin ⟨2⟩) ⟨2⟩ _ ⟨0, 1⟩ rfl rfl (.inl rfl), ?_⟩
  obtain ⟨s, hslot, honce⟩ := hgives _ (some _) ⟨0, 1⟩ rfl rfl ⟨_, List.mem_cons_of_mem _ List.mem_cons_self, rfl⟩
  refine ⟨_, _, s, honce, rfl, rfl, _, rfl, rfl, rfl, ?_⟩
  rintro ⟨_, hslot, hcurrent⟩
  cases hslot
  cases hcurrent

end Main

end Host
end LanguageHost
