import LanguageHost.Proofs.Host.Runs

/-! One server for each group of editors, with as many references as the group has editors. -/
namespace LanguageHost.Host

/-- No call is in progress, also none in the background. -/
def Quiet (h : Host) : Prop := ∀ c x, h.call? c = some x → ∃ r, x.progress = .ended r

/-- The entry attaches its editor by a session on a connection of the key. -/
def isOn (h : Host) (key : ServerKey) : Attachment → Bool
  | .attached σ => (h.session? σ).any fun y => (h.registry.byId? y.connection).any (·.key == key)
  | .pending _ _ => false

/-- Attached editors whose session is on the key. -/
def editorsOn (h : Host) (key : ServerKey) : Nat := h.attachments.countP fun entry => h.isOn key entry.2

variable {h : Host} {K : EditorId → Option ServerKey} {Q : Nat → Request → Prop} {i j : Nat} {s t : Slot}
  {c : Connection}
  {key : ServerKey}

/-- Where nobody is at the gate or has yet to begin to give something back, all references to a ready connection are
those of attached editors. -/
theorem Books.refs_idle (hb : h.Books K none none []) (ho : h.Ordered none Q) (hs : h.registry.slots[i]? = some s)
    (hvisits : s.visits = []) (hfresh : ∀ id, h.freshReleases none id = 0) (hc : s.Ready j c) :
    c.refs = h.attachedTo ⟨i, j + 1⟩ := by
  obtain ⟨_, howned⟩ := hb.owned i s hs j c hc.1 hc.2.1 hc.isLive
  have hclears : ¬s.Clears := by simp [Slot.Clears, hvisits]
  have hreleases (id : ConnectionId) : s.releases id = 0 := by simp [Slot.releases, hvisits]
  have hwork := (ho.sound.lives i s hs).valid.outside_of_ready hc
  rw [ho.sound.numbers i s hs] at howned
  simp only [owners, hfresh, hreleases, Slot.launchers_outside hwork, hclears, reduceCtorEq, if_false,
    List.not_mem_nil, or_false] at howned
  omega

namespace Quiet

theorem visits (hq : h.Quiet) (ho : h.Ordered none Q) (hs : h.registry.slots[i]? = some s) : s.visits = [] := by
  refine List.eq_nil_iff_forall_not_mem.2 fun v hv => ?_
  obtain ⟨x, hx⟩ := Option.isSome_iff_exists.1 (ho.known i s hs v hv)
  obtain ⟨r, hr⟩ := hq v.call x hx
  have hw := ho.waits v.call x (by simp) hx i s hs v hv rfl
  generalize v.request = request at hw
  cases hw <;> simp_all [releasing?]

theorem work? (hq : h.Quiet) (ho : h.Ordered none Q) (hs : h.registry.slots[i]? = some s) : s.work? = none := by
  have hv := hq.visits ho hs
  unfold Slot.visits at hv
  cases hh : s.holder with
  | none => simp [Slot.work?, hh]
  | some v => simp [hh] at hv

theorem freshReleases (hq : h.Quiet) (id : ConnectionId) : h.freshReleases none id = 0 := by
  refine List.countP_eq_zero.2 fun n _ hn => ?_
  obtain ⟨x, hx, howed⟩ := Option.bind_eq_some_iff.1 (of_decide_eq_true hn).2
  obtain ⟨r, hr⟩ := hq _ x hx
  unfold Call.owed? at howed
  split at howed
  · cases hr
  · cases howed

theorem refs (hq : h.Quiet) (ho : h.Ordered none Q) (hb : h.Books K none none [])
    (hs : h.registry.slots[i]? = some s)
    (hc : s.Ready j c) : c.refs = h.attachedTo ⟨i, j + 1⟩ :=
  hb.refs_idle ho hs (hq.visits ho hs) hq.freshReleases hc

end Quiet

/-- The session of an attached editor is on the connection that its slot has ready. -/
theorem Holds.ready {e : EditorId} {σ : SessionId} (hh : h.Holds K e σ) :
    ∃ (y : Session) (s : Slot) (j : Nat) (c : Connection) (key : ServerKey),
      h.session? σ = some y ∧ y.closed = false ∧ h.registry.slots[y.connection.slot]? = some s ∧
      y.connection = ⟨y.connection.slot, j + 1⟩ ∧ s.Ready j c ∧ h.registry.byId? y.connection = some c ∧
      K e = some key ∧ (s.key == key) = true := by
  obtain ⟨y, s, j, key, hy, hopen, hs, hgen, ⟨⟨c, hc⟩, _⟩, hK, hkey⟩ := hh
  refine ⟨y, s, j, c, key, hy, hopen, hs, by rw [← hgen], hc, ?_, hK, hkey⟩
  simp [Registry.byId?, hs, hgen, Slot.connection?, hc.2.1]

namespace Books

theorem editorsOn_ready (hb : h.Books K none none []) (ho : h.Ordered none Q) (hs : h.registry.slots[i]? = some s)
    (hk : (s.key == key) = true) (hc : s.Ready j c) : h.editorsOn key = h.attachedTo ⟨i, j + 1⟩ := by
  refine List.countP_congr fun entry he => ?_
  obtain ⟨e, a⟩ := entry
  cases a with
  | pending => simp [isOn, behind?]
  | attached σ =>
    obtain ⟨y, t, k, d, _, hy, _, ht, hid, hd, hbyId, _⟩ := (hb.attached e σ he).ready
    have hdkey := ((ho.sound.lives _ t ht).valid.table.lawful k d hd.2.1).2.2
    have hon : h.isOn key (.attached σ) = (d.key == key) := by simp [isOn, hy, hbyId]
    have hbehind : h.behind? (.attached σ) = some y.connection := by simp [behind?, connectionOf?, hy]
    simp only [hon, hbehind, decide_eq_true_eq, Option.some.injEq]
    constructor
    · intro hdk
      have hslot := ho.sound.keys _ i t s ht hs (BEq.trans (BEq.trans hdkey hdk) (BEq.symm hk))
      rw [hslot] at ht hid
      obtain rfl := Option.some.inj (hs.symm.trans ht)
      obtain rfl : j = k := by simpa using hc.1.symm.trans hd.1
      exact hid
    · intro hyid
      have hslot : y.connection.slot = i := by rw [hyid]
      rw [hslot] at ht
      obtain rfl := Option.some.inj (hs.symm.trans ht)
      exact BEq.trans (BEq.symm hdkey) hk

theorem editorsOn_zero (hb : h.Books K none none []) (ho : h.Ordered none Q)
    (hno : ∀ (i : Nat) (s : Slot), h.registry.slots[i]? = some s → (s.key == key) = true → ∀ j c, ¬s.Ready j c) :
    h.editorsOn key = 0 := by
  refine List.countP_eq_zero.2 fun entry he hon => ?_
  obtain ⟨e, a⟩ := entry
  cases a with
  | pending => cases hon
  | attached σ =>
    obtain ⟨y, t, k, d, _, hy, _, ht, _, hd, hbyId, _⟩ := (hb.attached e σ he).ready
    have hdkey := ((ho.sound.lives _ t ht).valid.table.lawful k d hd.2.1).2.2
    have hon : (d.key == key) = true := by simpa [isOn, hy, hbyId] using hon
    exact hno _ t ht (BEq.trans hdkey hon) k d hd

end Books

theorem Quiet.refCount (hq : h.Quiet) (ho : h.Ordered none Q) (hb : h.Books K none none []) (key : ServerKey) :
    h.registry.refCount key = h.editorsOn key ∧
      ((h.registry.connection? key).any Connection.isLive = true ↔ 0 < h.editorsOn key) := by
  cases hslot : h.registry.slot? key with
  | none =>
    have hzero : h.editorsOn key = 0 := hb.editorsOn_zero ho fun i s hs hk => by
      rw [ho.sound.slot?_eq_some hs hk] at hslot
      cases hslot
    simp [Registry.refCount, Registry.connection?, hslot, hzero]
  | some s =>
    obtain ⟨hs, hk⟩ := Registry.Sound.slot?_slot ho.sound hslot
    have hl := ho.sound.lives _ s hs
    have hconnection : h.registry.connection? key = s.current? := by simp [Registry.connection?, hslot]
    rcases hl.valid.ready_or_vacant (hq.work? ho hs) with ⟨j, c, hc⟩ | ⟨hv, hnone⟩
    · have hrefs := hq.refs ho hb hs hc
      have hpos := (hl.valid.ready_process hc).1
      rw [Registry.refCount, hconnection, hc.current?, hb.editorsOn_ready ho hs hk hc, ← hrefs]
      simp [hc.isLive, hpos]
    · have hzero : h.editorsOn key = 0 := hb.editorsOn_zero ho fun i t ht htk j c hc => by
        have hi := ho.sound.keys i _ t s ht hs (BEq.trans htk (BEq.symm hk))
        rw [hi] at ht
        obtain rfl := Option.some.inj (hs.symm.trans ht)
        have hfailed := hv (j + 1) c hc.1 hc.2.1
        rw [hc.2.2] at hfailed
        cases hfailed
      have hcount : (s.current?.map Connection.refs).getD 0 = 0 := hl.valid.shown_vacant (hq.work? ho hs) hv
      refine ⟨by rw [Registry.refCount, hconnection, hcount, hzero], ?_⟩
      rw [hconnection, hzero]
      cases hc : s.current? with
      | none => simp
      | some c =>
        rw [hc, Option.filter_eq_none_iff] at hnone
        simpa using hnone c rfl

/-- The session of an attached editor is open, on the connection that its key is served by. -/
theorem Books.attached_ready (hb : h.Books K none none []) (ho : h.Ordered none Q) {e : EditorId} {σ : SessionId}
    (he : h.attachment? e = some (.attached σ)) :
    ∃ (y : Session) (key : ServerKey) (c : Connection),
      h.session? σ = some y ∧ y.closed = false ∧ K e = some key ∧ h.registry.connection? key = some c ∧
      c.id = y.connection ∧ c.status = .ready := by
  obtain ⟨y, s, j, c, key, hy, hopen, hs, hid, hc, _, hK, hkey⟩ := (hb.attached e σ (attachment?_mem he)).ready
  refine ⟨y, key, c, hy, hopen, hK, ?_, (ho.sound.ids hs hc.2.1).trans hid.symm, hc.2.2⟩
  rw [Registry.connection?, ho.sound.slot?_eq_some hs hkey]
  exact hc.current?

/-- Attached editors share a connection if they are of one key, and only then. -/
theorem Books.shares_iff (hb : h.Books K none none []) (ho : h.Ordered none Q) {e e' : EditorId} {σ σ' : SessionId}
    (he : h.attachment? e = some (.attached σ)) (he' : h.attachment? e' = some (.attached σ')) :
    h.connectionOf? σ = h.connectionOf? σ' ↔ (K e == K e') = true := by
  obtain ⟨y, s, j, c, key, hy, _, hs, hid, hc, _, hK, hkey⟩ := (hb.attached e σ (attachment?_mem he)).ready
  obtain ⟨y', s', j', c', key', hy', _, hs', hid', hc', _, hK', hkey'⟩ :=
    (hb.attached e' σ' (attachment?_mem he')).ready
  simp only [connectionOf?, hy, hy', hK, hK', Option.map_some, Option.some.injEq, Option.some_beq_some]
  constructor
  · intro hyy
    rw [← hyy] at hs'
    obtain rfl := Option.some.inj (hs.symm.trans hs')
    exact BEq.trans (BEq.symm hkey) hkey'
  · intro hkk
    have hslot := ho.sound.keys _ _ s s' hs hs' (BEq.trans (BEq.trans hkey hkk) (BEq.symm hkey'))
    rw [← hslot] at hs' hid'
    obtain rfl := Option.some.inj (hs.symm.trans hs')
    obtain rfl : j = j' := by simpa using hc.1.symm.trans hc'.1
    exact hid.trans hid'.symm

/-- While the registry is used by a lifecycle only, whenever no call is in progress: a key has as many
references as editors are attached to it and a live connection just if there are any; every attached
editor has an open session on the connection, ready, that serves the key it was last opened with; and
two of them share a connection just if their keys are equal. -/
theorem lifecycle_balance {bounds : Bounds} {events : List Event} (he : (Host.new bounds).Within events)
    (hq : ((Host.new bounds).run events).Quiet) :
    let h := (Host.new bounds).run events
    let K := (Host.new bounds).lastOpened (fun _ => none) events
    (h.attachments.map Prod.fst).Nodup ∧
    (∀ key, h.registry.refCount key = h.editorsOn key ∧
      ((h.registry.connection? key).any Connection.isLive = true ↔ 0 < h.editorsOn key)) ∧
    (∀ e σ, h.attachment? e = some (.attached σ) →
      ∃ (y : Session) (key : ServerKey) (c : Connection),
        h.session? σ = some y ∧ y.closed = false ∧ K e = some key ∧ h.registry.connection? key = some c ∧
        c.id = y.connection ∧ c.status = .ready) ∧
    ∀ e e' σ σ', h.attachment? e = some (.attached σ) → h.attachment? e' = some (.attached σ') →
      (h.connectionOf? σ = h.connectionOf? σ' ↔ (K e == K e') = true) := by
  have ho := run_ordered bounds events
  have hb := run_books he
  exact ⟨hb.editors, hq.refCount ho hb, fun _ _ he => hb.attached_ready ho he,
    fun _ _ _ _ he he' => hb.shares_iff ho he he'⟩

/-- Two editors of one project, opened one after the other. -/
def twoEditors : List Event :=
  let editor (n : Nat) : Editor := ⟨⟨n⟩, .value "file:///p/a.rs", .value ⟨"/p"⟩, .value ⟨⟨"/p"⟩⟩,
    .value ⟨"rust", ["rs"], .new "ra", List.nodup_singleton _⟩, .missing⟩
  [.call (.openEditor (editor 0)), .begin ⟨0⟩, .launched 0 (.ok ⟨none, none⟩), .call (.openEditor (editor 1)),
    .begin ⟨1⟩]

theorem two_editors_share :
    let h := (Host.new default).run twoEditors
    (Host.new default).Within twoEditors ∧ h.Quiet ∧ h.attachments.length = 2 ∧
      h.connectionOf? ⟨0⟩ = h.connectionOf? ⟨1⟩ := by
  have hw : (Host.new default).Within twoEditors := by simp [twoEditors, Within, OfLifecycle, Task.OfEditor]
  have hq : ((Host.new default).run twoEditors).Quiet := by
    intro c x hx
    have hcalls : ((Host.new default).run twoEditors).calls.map Call.progress = [.ended .done, .ended .done] := by rfl
    have hp : x.progress ∈ [Progress.ended .done, .ended .done] :=
      hcalls ▸ List.mem_map_of_mem (List.mem_of_getElem? hx)
    simp only [List.mem_cons, List.not_mem_nil, or_false, or_self] at hp
    exact ⟨_, hp⟩
  exact ⟨hw, hq, rfl, ((lifecycle_balance hw hq).2.2.2 ⟨0⟩ ⟨1⟩ ⟨0⟩ ⟨1⟩ rfl rfl).2 rfl⟩

end LanguageHost.Host
