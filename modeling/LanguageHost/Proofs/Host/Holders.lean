import LanguageHost.Proofs.Host.Deeds
import LanguageHost.Proofs.Host.Leftovers

/-! Whom the references to a connection belong to: editors, by their sessions and by their calls at the gate, and
calls that give one back for no editor. What is done for one editor leaves alone what belongs to another. -/
namespace LanguageHost

def Task.editor? : Task → Option EditorId
  | .openEditor editor => some editor.id
  | .closeEditor e => some e
  | _ => none

/-- Where names are not given twice, an entry is counted if it is the one of the name. -/
theorem count_entries {α β : Type} [DecidableEq α] {l : List (α × β)} (hn : (l.map Prod.fst).Nodup) (p : β → Bool)
    (k : α) : ((l.filter fun entry => p entry.2).map fun entry => some entry.1).count (some k) =
      if (l.lookup k).any p then 1 else 0 := by
  have habsent {l : List (α × β)} (hk : k ∉ l.map Prod.fst) :
      ((l.filter fun entry => p entry.2).map fun entry => some entry.1).count (some k) = 0 := by
    refine List.count_eq_zero.2 fun hm => hk ?_
    obtain ⟨entry, he, hk⟩ := List.mem_map.1 hm
    rw [← Option.some.inj hk]
    exact List.mem_map_of_mem (List.mem_filter.1 he).1
  induction l with
  | nil => rfl
  | cons entry l ih =>
    obtain ⟨j, b⟩ := entry
    obtain ⟨hj, hn⟩ := List.nodup_cons.1 hn
    by_cases hk : k = j
    · subst hk
      rw [List.lookup_cons, beq_self_eq_true, List.filter_cons]
      split
      · rename_i hb
        rw [List.map_cons, List.count_cons_self, habsent hj]
        exact (if_pos hb).symm
      · rename_i hb
        rw [habsent hj]
        exact (if_neg hb).symm
    · rw [List.lookup_cons, beq_false_of_ne hk, List.filter_cons]
      split
      · rw [List.map_cons, List.count_cons_of_ne fun he => hk (Option.some.inj he).symm]
        exact ih hn
      · exact ih hn

namespace Slot
variable {s s' : Slot} {v : Visit} {c : CallId} {id : ConnectionId}

/-- The call that waits for the launch of the connection. -/
def launcher? (s : Slot) (id : ConnectionId) : Option Visit :=
  match s.work? with
  | some (v, .launch) => if s.generation = id.generation then some v else none
  | _ => none

/-- Whoever at the gate has a reference to the connection: to give it back, or from the launch. -/
def keepers (s : Slot) (id : ConnectionId) : List Visit :=
  s.visits.filter (·.request.returns id) ++ (s.launcher? id).toList

theorem launcher?_eq_some : s.launcher? id = some v ↔ s.work? = some (v, .launch) ∧ s.generation = id.generation := by
  unfold launcher?
  split
  · rename_i w hw
    rw [hw]
    split
    · rename_i hg
      simp [hg]
    · rename_i hg
      simp [hg]
  · rename_i hno
    exact iff_of_false nofun fun ⟨hw, _⟩ => hno _ hw

theorem mem_keepers (hv : v ∈ s.keepers id) : v ∈ s.visits := by
  rcases List.mem_append.1 hv with hv | hv
  · exact (List.mem_filter.1 hv).1
  · obtain ⟨hw, _⟩ := launcher?_eq_some.1 (Option.mem_toList.1 hv)
    exact mem_of_work hw

theorem Spares.keepers (hs : s.Spares c s') (hd : s.visits.Nodup) (hd' : s'.visits.Nodup)
    (hwork : ∀ v, v.call ≠ c → (s'.launcher? id = some v ↔ s.launcher? id = some v)) {p : Visit → Bool}
    (hp : ∀ v, p v = true → v.call ≠ c) : (s'.keepers id).countP p = (s.keepers id).countP p := by
  have hperm : (s'.visits.filter fun v => p v && v.request.returns id).Perm
      (s.visits.filter fun v => p v && v.request.returns id) := by
    refine (List.perm_ext_iff_of_nodup (hd'.filter _) (hd.filter _)).2 fun v => ?_
    simp only [List.mem_filter, Bool.and_eq_true]
    exact and_congr_left fun ⟨hv, _⟩ => hs.visits v (hp v hv)
  have hvisits := hperm.length_eq
  rw [← List.countP_eq_length_filter, ← List.countP_eq_length_filter] at hvisits
  have hlauncher : (s'.launcher? id).toList.countP p = (s.launcher? id).toList.countP p := by
    have hone (o : Option Visit) : o.toList.countP p = if o.any p then 1 else 0 := by
      cases o with
      | none => rfl
      | some v => exact List.countP_singleton
    have hany : (s'.launcher? id).any p = (s.launcher? id).any p := by
      rw [Bool.eq_iff_iff, Option.any_eq_true, Option.any_eq_true]
      exact exists_congr fun v => and_congr_left fun hv => hwork v (hp v hv)
    rw [hone, hone, hany]
  rw [Slot.keepers, Slot.keepers, List.countP_append, List.countP_append, List.countP_filter, List.countP_filter,
    hvisits, hlauncher]

/-- The references at the gate of a connection that is being launched, or that is shared, are those that are given
back there and the one that the launch is for. -/
theorem Valid.keepers_length (hs : s.Valid) {i : Nat} (hg : s.current = some (i + 1)) :
    (s.keepers ⟨s.number, i + 1⟩).length = s.releases ⟨s.number, i + 1⟩ + s.launchers := by
  have hlauncher : (s.launcher? ⟨s.number, i + 1⟩).toList.length = s.launchers := by
    unfold launchers
    split
    · rename_i v hw
      have ht := hs.table
      rw [hw] at ht
      obtain ⟨_, _, _, _, hcurrent⟩ := ht.launching_last
      rw [launcher?_eq_some.2 ⟨hw, Option.some.inj (hcurrent.symm.trans hg)⟩]
      rfl
    · rename_i hno
      rw [Option.eq_none_iff_forall_ne_some.2 fun v hv => hno v (launcher?_eq_some.1 hv).1]
      rfl
  rw [Slot.keepers, List.length_append, ← List.countP_eq_length_filter, hlauncher, releases]

end Slot

namespace Host
variable {h h' : Host} {c : CallId} {x : Call} {e e₀ : EditorId} {id : ConnectionId} {task : Option Task}
  {g g' : Doings} {Q Q' : Nat → Request → Prop} {i : Nat} {s : Slot}

def editorOf? (h : Host) (c : CallId) : Option EditorId := (h.call? c).bind fun x => x.task.editor?

/-- Whoever at the gate of the connection has a reference to it. -/
def keepers (h : Host) (id : ConnectionId) : List Visit :=
  (h.registry.slots[id.slot]?.map fun s => s.keepers id).getD []

/-- Whom the references to a connection belong to: editors that are attached by it, those whose calls have one at its
gate, and nobody, where a call is to give one back that has yet to come there. -/
def holders (h : Host) (id : ConnectionId) : List (Option EditorId) :=
  ((h.attachments.filter fun entry => h.behind? entry.2 = some id).map fun entry => some entry.1) ++
    ((h.keepers id).map fun v => h.editorOf? v.call) ++ List.replicate (h.freshReleases none id) none

/-- The references to a connection that belong to an editor. -/
def share (h : Host) (e : EditorId) (id : ConnectionId) : Nat := (h.holders id).count (some e)

theorem share_eq (hn : (h.attachments.map Prod.fst).Nodup) (e : EditorId) (id : ConnectionId) :
    h.share e id = (if (h.attachment? e).bind h.behind? = some id then 1 else 0) +
      (h.keepers id).countP fun v => h.editorOf? v.call = some e := by
  have hentries := count_entries hn (fun a => decide (h.behind? a = some id)) e
  have hbehind : ((h.attachments.lookup e).any fun a => decide (h.behind? a = some id)) = true ↔
      (h.attachment? e).bind h.behind? = some id := by
    rw [attachment?, Option.any_eq_true, Option.bind_eq_some_iff]
    simp only [decide_eq_true_eq]
  simp only [hbehind] at hentries
  have hgate : ((h.keepers id).map fun v => h.editorOf? v.call).count (some e) =
      (h.keepers id).countP fun v => h.editorOf? v.call = some e := by
    rw [List.count, List.countP_map]
    exact List.countP_congr fun v _ => by simp
  rw [share, holders, List.count_append, List.count_append, hentries, hgate,
    List.count_eq_zero.2 fun hm => Option.some_ne_none e (List.mem_replicate.1 hm).2, Nat.add_zero]

section Event
variable (hh : h.Happens (some c) task h') (hs : h.Staged) (hx : h.call? c = some x)

include hs hx in
theorem Moves.others (hm : h.Moves (some c) task h') (hc : x.task.editor? = some e₀) (hne : e ≠ e₀) :
    h'.attachment? e = h.attachment? e := by
  cases hm with
  | still hentries | dropped _ _ hentries => exact hentries e
  | opens hy _ hcomes =>
    obtain rfl := Option.some.inj (hx.symm.trans hy)
    rw [← Option.some.inj hc] at hne
    rw [hcomes.others hne, entering_attachment?, if_neg hne]
  | goes hy ho hcomes =>
    obtain rfl := Option.some.inj (hx.symm.trans hy)
    obtain ⟨editor, ht, he, _⟩ := (hs c x hx).opening ho
    rw [ht] at hc
    rw [← Option.some.inj hc, ← he] at hne
    exact hcomes.others hne
  | closes hy hothers =>
    obtain rfl := Option.some.inj (hx.symm.trans hy)
    exact hothers e (Option.some.inj hc ▸ hne)
  | drains hy =>
    obtain rfl := Option.some.inj (hx.symm.trans hy)
    cases hc

include hh hs in
theorem Happens.launcher? (hslot : h.registry.slots[i]? = some s) {s' : Slot}
    (hslot' : h'.registry.slots[i]? = some s') {v : Visit} (hv : v.call ≠ c) :
    s'.launcher? id = some v ↔ s.launcher? id = some v := by
  rcases hh.deeds hs with he | ⟨d, _, _, hd, _, _, hdeeds⟩
  · rw [he, hslot] at hslot'
    rw [Option.some.inj hslot']
  · obtain rfl := Option.some.inj hd
    have hstays (hw : s.work? = some (v, .launch)) :
        s'.work? = some (v, .launch) ∧ s'.generation = s.generation := by
      obtain ⟨t, ht, hw', hcs⟩ := hdeeds.work_stays hslot hw hv
      obtain rfl := Option.some.inj (hslot'.symm.trans ht)
      exact ⟨hw', congrArg List.length hcs⟩
    rw [Slot.launcher?_eq_some, Slot.launcher?_eq_some]
    constructor
    · rintro ⟨hw', hg⟩
      obtain ⟨t, ht, hw⟩ := hdeeds.work_back hslot' hw' hv
      obtain rfl := Option.some.inj (hslot.symm.trans ht)
      exact ⟨hw, (hstays hw).2.symm.trans hg⟩
    · rintro ⟨hw, hg⟩
      exact ⟨(hstays hw).1, (hstays hw).2.trans hg⟩

include hh hs hx in
theorem Happens.others_keep (ho : h.Ordered none Q) (ho' : h'.Ordered none Q') (hc : x.task.editor? ≠ some e)
    (id : ConnectionId) : ((h'.keepers id).countP fun v => h'.editorOf? v.call = some e) =
      (h.keepers id).countP fun v => h.editorOf? v.call = some e := by
  obtain ⟨t, d, hd, _, hwork⟩ := hh.works hs
  obtain rfl : c = d := by simpa using hd
  have hlater {d : CallId} {y : Call} (hy : h.call? d = some y) : h'.editorOf? d = h.editorOf? d := by
    obtain ⟨y', hy', ht, _⟩ := hwork.call hy
    rw [editorOf?, hy', editorOf?, hy, Option.bind_some, Option.bind_some, ht]
  have hother (v : Visit) (hv : decide (h.editorOf? v.call = some e) = true) : v.call ≠ c := by
    rintro rfl
    rw [editorOf?, hx] at hv
    exact hc (of_decide_eq_true hv)
  cases hslot : h.registry.slots[id.slot]? with
  | none =>
    -- Nobody is at the gate of a new slot but the call that it has been made for.
    rw [keepers, keepers, hslot]
    refine List.countP_eq_zero.2 fun v hv => ?_
    cases hslot' : h'.registry.slots[id.slot]? with
    | none =>
      rw [hslot'] at hv
      cases hv
    | some s' =>
      rw [hslot'] at hv
      rcases hwork.slot_back hslot' with ⟨s, hs₀, _⟩ | ⟨_, hlog⟩
      · cases hslot.symm.trans hs₀
      · have hvisits := Slot.mem_keepers hv
        rw [(ho'.sound.lives _ _ hslot').recalls.gate] at hvisits
        obtain rfl : v.call = c := hlog _ (Slot.Log.came_of_mem_gate hvisits)
        rw [hlater hx]
        exact fun hv => hother v hv rfl
  | some s =>
    obtain ⟨s', hslot', _, hspares⟩ := hwork.slot hslot
    have hlives := ho.sound.lives _ _ hslot
    have hlives' := ho'.sound.lives _ _ hslot'
    have hknown (v : Visit) (hv : v ∈ s'.visits) : h'.editorOf? v.call = h.editorOf? v.call := by
      by_cases hvc : v.call = c
      · rw [hvc, hlater hx]
      · obtain ⟨y, hy⟩ := Option.isSome_iff_exists.1 (ho.known _ _ hslot v ((hspares.visits v hvc).1 hv))
        exact hlater hy
    have hlauncher (v : Visit) (hv : v.call ≠ c) : s'.launcher? id = some v ↔ s.launcher? id = some v :=
      hh.launcher? hs hslot hslot' hv
    rw [keepers, keepers, hslot, hslot', Option.map_some, Option.map_some, Option.getD_some, Option.getD_some,
      List.countP_congr fun v hv => by rw [hknown v (Slot.mem_keepers hv)]]
    exact hspares.keepers (.of_map _ hlives.valid.distinct) (.of_map _ hlives'.valid.distinct) hlauncher hother

include hh hs hx in
/-- What is done for an editor leaves the references of the others alone. -/
theorem Happens.others_share (ho : h.Ordered none Q) (ho' : h'.Ordered none Q') (hf : h.Follows none none g)
    (hf' : h'.Follows none none g') (hentry : h'.attachment? e = h.attachment? e) (hc : x.task.editor? ≠ some e)
    (id : ConnectionId) : h'.share e id = h.share e id := by
  obtain ⟨_, _, _, _, hwork⟩ := hh.works hs
  have hbehind : (h.attachment? e).bind h'.behind? = (h.attachment? e).bind h.behind? := by
    cases ha : h.attachment? e with
    | none => rfl
    | some a =>
      cases a with
      | pending => rfl
      | attached σ =>
        obtain ⟨maker, _, hmaker⟩ := hf.attached e σ ha
        obtain ⟨y, hy⟩ := Option.isSome_iff_exists.1 (hf.made σ maker hmaker).2.1
        obtain ⟨y', hy', hconnection, _⟩ := hwork.session hy
        show h'.connectionOf? σ = h.connectionOf? σ
        rw [connectionOf?, connectionOf?, hy, hy', Option.map_some, Option.map_some, hconnection]
  rw [share_eq hf'.editors, share_eq hf.editors, hentry, hbehind, hh.others_keep hs hx ho ho' hc]

end Event

/-- The references that the registry counts are those of the holders. -/
structure Accounted (h : Host) : Prop where
  /-- A live connection has the references of its holders, and more only while somebody is about to clear its slot. -/
  live : ∀ (i : Nat) (s : Slot) (k : Nat) (y : Connection), h.registry.slots[i]? = some s →
    s.current = some (k + 1) → s.connections[k]? = some y → y.isLive = true →
      (h.holders ⟨i, k + 1⟩).length ≤ y.refs ∧ ((h.holders ⟨i, k + 1⟩).length = y.refs ∨ s.Clears)
  /-- The connection that an editor is attached by serves its key, with exactly the references of its holders. -/
  attached : ∀ e σ, h.attachment? e = some (.attached σ) → ∃ (i k : Nat) (s : Slot) (y : Connection),
    h.connectionOf? σ = some ⟨i, k + 1⟩ ∧ h.registry.slots[i]? = some s ∧ s.Ready k y ∧
      (h.holders ⟨i, k + 1⟩).length = y.refs

theorem Books.accounted {K : EditorId → Option ServerKey} (hb : h.Books K none none []) (hs : h.registry.Sound) :
    h.Accounted := by
  have hlive (i : Nat) (s : Slot) (k : Nat) (y : Connection) (hslot : h.registry.slots[i]? = some s)
      (hg : s.current = some (k + 1)) (hy : s.connections[k]? = some y) (hl : y.isLive = true) :
      (h.holders ⟨i, k + 1⟩).length ≤ y.refs ∧ ((h.holders ⟨i, k + 1⟩).length = y.refs ∨ s.Clears) := by
    have howned := hb.owned i s hslot k y hg hy hl
    have hgate := (hs.lives i s hslot).valid.keepers_length hg
    rw [hs.numbers i s hslot] at howned hgate
    have hkeepers : h.keepers ⟨i, k + 1⟩ = s.keepers ⟨i, k + 1⟩ := by rw [keepers, hslot]; rfl
    have hlength : (h.holders ⟨i, k + 1⟩).length =
        h.owners none ⟨i, k + 1⟩ + s.releases ⟨i, k + 1⟩ + s.launchers := by
      rw [holders, List.length_append, List.length_append, List.length_map, List.length_map, List.length_replicate,
        ← List.countP_eq_length_filter, hkeepers, hgate, owners, attachedTo]
      omega
    simp only [reduceCtorEq, if_false, Nat.add_zero, List.not_mem_nil, or_false, ← hlength] at howned
    exact howned
  refine ⟨hlive, fun e σ ha => ?_⟩
  obtain ⟨y, s, k, _, hy, _, hslot, hgeneration, ⟨⟨d, hd⟩, hclears⟩, _⟩ := hb.attached e σ (attachment?_mem ha)
  have hid : y.connection = ⟨y.connection.slot, k + 1⟩ := by rw [← hgeneration]
  obtain ⟨_, hcount⟩ := hlive _ s k d hslot hd.1 hd.2.1 hd.isLive
  refine ⟨y.connection.slot, k, s, d, ?_, hslot, hd, hcount.resolve_right hclears⟩
  rw [connectionOf?, hy, Option.map_some, ← hid]

end Host
end LanguageHost
