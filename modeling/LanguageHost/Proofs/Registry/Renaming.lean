import LanguageHost.Proofs.Registry.Turns

/-! A slot does not look at the numbers of calls and slots but to compare them: under other numbers it does the
same. -/
namespace LanguageHost

/-- Other numbers for calls and slots. -/
structure Renaming where
  call : CallId → CallId
  slot : Nat → Nat

variable (ρ : Renaming)

def ConnectionId.rename (id : ConnectionId) : ConnectionId := ⟨ρ.slot id.slot, id.generation⟩

def Connection.rename (c : Connection) : Connection := { c with id := c.id.rename ρ }

def Request.rename : Request → Request
  | .acquire key document seen => .acquire key document seen
  | .release expected => .release (expected.map (·.rename ρ))
  | .clear => .clear

def Answer.rename : Answer → Answer
  | .acquired id => .acquired (id.rename ρ)
  | .refused e => .refused e
  | .released => .released
  | .cleared closed => .cleared (closed.map (·.rename ρ))

def Visit.rename (v : Visit) : Visit := ⟨ρ.call v.call, v.request.rename ρ⟩

def Stage.rename : Stage → Stage
  | .granted => .granted
  | .launching since => .launching since
  | .stopping generation answer since => .stopping generation (answer.rename ρ) since

def Holder.rename (h : Holder) : Holder := ⟨h.toVisit.rename ρ, h.stage.rename ρ⟩

def Turn.rename (t : Turn) : Turn := ⟨t.toVisit.rename ρ, t.ending, t.answer.map (·.rename ρ)⟩

def Record.rename : Record → Record
  | .came v => .came (v.rename ρ)
  | .left c => .left (ρ.call c)
  | .turn t => .turn (t.rename ρ)

namespace Slot

def rename (s : Slot) : Slot :=
  { s with
    number := ρ.slot s.number
    connections := s.connections.map (·.rename ρ)
    holder := s.holder.map (·.rename ρ)
    queue := s.queue.map (·.rename ρ)
    log := s.log.map (·.rename ρ) }

def renameStep (r : Slot × Option Answer) : Slot × Option Answer := (r.1.rename ρ, r.2.map (·.rename ρ))

variable {ρ} {s : Slot} {v : Visit} {c : CallId}

theorem rename_holder (s : Slot) : (s.rename ρ).holder = s.holder.map (·.rename ρ) := rfl

@[simp] theorem rename_generation : (s.rename ρ).generation = s.generation := List.length_map _

theorem rename_connection? (g : Nat) : (s.rename ρ).connection? g = (s.connection? g).map (·.rename ρ) := by
  unfold connection?
  split
  · rfl
  · exact List.getElem?_map

theorem rename_current? : (s.rename ρ).current? = s.current?.map (·.rename ρ) := by
  show s.current.bind (s.rename ρ).connection? = _
  unfold current?
  cases s.current with
  | none => rfl
  | some g => exact rename_connection? g

/-- What is done to a connection whatever its identity is done to it under another one. -/
theorem rename_modify (s : Slot) (g : Nat) {f : Connection → Connection} (hf : ∀ c, (f c).rename ρ = f (c.rename ρ)) :
    (s.modify g f).rename ρ = (s.rename ρ).modify g f := by
  have hcs : (s.connections.modify (g - 1) f).map (·.rename ρ) =
      (s.connections.map (·.rename ρ)).modify (g - 1) f := by
    refine List.ext_getElem? fun j => ?_
    rw [List.getElem?_map, List.getElem?_modify, List.getElem?_modify, List.getElem?_map]
    cases s.connections[j]? with
    | none => rfl
    | some c =>
      simp only [Option.map_some, Option.map_eq_map]
      split
      · rw [hf]
      · rfl
  simp only [modify, rename, hcs]

theorem rename_handOver (s : Slot) : s.handOver.rename ρ = (s.rename ρ).handOver := by
  unfold handOver
  cases hq : s.queue with
  | nil => simp [rename, hq]
  | cons w rest =>
    simp only [rename, hq, List.map_cons, Option.map_some]
    rfl

theorem rename_leave (s : Slot) (t : Turn) : (s.leave t).rename ρ = (s.rename ρ).leave (t.rename ρ) :=
  rename_handOver _

theorem rename_reply (s : Slot) (v : Visit) (e : Ending) (a : Answer) :
    renameStep ρ (s.reply v e a) = (s.rename ρ).reply (v.rename ρ) e (a.rename ρ) :=
  congrArg (·, some (a.rename ρ)) (rename_leave s _)

theorem rename_beginStop (d : Connection) : d.beginStop.rename ρ = (d.rename ρ).beginStop := by
  obtain ⟨_, _, _, _, _, _, _ | _, _, _⟩ := d <;> rfl

theorem rename_stop (s : Slot) (now : Nat) (v : Visit) (d : Connection) (a : Answer) :
    renameStep ρ (s.stop now v d a) = (s.rename ρ).stop now (v.rename ρ) (d.rename ρ) (a.rename ρ) := by
  obtain ⟨id, key, document, status, past, refs, _ | p, capabilities, stops⟩ := d
  · have hf (d : Connection) : (d.beginStop.endStop).rename ρ = (d.rename ρ).beginStop.endStop :=
      congrArg Connection.endStop (rename_beginStop d)
    have hm := rename_modify (ρ := ρ) { s with current := none } id.generation hf
    show renameStep ρ (({ s with current := none }.modify id.generation fun d => d.beginStop.endStop).reply v .atOnce a) = _
    rw [rename_reply, hm]
    rfl
  · show renameStep ρ ({ ({ s with current := none }.modify id.generation Connection.beginStop) with
      holder := some ⟨v, .stopping id.generation a now⟩ }, none) = _
    have hm := rename_modify (ρ := ρ) { s with current := none } id.generation rename_beginStop
    show ({ (({ s with current := none } : Slot).modify id.generation Connection.beginStop).rename ρ with
      holder := some ⟨v.rename ρ, .stopping id.generation (a.rename ρ) now⟩ }, none) = _
    rw [hm]
    rfl

theorem rename_setRefs (s : Slot) (g n : Nat) : (s.modify g fun d => { d with refs := n }).rename ρ =
    (s.rename ρ).modify g fun d => { d with refs := n } := rename_modify s g fun _ => rfl

theorem rename_launch (s : Slot) (now : Nat) (v : Visit) (key : ServerKey) (document : Option Path) :
    (s.launch now v key document).rename ρ = (s.rename ρ).launch now (v.rename ρ) key document := by
  simp only [launch, rename, List.map_append, List.map_singleton, generation, List.length_map]
  rfl

theorem rename_acquire (s : Slot) (now : Nat) (v : Visit) (key : ServerKey) (document : Option Path) (seen : Nat) :
    renameStep ρ (s.acquire now v key document seen) = (s.rename ρ).acquire now (v.rename ρ) key document seen := by
  have hlive : (Connection.isLive ∘ fun d => d.rename ρ) = Connection.isLive := rfl
  unfold acquire
  rw [rename_current?, Option.filter_map, hlive]
  cases s.current?.filter Connection.isLive with
  | some d =>
    have hm := rename_modify (ρ := ρ) s d.id.generation (f := fun d => { d with refs := d.refs + 1 }) fun _ => rfl
    show renameStep ρ ((s.modify d.id.generation fun d => { d with refs := d.refs + 1 }).reply v .atOnce
      (.acquired d.id)) = _
    rw [rename_reply, hm]
    rfl
  | none =>
    have hfailure : (s.rename ρ).failure = s.failure := rfl
    rw [hfailure]
    cases s.failure.filter (fun f => seen < f.attempt) with
    | some f => exact rename_reply s v .atOnce _
    | none => exact congrArg (·, none) (rename_launch s now v key document)

/-- The connection that a release expects is the current one just if it is so under other numbers. -/
def Distinguishes (ρ : Renaming) (s : Slot) (r : Request) : Prop :=
  ∀ id d, r = .release (some id) → s.current? = some d → id.rename ρ = d.id.rename ρ → id = d.id

theorem rename_release (s : Slot) (now : Nat) (v : Visit) (expected : Option ConnectionId)
    (hd : Distinguishes ρ s (.release expected)) :
    renameStep ρ (s.release now v expected) =
      (s.rename ρ).release now (v.rename ρ) (expected.map (·.rename ρ)) := by
  have hcurrent : (s.rename ρ).current?.filter (fun d => ((expected.map (·.rename ρ)).all (· == d.id)) && d.isLive) =
      (s.current?.filter fun d => (expected.all (· == d.id)) && d.isLive).map (·.rename ρ) := by
    rw [rename_current?]
    cases hs : s.current? with
    | none => rfl
    | some d =>
      have hall : (expected.map (·.rename ρ)).all (· == (d.rename ρ).id) = expected.all (· == d.id) := by
        cases expected with
        | none => rfl
        | some id =>
          rw [Option.map_some, Option.all_some, Option.all_some, Bool.eq_iff_iff, beq_iff_eq, beq_iff_eq]
          exact ⟨hd id d rfl hs, fun he => congrArg (·.rename ρ) he⟩
      rw [Option.map_some, Option.filter_some, Option.filter_some, hall]
      show (if (expected.all (· == d.id) && d.isLive) = true then some (d.rename ρ) else none) = _
      split <;> rfl
  unfold release
  rw [hcurrent]
  cases s.current?.filter (fun d => (expected.all (· == d.id)) && d.isLive) with
  | none => exact rename_reply s v .atOnce .released
  | some d =>
    have hrefs (n : Nat) := rename_setRefs (ρ := ρ) s d.id.generation n
    obtain ⟨id, key, document, status, past, refs, process, capabilities, stops⟩ := d
    rcases refs with _ | _ | n
    · exact rename_reply s v .atOnce .released
    · show renameStep ρ ((s.modify id.generation fun d => { d with refs := 0 }).stop now v
        ⟨id, key, document, status, past, 0, process, capabilities, stops⟩ .released) = _
      rw [rename_stop, hrefs]
      rfl
    · show renameStep ρ ((s.modify id.generation fun d => { d with refs := n + 1 }).reply v .atOnce .released) = _
      rw [rename_reply, hrefs]
      rfl

theorem rename_clear (s : Slot) (now : Nat) (v : Visit) :
    renameStep ρ (s.clear now v) = (s.rename ρ).clear now (v.rename ρ) := by
  have hcurrent : ({ s.rename ρ with failure := none } : Slot).current? = s.current?.map (·.rename ρ) :=
    rename_current? (ρ := ρ) (s := { s with failure := none })
  have hsame : ({ s with failure := none } : Slot).current? = s.current? := rfl
  unfold clear
  dsimp only
  rw [hcurrent, hsame]
  cases s.current? with
  | none => exact rename_reply _ v .atOnce (.cleared none)
  | some d =>
    have hrefs := rename_setRefs (ρ := ρ) { s with failure := none } d.id.generation 0
    show renameStep ρ (if d.isLive then _ else _) = if d.isLive then _ else _
    split
    · rw [rename_stop, hrefs]
      rfl
    · exact rename_reply _ v .atOnce (.cleared none)

theorem rename_serve (s : Slot) (now : Nat) (v : Visit) (hd : Distinguishes ρ s v.request) :
    renameStep ρ (s.serve now v) = (s.rename ρ).serve now (v.rename ρ) := by
  obtain ⟨c, _ | _ | _⟩ := v
  · exact rename_acquire s now _ _ _ _
  · exact rename_release s now _ _ hd
  · exact rename_clear s now _

theorem rename_arrive (s : Slot) (now : Nat) (v : Visit) (hd : Distinguishes ρ s v.request) :
    renameStep ρ (s.arrive now v) = (s.rename ρ).arrive now (v.rename ρ) := by
  unfold arrive
  rw [rename_holder]
  cases s.holder with
  | none => exact rename_serve (s.note (.came v)) now v hd
  | some x =>
    show (({ s.note (.came v) with queue := s.queue ++ [v] } : Slot).rename ρ, none) = _
    simp only [rename, note, List.map_append, List.map_cons]
    rfl

theorem rename_enter (s : Slot) (now : Nat)
    (hd : ∀ v stage, s.holder = some ⟨v, stage⟩ → Distinguishes ρ s v.request) :
    renameStep ρ (s.enter now) = (s.rename ρ).enter now := by
  unfold enter
  rw [rename_holder]
  cases hh : s.holder with
  | none => rfl
  | some holder =>
    obtain ⟨v, _ | _ | _⟩ := holder
    · exact rename_serve s now v (hd v _ hh)
    · rfl
    · rfl

theorem rename_launched (s : Slot) (outcome : Except Error Process) :
    renameStep ρ (s.launched outcome) = (s.rename ρ).launched outcome := by
  obtain ⟨key, number, connections, current, finished, failure, holder, queue, log⟩ := s
  obtain _ | ⟨v, _ | since | _⟩ := holder
  · rfl
  · rfl
  · let s : Slot :=
      ⟨key, number, connections, current, finished + 1, failure, some ⟨v, .launching since⟩, queue, log⟩
    have hm {f : Connection → Connection} (hf : ∀ d, (f d).rename ρ = f (d.rename ρ)) :
        (s.modify s.generation f).rename ρ = (s.rename ρ).modify (s.rename ρ).generation f := by
      rw [rename_generation]
      exact rename_modify s s.generation hf
    cases outcome with
    | ok p =>
      have hslot := congrArg (fun t : Slot => { t with failure := none }) (hm (f := (·.attach p)) fun _ => rfl)
      have hanswer : (Answer.acquired ⟨s.number, s.generation⟩).rename ρ =
          .acquired ⟨(s.rename ρ).number, (s.rename ρ).generation⟩ := by
        rw [rename_generation]
        rfl
      exact (rename_reply _ v _ _).trans (congrArg₂ (fun (t : Slot) a => t.reply (v.rename ρ) _ a) hslot hanswer)
    | error e =>
      have hslot := congrArg (fun t : Slot => { t with failure := some ⟨finished + 1, e.message⟩ })
        (hm (f := Connection.fail) fun _ => rfl)
      exact (rename_reply _ v _ _).trans (congrArg (fun t : Slot => t.reply (v.rename ρ) _ _) hslot)
  · rfl

theorem rename_stopped (s : Slot) : renameStep ρ s.stopped = (s.rename ρ).stopped := by
  unfold stopped
  rw [rename_holder]
  cases s.holder with
  | none => rfl
  | some holder =>
    obtain ⟨v, _ | _ | ⟨g, a, since⟩⟩ := holder
    · rfl
    · rfl
    · have hm := rename_modify (ρ := ρ) (f := Connection.endStop) s g fun _ => rfl
      exact (rename_reply ..).trans (congrArg (·.reply (v.rename ρ) .stopped (a.rename ρ)) hm)

/-- A call leaves a slot under another number if no other call there is given that number. -/
theorem rename_abandon (s : Slot) (c : CallId) (hc : ∀ w ∈ s.visits, ρ.call w.call = ρ.call c → w.call = c) :
    (s.abandon c).rename ρ = (s.rename ρ).abandon (ρ.call c) := by
  have heq {w : Visit} (hw : w ∈ s.visits) : (w.rename ρ).call = ρ.call c ↔ w.call = c :=
    ⟨hc w hw, congrArg ρ.call⟩
  unfold abandon
  rw [rename_holder]
  cases hh : s.holder with
  | none => rfl
  | some holder =>
    obtain ⟨v, stage⟩ := holder
    have hv : v ∈ s.visits := by simp [visits, hh]
    have hqueue : (s.rename ρ).queue.any (·.call = ρ.call c) = s.queue.any (·.call = c) := by
      show (s.queue.map (·.rename ρ)).any _ = _
      rw [List.any_map, Bool.eq_iff_iff, List.any_eq_true, List.any_eq_true]
      refine exists_congr fun w => and_congr_right fun hw => ?_
      simp [heq (show w ∈ s.visits by simp [visits, hh, hw])]
    have hfilter : (s.rename ρ).queue.filter (fun w => w.call ≠ ρ.call c) =
        (s.queue.filter fun w => w.call ≠ c).map (·.rename ρ) := by
      show (s.queue.map (·.rename ρ)).filter _ = _
      rw [List.filter_map]
      refine congrArg _ (List.filter_congr fun w hw => ?_)
      simp [heq (show w ∈ s.visits by simp [visits, hh, hw])]
    simp only [Option.map_some, Holder.rename, heq hv, hqueue, hfilter]
    split
    · cases stage with
      | granted => exact rename_handOver _
      | launching since =>
        have hm := rename_modify (ρ := ρ) (f := Connection.fail) s s.generation fun _ => rfl
        rw [rename_generation]
        exact (rename_leave _ _).trans (congrArg (fun t : Slot => t.leave _) hm)
      | stopping g a since =>
        have hm := rename_modify (ρ := ρ) (f := Connection.endStop) s g fun _ => rfl
        exact (rename_leave _ _).trans (congrArg (fun t : Slot => t.leave _) hm)
    · split
      · rfl
      · rfl

theorem rename_deadline? (s : Slot) (launchBound stopBound : Nat) :
    (s.rename ρ).deadline? launchBound stopBound = s.deadline? launchBound stopBound := by
  unfold deadline?
  rw [rename_holder]
  rcases s.holder with _ | ⟨v, _ | _ | _⟩ <;> rfl

end Slot

end LanguageHost
