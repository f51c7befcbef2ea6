import LanguageHost.Proofs.Host.Runs
import LanguageHost.Proofs.Registry.Sharing

/-! For its callers every key of the registry is a sequential counter. -/
namespace LanguageHost

/-- The calls on a key, in the order in which they obtain its gate, are the steps of a counter, and the
key shows the counter. -/
structure Host.Linear (h : Host) (key : ServerKey) (s : Slot) : Prop where
  order : Slot.Log.EachTurn (fun older t => (Slot.Log.gate older).head? = some t.toVisit) s.log
  asked : ∀ t ∈ s.turns, h.Asked s.number t
  /-- The counter allows every turn, with its ending and its answer, after those before it. -/
  runs : Tally.Runs s.number s.turns
  count : s.holder = none → h.registry.refCount key = s.tally.count
  connection : s.holder = none → (h.registry.connection? key).map Connection.id = s.tally.entry.map Prod.fst
  status : s.holder = none → h.registry.status? key = s.tally.entry.map Prod.snd
  launches : s.holder = none → (h.registry.launches.filter fun id => id.slot = s.number).length = s.tally.launches
  stops : s.holder = none → (s.connections.map Connection.stops).sum = s.tally.stops

variable {h : Host} {Q : Nat → Request → Prop} {key : ServerKey} {s : Slot}

theorem Host.Ordered.linear (ho : h.Ordered none Q) (hslot : h.registry.slot? key = some s) : h.Linear key s := by
  have hs := (Registry.Sound.slot?_slot ho.sound hslot).1
  have hl := ho.sound.lives _ s hs
  have hconnection : h.registry.connection? key = s.current? := by simp [Registry.connection?, hslot]
  have hshown (hfree : s.holder = none) : s.shown = s.tally := hl.counts.outside (by simp [Slot.work?, hfree])
  refine ⟨?_, ho.asked _ s hs, hl.counts.runs, fun hfree => ?_, fun hfree => ?_, fun hfree => ?_,
    fun hfree => ?_, fun hfree => ?_⟩
  · exact fun newer t older he => (hl.recalls.turns newer t older he).1
  · rw [Registry.refCount, hconnection]
    exact congrArg Tally.count (hshown hfree)
  · rw [← hshown hfree, hconnection]
    simp [Slot.shown, Function.comp_def]
  · rw [← hshown hfree, Registry.status?, hconnection]
    simp [Slot.shown, Function.comp_def]
  · rw [← hshown hfree, ho.sound.launches _ s hs, List.length_map]
    rfl
  · exact congrArg Tally.stops (hshown hfree)

/-- In every run each key is a counter of references, launches and shutdowns, driven by the turns that
calls have at its gate; nobody has asked for a key without a slot; and a call to acquire returns the
connection or the error that it was answered at the gate, or that its key is not valid. -/
theorem registry_linear (bounds : Bounds) (events : List Event) :
    let h := (Host.new bounds).run events
    (∀ key s, h.registry.slot? key = some s → h.Linear key s) ∧
    (∀ key, h.registry.slot? key = none → h.registry.refCount key = 0 ∧ h.registry.connection? key = none) ∧
    ∀ c x, h.call? c = some x → h.Reports c x := by
  have ho := Host.run_ordered bounds events
  refine ⟨fun key s hs => ho.linear hs, fun key hs => ?_, fun c x hx => ho.reports c x (by simp) hx⟩
  have hconnection : ((Host.new bounds).run events).registry.connection? key = none := by
    simp [Registry.connection?, hs]
  exact ⟨by rw [Registry.refCount, hconnection]; rfl, hconnection⟩

end LanguageHost
