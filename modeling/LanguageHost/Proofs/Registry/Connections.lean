import LanguageHost.Proofs.Language.Identity
import LanguageHost.Proofs.Registry.Gate

/-! The life of the connections of a slot: the states they go through, and that at most one of
them has a server. -/
namespace LanguageHost

namespace Connection
variable {c : Connection}

/-- What a connection in some state holds and has been through. -/
def Lawful (c : Connection) : Prop :=
  match c.status with
  | .starting => c.refs = 1 ∧ c.process = none ∧ c.stops = 0 ∧ c.past = []
  | .ready => 0 < c.refs ∧ c.process.isSome ∧ c.stops = 0 ∧ c.past = [.starting]
  | .failed => c.refs = 0 ∧ c.process = none ∧ c.stops = 0 ∧ c.past = [.starting]
  | .shuttingDown => c.refs = 0 ∧ c.process = none ∧ c.stops = 1 ∧ c.past = [.ready, .starting]
  | .closed => c.refs = 0 ∧ c.process = none ∧ c.stops = 1 ∧ c.past = [.shuttingDown, .ready, .starting]

/-- A server may be running for the connection. -/
def Running (c : Connection) : Prop := c.status = .starting ∨ c.status = .ready ∨ c.status = .shuttingDown

/-- The last reference is given back, or all of them are taken away. -/
def beginClose (c : Connection) : Connection := { c with refs := 0 }.beginStop

theorem launching_lawful (id : ConnectionId) (key : ServerKey) (document : Option Path) :
    (launching id key document).Lawful := ⟨rfl, rfl, rfl, rfl⟩

theorem Lawful.attach (h : c.Lawful) (hs : c.status = .starting) (p : Process) : (c.attach p).Lawful := by
  simp only [Lawful, hs] at h
  simp [Lawful, Connection.attach, setStatus, h, hs]

theorem Lawful.fail (h : c.Lawful) (hs : c.status = .starting) : c.fail.Lawful := by
  simp only [Lawful, hs] at h
  simp [Lawful, Connection.fail, setStatus, h, hs]

theorem Lawful.setRefs (h : c.Lawful) (hs : c.status = .ready) {n : Nat} (hn : 0 < n) :
    Lawful { c with refs := n } := by
  simp only [Lawful, hs] at h
  simp [Lawful, h, hs, hn]

theorem Lawful.beginClose (h : c.Lawful) (hs : c.status = .ready) :
    c.beginClose.Lawful ∧ c.beginClose.status = .shuttingDown := by
  simp only [Lawful, hs, Option.isSome_iff_exists] at h
  obtain ⟨_, ⟨p, hp⟩, h0, hpast⟩ := h
  simp [Lawful, Connection.beginClose, beginStop, setStatus, hp, h0, hpast, hs]

theorem Lawful.endStop (h : c.Lawful) (hs : c.status = .shuttingDown) : c.endStop.Lawful := by
  simp only [Lawful, hs] at h
  simp [Lawful, Connection.endStop, setStatus, h, hs]

@[simp] theorem beginClose_id : c.beginClose.id = c.id := by
  unfold beginClose beginStop
  cases c.process <;> rfl

@[simp] theorem beginClose_key : c.beginClose.key = c.key := by
  unfold beginClose beginStop
  cases c.process <;> rfl

theorem Lawful.refs_eq_zero (h : c.Lawful) (hl : c.isLive = false) : c.refs = 0 := by
  simp only [isLive, Status.isLive] at hl
  unfold Lawful at h
  split at h <;> simp_all

end Connection

/-- Where a connection in some state may stand among `count` connections, given the generation that
is current and what the call inside waits for. -/
def Status.Fits (count : Nat) (current : Option Nat) (work : Option Work) (g : Nat) : Status → Prop
  | .starting => current = some g ∧ g = count ∧ work = some .launch
  | .ready => current = some g
  | .shuttingDown => ∃ answer, work = some (.stop g answer)
  | .failed => True
  | .closed => current ≠ some g

/-- The connections of a slot with their current one, while a call waits inside for `work`. -/
structure Table (key : ServerKey) (number : Nat) (connections : List Connection) (current : Option Nat)
    (work : Option Work) : Prop where
  lawful : ∀ i (c : Connection), connections[i]? = some c → c.Lawful ∧ c.id = ⟨number, i + 1⟩ ∧
    (key == c.key) = true
  fits : ∀ i (c : Connection), connections[i]? = some c → c.status.Fits connections.length current work (i + 1)
  current_le : ∀ g, current = some g → 0 < g ∧ g ≤ connections.length
  earlier : ∀ i (c : Connection), connections[i]? = some c → i + 1 < connections.length → ¬c.Running
  launching : work = some .launch → ∃ c : Connection, connections.getLast? = some c ∧ c.status = .starting
  stopping : ∀ g answer, work = some (.stop g answer) →
    current = none ∧ 0 < g ∧ ∃ c : Connection, connections[g - 1]? = some c ∧ c.status = .shuttingDown

namespace Table
variable {key : ServerKey} {number : Nat} {cs : List Connection} {current : Option Nat} {work : Option Work}
  {i g : Nat} {c : Connection}

theorem empty (key : ServerKey) (number : Nat) : Table key number [] none none :=
  ⟨by simp, by simp, by simp, by simp, by simp, by simp⟩

/-- At any moment a server may be running for one connection at most. -/
theorem running_unique (h : Table key number cs current work) {j : Nat} {d : Connection}
    (hi : cs[i]? = some c) (hj : cs[j]? = some d) (hc : c.Running) (hd : d.Running) : i = j := by
  have fc := h.fits i c hi
  have fd := h.fits j d hj
  have hs := h.stopping
  rcases hc with e | e | e <;> rcases hd with e' | e' | e' <;> rw [e] at fc <;> rw [e'] at fd <;>
    simp only [Status.Fits] at fc fd <;> grind

theorem current_status (h : Table key number cs (some g) none) :
    0 < g ∧ ∃ c, cs[g - 1]? = some c ∧ (c.status = .ready ∨ c.status = .failed) := by
  obtain ⟨hpos, hle⟩ := h.current_le g rfl
  obtain ⟨c, hc⟩ : ∃ c, cs[g - 1]? = some c := ⟨cs[g - 1], List.getElem?_eq_getElem (by omega)⟩
  have hf := h.fits _ c hc
  rw [show g - 1 + 1 = g by omega] at hf
  refine ⟨hpos, c, hc, ?_⟩
  cases hs : c.status <;> rw [hs] at hf <;> simp_all [Status.Fits]

/-- Only a connection that is not over changes, and it stays lawful. The others have to fit the new
state. -/
theorem modify (h : Table key number cs current work) (f : Connection → Connection) (hc : cs[i]? = some c)
    (hr : c.Running) (hlaw : (f c).Lawful) (hid : (f c).id = c.id) (hkey : (f c).key = c.key)
    {current' : Option Nat} {work' : Option Work} (hfit : (f c).status.Fits cs.length current' work' (i + 1))
    (hothers : ∀ j d, j ≠ i → cs[j]? = some d → d.status.Fits cs.length current work (j + 1) →
      d.status.Fits cs.length current' work' (j + 1))
    (hcur : ∀ g, current' = some g → current = some g) (hlaunch : work' ≠ some .launch)
    (hstop : ∀ g answer, work' = some (.stop g answer) →
      current' = none ∧ g = i + 1 ∧ (f c).status = .shuttingDown) :
    Table key number (cs.modify i f) current' work' := by
  have hget : ∀ j d, (cs.modify i f)[j]? = some d → (j = i ∧ d = f c) ∨ (j ≠ i ∧ cs[j]? = some d) := by
    intro j d hd
    rw [List.getElem?_modify] at hd
    by_cases e : i = j
    · subst e
      rw [hc] at hd
      exact .inl ⟨rfl, by simpa using hd.symm⟩
    · exact .inr ⟨Ne.symm e, by simpa [e] using hd⟩
  constructor
  · intro j d hd
    rcases hget j d hd with ⟨rfl, rfl⟩ | ⟨_, hd⟩
    · rw [hid, hkey]
      exact ⟨hlaw, (h.lawful _ c hc).2⟩
    · exact h.lawful j d hd
  · intro j d hd
    rw [List.length_modify]
    rcases hget j d hd with ⟨rfl, rfl⟩ | ⟨hj, hd⟩
    · exact hfit
    · exact hothers j d hj hd (h.fits j d hd)
  · intro g hg
    rw [List.length_modify]
    exact h.current_le g (hcur g hg)
  · intro j d hd hlt
    rw [List.length_modify] at hlt
    rcases hget j d hd with ⟨rfl, rfl⟩ | ⟨_, hd⟩
    · exact absurd hr (h.earlier _ c hc hlt)
    · exact h.earlier j d hd hlt
  · intro hw
    exact absurd hw hlaunch
  · intro g answer hw
    obtain ⟨hnone, rfl, hs⟩ := hstop g answer hw
    refine ⟨hnone, by omega, f c, ?_, hs⟩
    rw [Nat.add_sub_cancel, List.getElem?_modify, hc]
    simp

theorem all_over (h : Table key number cs current none)
    (hcur : ∀ g c, current = some g → cs[g - 1]? = some c → c.isLive = false) (hc : cs[i]? = some c) :
    ¬c.Running := by
  have hf := h.fits i c hc
  rintro (hs | hs | hs) <;> rw [hs] at hf <;> simp only [Status.Fits] at hf
  · simp at hf
  · have := hcur _ c hf (by simpa using hc)
    simp [Connection.isLive, hs, Status.isLive] at this
  · simp at hf

theorem launch (h : Table key number cs current none) {key' : ServerKey} (hkey : (key == key') = true)
    (document : Option Path) (hcur : ∀ g c, current = some g → cs[g - 1]? = some c → c.isLive = false) :
    Table key number (cs ++ [.launching ⟨number, cs.length + 1⟩ key' document]) (some (cs.length + 1))
      (some .launch) := by
  have hget : ∀ j d, (cs ++ [Connection.launching ⟨number, cs.length + 1⟩ key' document])[j]? = some d →
      cs[j]? = some d ∨ (j = cs.length ∧ d = .launching ⟨number, cs.length + 1⟩ key' document) := by
    intro j d hd
    rw [List.getElem?_append] at hd
    split at hd
    · exact .inl hd
    · rw [List.getElem?_singleton] at hd
      split at hd
      · exact .inr ⟨by omega, by simpa using hd.symm⟩
      · cases hd
  constructor
  · intro j d hd
    rcases hget j d hd with hd | ⟨rfl, rfl⟩
    · exact h.lawful j d hd
    · exact ⟨Connection.launching_lawful _ _ _, rfl, hkey⟩
  · intro j d hd
    rw [List.length_append, List.length_singleton]
    rcases hget j d hd with hd | ⟨rfl, rfl⟩
    · have hlt : j < cs.length := (List.getElem?_eq_some_iff.1 hd).1
      have hf := h.fits j d hd
      cases hs : d.status <;> rw [hs] at hf <;> simp only [Status.Fits] at hf ⊢
      · simp at hf
      · have := hcur _ d hf (by simpa using hd)
        simp [Connection.isLive, hs, Status.isLive] at this
      · simp at hf
      · simp; omega
    · exact ⟨rfl, rfl, rfl⟩
  · intro g hg
    rw [List.length_append, List.length_singleton]
    have : g = cs.length + 1 := by simpa using hg.symm
    omega
  · intro j d hd hlt
    rw [List.length_append, List.length_singleton] at hlt
    rcases hget j d hd with hd | ⟨rfl, rfl⟩
    · exact h.all_over hcur hd
    · omega
  · intro _
    exact ⟨_, List.getLast?_concat, rfl⟩
  · simp

theorem launching_last (h : Table key number cs current (some .launch)) :
    0 < cs.length ∧ ∃ c, cs[cs.length - 1]? = some c ∧ c.status = .starting ∧ current = some cs.length := by
  obtain ⟨c, hc, hs⟩ := h.launching rfl
  rw [List.getLast?_eq_getElem?] at hc
  have hlt := (List.getElem?_eq_some_iff.1 hc).1
  have hf := h.fits _ c hc
  rw [hs] at hf
  exact ⟨by omega, c, hc, hs, by rw [hf.1]; congr 1; omega⟩

theorem others_over (h : Table key number cs current (some .launch)) {j : Nat} {d : Connection}
    (hj : j ≠ cs.length - 1) (hd : cs[j]? = some d) : d.status = .failed ∨ d.status = .closed := by
  obtain ⟨_, c, hc, hs, _⟩ := h.launching_last
  have := fun hr => hj (h.running_unique hd hc hr (.inl hs))
  cases e : d.status <;> simp_all [Connection.Running]

private theorem fits_of_over {d : Connection} (ho : d.status = .failed ∨ d.status = .closed) {n g' : Nat}
    {w w' : Option Work}
    (hf : d.status.Fits n current w g') : d.status.Fits n current w' g' := by
  rcases ho with e | e <;> rw [e] at hf ⊢ <;> exact hf

theorem attach (h : Table key number cs current (some .launch)) (p : Process) :
    Table key number (cs.modify (cs.length - 1) (Connection.attach · p)) current none := by
  obtain ⟨hpos, c, hc, hs, hcur⟩ := h.launching_last
  refine h.modify _ hc (.inl hs) ((h.lawful _ c hc).1.attach hs p) rfl rfl ?_ ?_ (fun _ hg => hg)
    (by simp) (by simp)
  · show current = some (cs.length - 1 + 1)
    rw [hcur, Nat.sub_add_cancel hpos]
  · intro j d hj hd hf
    exact fits_of_over (h.others_over hj hd) hf

theorem fail (h : Table key number cs current (some .launch)) :
    Table key number (cs.modify (cs.length - 1) Connection.fail) current none := by
  obtain ⟨hpos, c, hc, hs, hcur⟩ := h.launching_last
  refine h.modify _ hc (.inl hs) ((h.lawful _ c hc).1.fail hs) rfl rfl trivial ?_ (fun _ hg => hg)
    (by simp) (by simp)
  intro j d hj hd hf
  exact fits_of_over (h.others_over hj hd) hf

theorem setRefs (h : Table key number cs (some (i + 1)) none) (hc : cs[i]? = some c) (hs : c.status = .ready)
    {n : Nat} (hn : 0 < n) (f : Connection → Connection) (hf : f c = { c with refs := n }) :
    Table key number (cs.modify i f) (some (i + 1)) none := by
  refine h.modify f hc (.inr (.inl hs)) ?_ (by rw [hf]) (by rw [hf]) ?_ (fun _ _ _ _ h => h) (fun _ hg => hg)
    (by simp) (by simp)
  · rw [hf]
    exact (h.lawful _ c hc).1.setRefs hs hn
  · rw [hf]
    show c.status.Fits _ _ _ _
    rw [hs]
    rfl

theorem close (h : Table key number cs (some (i + 1)) none) (hc : cs[i]? = some c) (hs : c.status = .ready)
    (answer : Answer) :
    Table key number (cs.modify i Connection.beginClose) none (some (.stop (i + 1) answer)) := by
  obtain ⟨hlaw, hs'⟩ := (h.lawful _ c hc).1.beginClose hs
  refine h.modify _ hc (.inr (.inl hs)) hlaw c.beginClose_id c.beginClose_key ?_ ?_ (by simp) (by simp) ?_
  · rw [hs']
    exact ⟨answer, rfl⟩
  · intro j d hj hd hf
    have hr := fun hr => hj (h.running_unique hd hc hr (.inr (.inl hs)))
    cases e : d.status <;> simp_all [Connection.Running, Status.Fits]
  · intro g a hg
    simp only [Option.some.injEq, Work.stop.injEq] at hg
    exact ⟨rfl, hg.1.symm, hs'⟩

theorem endStop {answer : Answer} (h : Table key number cs current (some (.stop g answer))) :
    Table key number (cs.modify (g - 1) Connection.endStop) current none := by
  obtain ⟨hcur, hpos, c, hc, hs⟩ := h.stopping g answer rfl
  refine h.modify _ hc (.inr (.inr hs)) ((h.lawful _ c hc).1.endStop hs) rfl rfl ?_ ?_ (fun _ hg => hg)
    (by simp) (by simp)
  · show current ≠ some (g - 1 + 1)
    simp [hcur]
  · intro j d hj hd hf
    have hr := fun hr => hj (h.running_unique hd hc hr (.inr (.inr hs)))
    cases e : d.status <;> simp_all [Connection.Running, Status.Fits]

theorem forget (h : Table key number cs current none)
    (hcur : ∀ g c, current = some g → cs[g - 1]? = some c → c.isLive = false) : Table key number cs none none := by
  refine ⟨h.lawful, ?_, by simp, h.earlier, by simp, by simp⟩
  intro j d hd
  have hf := h.fits j d hd
  cases hs : d.status <;> rw [hs] at hf <;> simp only [Status.Fits] at hf ⊢
  · simp at hf
  · have := hcur _ d hf (by simpa using hd)
    simp [Connection.isLive, hs, Status.isLive] at this
  · exact hf
  · simp

end Table
end LanguageHost
