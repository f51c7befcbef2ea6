import LanguageHost.Project
import LanguageHost.Proofs.Path.Components
import LanguageHost.Proofs.Language.Identity

/-! The identity of a project whose root does not exist, against the place its path names. Two dots above the
start of a path take away two dots kept before, so the identity knows only whether a path climbs an odd
number of times. -/
namespace LanguageHost.Path

/-- One step of resolution, on the components kept so far with the last one first. Two dots take the
preceding name away, stay at the root, and are kept where nothing is left to take away. -/
def resolveStep (kept : List Component) : Component → List Component
  | .current => kept
  | .parent =>
    match kept with
    | .normal _ :: rest => rest
    | .root :: rest => .root :: rest
    | kept => .parent :: kept
  | c => c :: kept

/-- The place a path names, by its text alone. -/
def resolve (p : Path) : List Component := (p.components.foldl resolveStep []).reverse

/-- How often components climb above their start, and the names down from there with the last one first. -/
structure Trail where
  climbs : Nat
  names : List String

namespace Trail

def step (t : Trail) : Component → Trail
  | .parent =>
    match t.names with
    | [] => ⟨t.climbs + 1, []⟩
    | _ :: names => ⟨t.climbs, names⟩
  | .normal name => ⟨t.climbs, name :: t.names⟩
  | _ => t

/-- The components of a trail that shows so many climbs, the last one first. -/
def kept (t : Trail) (climbs : Nat) : List Component :=
  t.names.map .normal ++ List.replicate climbs .parent

/-- All names of a trail stand between slashes. -/
def Proper (t : Trail) : Prop := ∀ name ∈ t.names, (Component.normal name).Between

theorem Proper.step {t : Trail} (h : t.Proper) {c : Component} (hc : c.Between) : (t.step c).Proper := by
  obtain ⟨climbs, names⟩ := t
  cases c with
  | root | current => exact h
  | parent =>
    cases names with
    | nil => exact h
    | cons name names => exact fun x hx => h x (List.mem_cons_of_mem name hx)
  | normal name =>
    intro x hx
    rcases List.mem_cons.1 hx with rfl | hx
    · exact hc
    · exact h x hx

theorem Proper.foldl {t : Trail} (h : t.Proper) {body : List Component} (hb : ∀ c ∈ body, c.Between) :
    (body.foldl Trail.step t).Proper := by
  induction body generalizing t with
  | nil => exact h
  | cons c body ih =>
    exact ih (h.step (hb c List.mem_cons_self)) fun d hd => hb d (List.mem_cons_of_mem c hd)

theorem Proper.kept {t : Trail} (h : t.Proper) (climbs : Nat) : ∀ c ∈ t.kept climbs, c.Between := by
  intro c hc
  rcases List.mem_append.1 hc with hc | hc
  · obtain ⟨name, hn, rfl⟩ := List.mem_map.1 hc
    exact h name hn
  · obtain ⟨-, rfl⟩ := List.mem_replicate.1 hc
    exact .parent

end Trail

/-- The trail of a path below its root or its start. -/
def trail (p : Path) : Trail := p.components.foldl Trail.step ⟨0, []⟩

section Body
variable {body : List Component}

private theorem parent_or_normal {c : Component} (h : c.Between) : c = .parent ∨ ∃ name, c = .normal name := by
  cases c with
  | root | current => exact absurd h (by decide)
  | parent => exact .inl rfl
  | normal name => exact .inr ⟨name, rfl⟩

private theorem foldl_kept (step : List Component → Component → List Component)
    (view : Trail → List Component) (hp : ∀ t, step (view t) .parent = view (t.step .parent))
    (hn : ∀ t name, step (view t) (.normal name) = view (t.step (.normal name)))
    (h : ∀ c ∈ body, c.Between) (t : Trail) :
    body.foldl step (view t) = view (body.foldl Trail.step t) := by
  induction body generalizing t with
  | nil => rfl
  | cons c body ih =>
    have hc : step (view t) c = view (t.step c) := by
      obtain rfl | ⟨name, rfl⟩ := parent_or_normal (h c List.mem_cons_self)
      · exact hp t
      · exact hn t name
    rw [List.foldl_cons, List.foldl_cons, hc]
    exact ih (fun d hd => h d (List.mem_cons_of_mem c hd)) _

private theorem resolve_relative (h : ∀ c ∈ body, c.Between) (t : Trail) :
    body.foldl resolveStep (t.kept t.climbs) =
      (body.foldl Trail.step t).kept (body.foldl Trail.step t).climbs := by
  refine foldl_kept resolveStep (fun t => t.kept t.climbs) ?_ (fun _ _ => rfl) h t
  rintro ⟨_ | climbs, _ | ⟨name, names⟩⟩ <;> rfl

private theorem resolve_absolute (h : ∀ c ∈ body, c.Between) (t : Trail) :
    body.foldl resolveStep (t.kept 0 ++ [.root]) = (body.foldl Trail.step t).kept 0 ++ [.root] := by
  refine foldl_kept resolveStep (fun t => t.kept 0 ++ [.root]) ?_ (fun _ _ => rfl) h t
  rintro ⟨climbs, _ | ⟨name, names⟩⟩ <;> rfl

private theorem normalizeStep_climb {base : List Component} (hb : base = [] ∨ base = [.root]) (climbs : Nat) :
    normalizeStep (List.replicate (climbs % 2) .parent ++ base) .parent =
      List.replicate ((climbs + 1) % 2) .parent ++ base := by
  rcases Nat.mod_two_eq_zero_or_one climbs with hm | hm
  · rw [hm, show (climbs + 1) % 2 = 1 by omega]
    rcases hb with rfl | rfl <;> rfl
  · rw [hm, show (climbs + 1) % 2 = 0 by omega]
    rfl

private theorem normalize_body {base : List Component} (hb : base = [] ∨ base = [.root])
    (h : ∀ c ∈ body, c.Between) (t : Trail) :
    body.foldl normalizeStep (t.kept (t.climbs % 2) ++ base) =
      (body.foldl Trail.step t).kept ((body.foldl Trail.step t).climbs % 2) ++ base := by
  refine foldl_kept normalizeStep (fun t => t.kept (t.climbs % 2) ++ base) ?_ (fun _ _ => rfl) h t
  rintro ⟨climbs, _ | ⟨name, names⟩⟩
  · exact normalizeStep_climb hb climbs
  · rfl

end Body

/-- The components of a place below the root or below a start, with so many climbs shown. -/
def shown (p : Path) (climbs : Nat) : List Component :=
  (if p.isAbsolute then [.root] else []) ++ (p.trail.kept climbs).reverse

theorem trail_proper (p : Path) : p.trail.Proper := by
  have h0 : (⟨0, []⟩ : Trail).Proper := fun _ hx => nomatch hx
  obtain ⟨body, ⟨hb, hc⟩ | ⟨hb, -, hc⟩⟩ := p.components_shape
  · rw [trail, hc]
    split
    · show (body.foldl Trail.step ⟨0, []⟩).Proper
      exact h0.foldl hb
    · exact h0.foldl hb
  · rw [trail, hc]
    show (body.foldl Trail.step ⟨0, []⟩).Proper
    exact h0.foldl hb

/-- An absolute path names a place below the root; a relative one keeps as many leading dots as it climbs. -/
theorem resolve_eq (p : Path) : p.resolve = p.shown (if p.isAbsolute then 0 else p.trail.climbs) := by
  obtain ⟨body, ⟨hb, hc⟩ | ⟨hb, ha, hc⟩⟩ := p.components_shape
  · rw [resolve, shown, trail, hc]
    split
    · exact (congrArg List.reverse (resolve_absolute hb ⟨0, []⟩)).trans List.reverse_append
    · exact congrArg List.reverse (resolve_relative hb ⟨0, []⟩)
  · rw [resolve, shown, trail, hc, ha]
    exact congrArg List.reverse (resolve_relative hb ⟨0, []⟩)

/-- Normalisation keeps two dots when a path climbs an odd number of times, be it relative or absolute. -/
theorem normalizeComponents_eq (p : Path) :
    normalizeComponents p.components = p.shown (p.trail.climbs % 2) := by
  obtain ⟨body, ⟨hb, hc⟩ | ⟨hb, ha, hc⟩⟩ := p.components_shape
  · rw [normalizeComponents, shown, trail, hc]
    split
    · exact (congrArg List.reverse (normalize_body (.inr rfl) hb ⟨0, []⟩)).trans List.reverse_append
    · exact (congrArg List.reverse (normalize_body (.inl rfl) hb ⟨0, []⟩)).trans List.reverse_append
  · rw [normalizeComponents, shown, trail, hc, ha]
    exact (congrArg List.reverse (normalize_body (.inl rfl) hb ⟨0, []⟩)).trans List.reverse_append

theorem components_shown (p : Path) (climbs : Nat) : (ofComponents (p.shown climbs)).components = p.shown climbs := by
  have hk : ∀ c ∈ (p.trail.kept climbs).reverse, c.Between := fun c hc =>
    p.trail_proper.kept climbs c (List.mem_reverse.1 hc)
  rw [shown]
  split
  · exact components_absolute hk
  · exact components_relative hk

private theorem count_kept (t : Trail) (climbs : Nat) : (t.kept climbs).count .parent = climbs := by
  have hn : (t.names.map Component.normal).count .parent = 0 := List.count_eq_zero.2 (by simp)
  rw [Trail.kept, List.count_append, hn, List.count_replicate_self, Nat.zero_add]

private theorem kept_inj {t u : Trail} {m n : Nat} : t.kept m = u.kept n ↔ m = n ∧ t.names = u.names := by
  constructor
  · intro h
    obtain rfl : m = n := by rw [← count_kept t m, h, count_kept]
    have hm : t.names.map Component.normal = u.names.map .normal := List.append_cancel_right h
    exact ⟨rfl, (List.map_inj_right fun _ _ => Component.normal.inj).1 hm⟩
  · rintro ⟨rfl, h⟩
    rw [Trail.kept, Trail.kept, h]

theorem root_mem_shown {p : Path} {climbs : Nat} : .root ∈ p.shown climbs ↔ p.isAbsolute = true := by
  cases h : p.isAbsolute <;> simp [shown, h, Trail.kept]

/-- What is shown of a place tells whether it is absolute, the climbs and the names. -/
theorem shown_inj {p q : Path} {m n : Nat} :
    p.shown m = q.shown n ↔ p.isAbsolute = q.isAbsolute ∧ m = n ∧ p.trail.names = q.trail.names := by
  rw [← kept_inj]
  constructor
  · intro h
    have ha : p.isAbsolute = q.isAbsolute := Bool.eq_iff_iff.2 (by rw [← root_mem_shown, h, root_mem_shown])
    rw [shown, shown, ha] at h
    exact ⟨ha, List.reverse_inj.1 (List.append_cancel_left h)⟩
  · rintro ⟨ha, h⟩
    rw [shown, shown, ha, h]

end LanguageHost.Path

namespace LanguageHost

theorem FileSystem.canonical?_relative (fs : FileSystem) {p : Path} (h : p.isAbsolute = false) :
    fs.canonical? p = none := by
  rw [canonical?, reach, h]
  split <;> rfl

namespace Project
variable {fs : FileSystem} {p q : Path}

private theorem shown_empty (h : p.isEmpty = true) : p.shown (p.trail.climbs % 2) = [] := by
  obtain rfl : p = ⟨""⟩ := congrArg Path.mk (String.isEmpty_iff.1 h)
  rfl

private theorem isEmpty_ofComponents (p : Path) (climbs : Nat) :
    (Path.ofComponents (p.shown climbs)).isEmpty = true ↔ p.shown climbs = [] := by
  constructor
  · intro h
    rw [← Path.components_shown, show Path.ofComponents (p.shown climbs) = ⟨""⟩ from
      congrArg Path.mk (String.isEmpty_iff.1 h)]
    rfl
  · intro h
    rw [h]
    rfl

/-- A root that does not exist is identified by the path that normalisation leaves, if it leaves any. -/
theorem ofPath?_missing (h : fs.canonical? p = none) :
    ofPath? fs p = if p.shown (p.trail.climbs % 2) = [] then none
      else some ⟨Path.ofComponents (p.shown (p.trail.climbs % 2))⟩ := by
  rw [ofPath?, h]
  by_cases he : p.isEmpty = true
  · rw [if_pos he, if_pos (shown_empty he)]
  · rw [if_neg he]
    show (if p.normalize.isEmpty then none else some (⟨p.normalize⟩ : Project)) = _
    rw [Path.normalize, Path.normalizeComponents_eq]
    simp only [isEmpty_ofComponents]

theorem ofPath?_missing_beq (hp : fs.canonical? p = none) (hq : fs.canonical? q = none) :
    (ofPath? fs p == ofPath? fs q) = true ↔
      p.shown (p.trail.climbs % 2) = q.shown (q.trail.climbs % 2) := by
  have hc : ∀ (a b : List Path.Component),
      ((⟨Path.ofComponents a⟩ : Project) == ⟨Path.ofComponents b⟩) = true ↔
        (Path.ofComponents a).components = (Path.ofComponents b).components := fun _ _ => Path.beq_iff _ _
  rw [ofPath?_missing hp, ofPath?_missing hq]
  by_cases hpe : p.shown (p.trail.climbs % 2) = [] <;> by_cases hqe : q.shown (q.trail.climbs % 2) = []
  · simp [hpe, hqe]
  · simp [hpe, Ne.symm hqe, hqe]
  · simp [hpe, hqe]
  · rw [if_neg hpe, if_neg hqe, Option.some_beq_some, hc, Path.components_shown, Path.components_shown]

/-- Of the climbs of a root that does not exist its identity knows only whether they are odd, below the root
of the file system too. The place that is meant has no climbs there, and all of them elsewhere. -/
theorem identity_by_parity (hp : fs.canonical? p = none) (hq : fs.canonical? q = none) :
    (ofPath? fs p = none ↔ p.isAbsolute = false ∧ p.trail.climbs % 2 = 0 ∧ p.trail.names = []) ∧
    (∀ i, ofPath? fs p = some i → i.path = Path.ofComponents (p.shown (p.trail.climbs % 2)) ∧
      (i.path.components = p.resolve ↔
        if p.isAbsolute then p.trail.climbs % 2 = 0 else p.trail.climbs < 2)) ∧
    ((ofPath? fs p == ofPath? fs q) = true ↔ p.isAbsolute = q.isAbsolute ∧
      p.trail.climbs % 2 = q.trail.climbs % 2 ∧ p.trail.names = q.trail.names) ∧
    (p.resolve = q.resolve ↔ p.isAbsolute = q.isAbsolute ∧
      (p.isAbsolute = true ∨ p.trail.climbs = q.trail.climbs) ∧ p.trail.names = q.trail.names) := by
  refine ⟨?_, ?_, ?_, ?_⟩
  · rw [ofPath?_missing hp, ite_eq_left_iff]
    cases h : p.isAbsolute <;> simp [Path.shown, Path.Trail.kept, h, and_comm]
  · intro i hi
    rw [ofPath?_missing hp] at hi
    split_ifs at hi
    obtain rfl := Option.some.inj hi
    refine ⟨rfl, ?_⟩
    rw [Path.components_shown, Path.resolve_eq, Path.shown_inj]
    cases p.isAbsolute
    · simp only [true_and, and_true, Bool.false_eq_true, if_false]
      omega
    · simp
  · rw [ofPath?_missing_beq hp hq, Path.shown_inj]
  · rw [Path.resolve_eq, Path.resolve_eq, Path.shown_inj]
    cases p.isAbsolute <;> cases q.isAbsolute <;> simp

/-- Two climbs are forgotten. -/
theorem identity_climbing_twice :
    let fs : FileSystem := ⟨[]⟩
    let p : Path := ⟨"../../nope"⟩
    let q : Path := ⟨"nope"⟩
    (fs.canonical? p = none ∧ fs.canonical? q = none) ∧
      (ofPath? fs p == ofPath? fs q) = true := by
  have hp : (⟨[]⟩ : FileSystem).canonical? ⟨"../../nope"⟩ = none := FileSystem.canonical?_relative _ (by decide)
  have hq : (⟨[]⟩ : FileSystem).canonical? ⟨"nope"⟩ = none := FileSystem.canonical?_relative _ (by decide)
  exact ⟨⟨hp, hq⟩, (identity_by_parity hp hq).2.2.1.2 (by decide)⟩

private theorem nothing_below_root {p : Path} (hn : FileSystem.hasNul p = false) (ha : p.isAbsolute = true)
    (hs : FileSystem.steps p = ["nope"] ∨ FileSystem.steps p = ["..", "nope"]) :
    (⟨[]⟩ : FileSystem).canonical? p = none := by
  have hl : "nope".utf8ByteSize = 4 := by decide
  rcases hs with hs | hs <;>
    simp [FileSystem.canonical?, FileSystem.reach, hn, ha, hs, FileSystem.follow, FileSystem.entry?, Except.map, hl]

/-- Roots that lie apart may share an identity, and two spellings of one root may not. -/
theorem not_identity_iff_resolve :
    (¬ ∀ (fs : FileSystem) (p q : Path), fs.canonical? p = none → fs.canonical? q = none →
      (ofPath? fs p == ofPath? fs q) = true → p.resolve = q.resolve) ∧
    (¬ ∀ (fs : FileSystem) (p q : Path), fs.canonical? p = none → fs.canonical? q = none →
      p.resolve = q.resolve → (ofPath? fs p == ofPath? fs q) = true) := by
  constructor
  · intro h
    have hp := FileSystem.canonical?_relative ⟨[]⟩ (show Path.isAbsolute ⟨"../../nope"⟩ = false by decide)
    have hq := FileSystem.canonical?_relative ⟨[]⟩ (show Path.isAbsolute ⟨"nope"⟩ = false by decide)
    have hs := h _ _ _ hp hq ((ofPath?_missing_beq hp hq).2 (by decide))
    exact absurd hs (by decide)
  · intro h
    have hp : (⟨[]⟩ : FileSystem).canonical? ⟨"/../nope"⟩ = none :=
      nothing_below_root (by decide) (by decide) (.inr (by decide))
    have hq : (⟨[]⟩ : FileSystem).canonical? ⟨"/nope"⟩ = none :=
      nothing_below_root (by decide) (by decide) (.inl (by decide))
    exact absurd ((ofPath?_missing_beq hp hq).1 (h _ _ _ hp hq (by decide))) (by decide)

end Project

end LanguageHost
