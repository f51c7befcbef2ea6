import LanguageHost.Proofs.Path.Lexical

/-! What normalisation leaves of a path is left as it is by normalising again: it has no dots, and two dots at
most once, where the path begins. Slashes and dots that name nothing make no difference to it, so a project whose
root does not exist keeps its identity however its root is spelled and however often it is identified. -/
namespace LanguageHost

namespace Path

theorem components_normalize (p : Path) : p.normalize.components = normalizeComponents p.components := by
  rw [normalize, normalizeComponents_eq, components_shown]

theorem isAbsolute_normalize (p : Path) : p.normalize.isAbsolute = p.isAbsolute := by
  rw [Bool.eq_iff_iff, ← root_mem_components, components_normalize, normalizeComponents_eq, root_mem_shown]

/-- What may stand in front of the names when nothing is left to normalise. -/
inductive Front : List Component → Prop where
  | nothing : Front []
  | root : Front [.root]
  | climb : Front [.parent]
  | climbAtRoot : Front [.root, .parent]

section Fronted
variable {front before after body : List Component} {names : List String}

theorem foldl_names (kept : List Component) (names : List String) :
    (names.map .normal).foldl normalizeStep kept = (names.map .normal).reverse ++ kept := by
  induction names generalizing kept with
  | nil => rfl
  | cons name names ih =>
    rw [List.map_cons, List.foldl_cons, ih, List.reverse_cons, List.append_assoc]
    rfl

theorem Front.normalizeComponents (h : Front front) (names : List String) :
    Path.normalizeComponents (front ++ names.map .normal) = front ++ names.map .normal := by
  have hfront : front.foldl normalizeStep [] = front.reverse := by cases h <;> rfl
  rw [Path.normalizeComponents, List.foldl_append, hfront, foldl_names, ← List.reverse_append, List.reverse_reverse]

theorem Front.climb_place (h : Front (before ++ .parent :: after)) : before = [] ∨ before = [.root] := by
  generalize hfront : before ++ .parent :: after = front at h
  -- no front has more than two components, so two dots have at most one before them
  cases h <;> rcases before with _ | ⟨c, _ | ⟨d, before⟩⟩ <;> simp_all

theorem parent_in_front (h : front ++ names.map .normal = before ++ .parent :: after) :
    ∃ rest, front = before ++ .parent :: rest := by
  have hnames : ∀ early, names.map .normal ≠ early ++ Component.parent :: after := by
    intro early he
    have hmem : Component.parent ∈ names.map .normal := he ▸ by simp
    simp at hmem
  obtain ⟨early, -, he⟩ | ⟨rest, hf, he⟩ := List.append_eq_append_iff.1 h
  · exact absurd he (hnames early)
  · cases rest with
    | nil => exact absurd he.symm (hnames [])
    | cons c rest =>
      obtain rfl := (List.cons.inj he).1
      exact ⟨rest, hf⟩

theorem exists_names (h : ∀ c ∈ body, c.Between) (hp : .parent ∉ body) :
    ∃ names : List String, body = names.map .normal := by
  have hrange : body ∈ Set.range (List.map Component.normal) := by
    rw [Set.range_list_map]
    intro c hc
    cases c with
    | root | current => exact absurd (h _ hc) (by decide)
    | parent => exact absurd hc hp
    | normal name => exact ⟨name, rfl⟩
  obtain ⟨names, rfl⟩ := hrange
  exact ⟨names, rfl⟩

theorem exists_names_behind (h : ∀ c ∈ body, c.Between)
    (hfirst : ∀ before after, body = before ++ .parent :: after → before = []) :
    ∃ names : List String, body = names.map .normal ∨ body = .parent :: names.map .normal := by
  by_cases hp : .parent ∈ body
  · obtain ⟨before, after, hbody⟩ := List.append_of_mem hp
    obtain rfl := hfirst before after hbody
    obtain rfl : body = .parent :: after := hbody
    have hafter : Component.parent ∉ after := by
      intro hmem
      obtain ⟨early, late, rfl⟩ := List.append_of_mem hmem
      exact absurd (hfirst (.parent :: early) late rfl) (List.cons_ne_nil _ _)
    obtain ⟨names, rfl⟩ := exists_names (fun c hc => h c (.tail _ hc)) hafter
    exact ⟨names, .inr rfl⟩
  · obtain ⟨names, rfl⟩ := exists_names h hp
    exact ⟨names, .inl rfl⟩

end Fronted

/-- Normalisation leaves a front and names: of all climbs it shows one or none. -/
theorem exists_front (p : Path) : ∃ front, ∃ names : List String, Front front ∧
    normalizeComponents p.components = front ++ names.map .normal := by
  have hkept : ∀ climbs, (p.trail.kept climbs).reverse =
      List.replicate climbs .parent ++ p.trail.names.reverse.map .normal := fun climbs => by
    rw [Trail.kept, List.reverse_append, List.reverse_replicate, List.map_reverse]
  rw [normalizeComponents_eq, shown, hkept]
  rcases Nat.mod_two_eq_zero_or_one p.trail.climbs with hm | hm <;> rw [hm] <;> split
  · exact ⟨_, _, .root, rfl⟩
  · exact ⟨_, _, .nothing, rfl⟩
  · exact ⟨_, _, .climbAtRoot, rfl⟩
  · exact ⟨_, _, .climb, rfl⟩

/-- Nothing is left to normalise. -/
structure Normal (p : Path) : Prop where
  undotted : .current ∉ p.components
  climbs : ∀ before after, p.components = before ++ .parent :: after → before = [] ∨ before = [.root]
  plain : ofComponents p.components = p

namespace Normal
variable {p : Path}

theorem of_front {front : List Component} {names : List String} (hf : Front front)
    (hc : p.components = front ++ names.map .normal) (hp : ofComponents p.components = p) : p.Normal where
  undotted := by
    rw [hc]
    cases hf <;> simp
  climbs before after h := by
    obtain ⟨rest, rfl⟩ := parent_in_front (hc.symm.trans h)
    exact hf.climb_place
  plain := hp

theorem front (h : p.Normal) : ∃ front, ∃ names : List String, Front front ∧
    p.components = front ++ names.map .normal := by
  obtain ⟨body, ⟨hb, hc⟩ | ⟨-, -, hc⟩⟩ := p.components_shape
  · -- what stands before two dots can only be the root, and the root is no part of the body
    have hfirst : ∀ before after, body = before ++ .parent :: after → before = [] := by
      intro before after hbody
      refine List.eq_nil_iff_forall_not_mem.2 fun c hmem => ?_
      have hbetween : c.Between := hb c (hbody ▸ List.mem_append_left _ hmem)
      rcases h.climbs _ after (by rw [hc, hbody, List.append_assoc]) with hn | hr
      · exact absurd (List.mem_append_right _ hmem) (hn ▸ List.not_mem_nil)
      · exact absurd (List.mem_singleton.1 (hr ▸ List.mem_append_right _ hmem)) hbetween.ne_root
    obtain ⟨names, rfl | rfl⟩ := exists_names_behind hb hfirst <;> rw [hc] <;> split
    · exact ⟨_, names, .root, rfl⟩
    · exact ⟨_, names, .nothing, rfl⟩
    · exact ⟨_, names, .climbAtRoot, rfl⟩
    · exact ⟨_, names, .climb, rfl⟩
  · exact absurd (hc ▸ List.mem_cons_self) h.undotted

theorem count_parent_le (h : p.Normal) : p.components.count .parent ≤ 1 := by
  obtain ⟨front, names, hf, hc⟩ := h.front
  have hn : (names.map Component.normal).count .parent = 0 := List.count_eq_zero.2 (by simp)
  rw [hc, List.count_append, hn]
  cases hf <;> decide

end Normal

theorem normal_normalize (p : Path) : p.normalize.Normal := by
  obtain ⟨front, names, hf, hc⟩ := p.exists_front
  refine .of_front hf ((components_normalize p).trans hc) ?_
  rw [components_normalize]
  rfl

/-- Normalisation leaves those paths alone that have nothing left to normalise. -/
theorem normalize_eq_self_iff {p : Path} : p.normalize = p ↔ p.Normal := by
  constructor
  · intro h
    exact h ▸ normal_normalize p
  · intro h
    obtain ⟨front, names, hf, hc⟩ := h.front
    calc p.normalize
      _ = ofComponents p.components := by rw [normalize, hc, hf.normalizeComponents]
      _ = p := h.plain

/-- One slash or one dot more in the text of a path. -/
inductive Padded : Path → Path → Prop where
  | slash (before after : String) : Padded ⟨before ++ "/" ++ after⟩ ⟨before ++ "//" ++ after⟩
  /-- A slash at the end. Behind the empty path it would end nothing and be the root. -/
  | slashBehind {text : String} (h : text ≠ "") : Padded ⟨text⟩ ⟨text ++ "/"⟩
  | dot (before after : String) : Padded ⟨before ++ "/" ++ after⟩ ⟨before ++ "/./" ++ after⟩
  | dotBehind (before : String) : Padded ⟨before ++ "/"⟩ ⟨before ++ "/."⟩
  | dotAhead {p : Path} (h : p.isAbsolute = false) : Padded p ⟨"./" ++ p.text⟩
  | dotAlone : Padded ⟨""⟩ ⟨"."⟩

/-- The components that the pieces of a path name, apart from the root and from a dot ahead. -/
def named (p : Path) : List Component := p.pieces.filterMap Component.ofPiece?

theorem normalizeComponents_named (p : Path) : normalizeComponents p.components =
    (p.named.foldl normalizeStep (if p.isAbsolute then [.root] else [])).reverse := by
  rw [normalizeComponents, components, named]
  split
  · rfl
  · split
    · rename_i rest hr
      rw [hr]
      rfl
    · rfl

theorem named_slash (s t : String) : named ⟨s ++ "/" ++ t⟩ = named ⟨s⟩ ++ named ⟨t⟩ := by
  have ht : (s ++ "/" ++ t).toList = s.toList ++ '/' :: t.toList := by simp
  rw [named, pieces, ht, Text.splitOn_eq, List.splitOnP_append_cons _ _ rfl, List.filterMap_append,
    ← Text.splitOn_eq, ← Text.splitOn_eq]
  rfl

theorem named_slash_end (s : String) : named ⟨s ++ "/"⟩ = named ⟨s⟩ := by
  rw [← String.append_empty (s := s ++ "/"), named_slash]
  exact List.append_nil _

theorem isAbsolute_slash (s t : String) : isAbsolute ⟨s ++ "/" ++ t⟩ = (s.isEmpty || isAbsolute ⟨s⟩) := by
  cases hs : s.toList with
  | nil =>
    obtain rfl : s = "" := String.toList_eq_nil_iff.1 hs
    simp [isAbsolute]
  | cons c rest =>
    have hne : s.isEmpty = false := by
      rw [String.isEmpty_eq_false_iff]
      rintro rfl
      cases hs
    simp [isAbsolute, hs, hne]

theorem isAbsolute_slash_end (s : String) : isAbsolute ⟨s ++ "/"⟩ = (s.isEmpty || isAbsolute ⟨s⟩) := by
  rw [← String.append_empty (s := s ++ "/"), isAbsolute_slash]

namespace Padded
variable {p q : Path}

private theorem alike_between {piece : String} (h : named ⟨piece⟩ = []) (before after : String) :
    isAbsolute ⟨before ++ "/" ++ (piece ++ "/" ++ after)⟩ = isAbsolute ⟨before ++ "/" ++ after⟩ ∧
    named ⟨before ++ "/" ++ (piece ++ "/" ++ after)⟩ = named ⟨before ++ "/" ++ after⟩ := by
  rw [isAbsolute_slash, isAbsolute_slash, named_slash, named_slash, named_slash, h, List.nil_append]
  exact ⟨rfl, rfl⟩

theorem alike (h : Padded p q) : q.isAbsolute = p.isAbsolute ∧ q.named = p.named := by
  have hdot : named ⟨"."⟩ = [] := rfl
  cases h with
  | slash before after =>
    have htext : before ++ "//" ++ after = before ++ "/" ++ ("" ++ "/" ++ after) := by
      simp only [String.append_assoc]
      rfl
    rw [htext]
    exact alike_between rfl before after
  | dot before after =>
    have htext : before ++ "/./" ++ after = before ++ "/" ++ ("." ++ "/" ++ after) := by
      simp only [String.append_assoc]
      rfl
    rw [htext]
    exact alike_between hdot before after
  | @slashBehind text hne =>
    rw [isAbsolute_slash_end, named_slash_end, String.isEmpty_eq_false_iff.2 hne]
    exact ⟨rfl, rfl⟩
  | dotBehind before =>
    have htext : before ++ "/." = before ++ "/" ++ "." := by
      rw [String.append_assoc]
      rfl
    rw [htext, isAbsolute_slash, isAbsolute_slash_end, named_slash, named_slash_end, hdot, List.append_nil]
    exact ⟨rfl, rfl⟩
  | dotAhead hrelative =>
    have htext : "./" ++ p.text = "." ++ "/" ++ p.text := rfl
    rw [htext, isAbsolute_slash, named_slash, hdot, hrelative]
    exact ⟨rfl, rfl⟩
  | dotAlone => exact ⟨rfl, rfl⟩

theorem normalize (h : Padded p q) : q.normalize = p.normalize := by
  obtain ⟨ha, hn⟩ := h.alike
  rw [Path.normalize, Path.normalize, normalizeComponents_named, normalizeComponents_named, ha, hn]

end Padded

/-- Any number of slashes and dots may be added. -/
theorem normalize_of_padded {p q : Path} (h : Relation.ReflTransGen Padded p q) : q.normalize = p.normalize := by
  induction h with
  | refl => rfl
  | tail _ hlast ih => exact hlast.normalize.trans ih

/-- What normalisation leaves has no dot and shows two dots at most once, first or right behind the root. It is
absolute just when the path is, normalisation leaves it as it is, and slashes and dots that are added to the path
before do not change it. -/
theorem normalize_stable (p : Path) :
    .current ∉ p.normalize.components ∧
    p.normalize.components.count .parent ≤ 1 ∧
    (∀ before after, p.normalize.components = before ++ .parent :: after → before = [] ∨ before = [.root]) ∧
    p.normalize.isAbsolute = p.isAbsolute ∧
    p.normalize.normalize = p.normalize ∧
    ∀ q, Relation.ReflTransGen Padded p q → q.normalize = p.normalize := by
  have hnormal := normal_normalize p
  exact ⟨hnormal.undotted, hnormal.count_parent_le, hnormal.climbs, isAbsolute_normalize p,
    normalize_eq_self_iff.2 hnormal, fun _ => normalize_of_padded⟩

/-- A path that climbs above its start, with a slash inside, a slash behind and a dot ahead. -/
theorem normalize_stable_spread :
    let p : Path := ⟨"a/../../b"⟩
    let q : Path := ⟨"./a/../..//b/"⟩
    Relation.ReflTransGen Padded p q ∧ q.normalize = p.normalize := by
  have hspread : Relation.ReflTransGen Padded ⟨"a/../../b"⟩ ⟨"./a/../..//b/"⟩ := by
    have hslash : Padded ⟨"a/../../b"⟩ ⟨"a/../..//b"⟩ := .slash "a/../.." "b"
    have hbehind : Padded ⟨"a/../..//b"⟩ ⟨"a/../..//b/"⟩ := .slashBehind (by decide)
    have hahead : Padded ⟨"a/../..//b/"⟩ ⟨"./a/../..//b/"⟩ := .dotAhead (by decide)
    exact ((Relation.ReflTransGen.single hslash).tail hbehind).tail hahead
  exact ⟨hspread, (normalize_stable ⟨"a/../../b"⟩).2.2.2.2.2 _ hspread⟩

end Path

namespace Project
variable {fs : FileSystem} {p q : Path}

private theorem ofPath?_normalize (h : fs.canonical? p = none) :
    ofPath? fs p = if p.normalize.components = [] then none else some ⟨p.normalize⟩ := by
  rw [ofPath?_missing h, Path.components_normalize, Path.normalizeComponents_eq, Path.normalize,
    Path.normalizeComponents_eq]

/-- A root that does not exist may be spelled with more slashes and dots. -/
theorem ofPath?_padded (hp : fs.canonical? p = none) (hq : fs.canonical? q = none)
    (h : Relation.ReflTransGen Path.Padded p q) : ofPath? fs q = ofPath? fs p := by
  rw [ofPath?_normalize hp, ofPath?_normalize hq, Path.normalize_of_padded h]

/-- The path by which a missing root is identified, if it does not exist either, identifies the same project. -/
theorem ofPath?_again {i : Project} (hp : fs.canonical? p = none) (h : ofPath? fs p = some i)
    (hi : fs.canonical? i.path = none) : ofPath? fs i.path = some i := by
  rw [ofPath?_normalize hp] at h
  split_ifs at h with hne
  obtain rfl := Option.some.inj h
  rw [ofPath?_normalize hi, Path.normalize_eq_self_iff.2 (Path.normal_normalize p), if_neg hne]

end Project

end LanguageHost
