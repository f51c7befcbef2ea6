import LanguageHost.Proofs.Path.Lexical
import LanguageHost.Proofs.Path.Uri

/-! The identity of a project is a plain path: what the file system calls a place has no dots and no empty
names, and neither has what normalisation leaves. -/
namespace LanguageHost

theorem Path.Component.between_normal {name : String} (hempty : name ≠ "") (hdot : name ≠ ".") (hdots : name ≠ "..")
    (hslash : '/' ∉ name.toList) : (Component.normal name).Between := by
  have htext : ∀ s : String, name ≠ s → name.toList ≠ s.toList := fun s hs h => hs (String.toList_inj.1 h)
  refine ⟨?_, hslash⟩
  rw [Component.text, ofPiece?, if_neg, if_neg, String.ofList_toList]
  · exact htext ".." hdots
  · rintro (h | h)
    · exact htext "" hempty h
    · exact htext "." hdot h

namespace FileSystem
variable {fs : FileSystem} {links : Nat} {place todo : List String} {p : Path}

/-- All names of a place stand between slashes in its path. -/
def Proper (place : List String) : Prop := ∀ name ∈ place, (Path.Component.normal name).Between

theorem slash_not_mem_steps {name : String} (h : name ∈ steps p) : '/' ∉ name.toList := by
  obtain ⟨piece, hpiece, rfl⟩ := List.mem_map.1 h
  have hmem : piece ∈ p.pieces := by
    split_ifs at hpiece
    · exact List.mem_of_mem_drop hpiece
    · exact hpiece
  rw [String.toList_ofList]
  intro hc
  simpa [Path.isSlash] using Text.not_of_mem_splitOn hmem '/' hc

theorem Proper.cons {name : String} (h : Proper place) (hname : ¬(name = "" ∨ name = ".")) (hdots : ¬name = "..")
    (hslash : '/' ∉ name.toList) : Proper (name :: place) := by
  rintro other (_ | ⟨_, hmem⟩)
  · exact Path.Component.between_normal (fun he => hname (.inl he)) (fun hd => hname (.inr hd)) hdots hslash
  · exact h other hmem

/-- Steps lead from a proper place to a proper place, also where a link has them go on elsewhere. -/
theorem follow_proper {found : List String × Entry} (hplace : Proper place) (htodo : ∀ name ∈ todo, '/' ∉ name.toList)
    (h : fs.follow links place todo = .ok found) : Proper found.1 := by
  fun_induction follow fs links place todo with
  | case1 | case2 =>
    split at h
    · obtain rfl := Except.ok.inj h
      exact hplace
    · cases h
  | case3 links place name rest hname ih => exact ih hplace (fun other hmem => htodo other (.tail _ hmem)) h
  | case4 links place rest hname ih =>
    exact ih (fun other hmem => hplace other (List.mem_of_mem_tail hmem)) (fun other hmem => htodo other (.tail _ hmem)) h
  | case7 links place name rest hname hdots hlong hentry ih =>
    exact ih (hplace.cons hname hdots (htodo name (.head _))) (fun other hmem => htodo other (.tail _ hmem)) h
  | case8 links place name rest hname hdots =>
    obtain rfl := Except.ok.inj h
    exact hplace.cons hname hdots (htodo name (.head _))
  | case11 place name rest hname hdots hlong target hentry links ih =>
    refine ih ?_ ?_ h
    · split_ifs
      · exact fun _ hmem => nomatch hmem
      · exact hplace
    · intro other hmem
      rcases List.mem_append.1 hmem with hmem | hmem
      · exact slash_not_mem_steps hmem
      · exact htodo other (.tail _ hmem)
  | case5 | case6 | case9 | case10 => cases h

/-- What the file system calls a place is a plain path. -/
theorem canonical?_plain {q : Path} (h : fs.canonical? p = some q) : q.Plain := by
  rw [canonical?, reach] at h
  split_ifs at h
  cases hfollow : fs.follow linkLimit [] (steps p) with
  | error fault =>
    rw [hfollow] at h
    cases h
  | ok found =>
    have hproper : Proper found.1 :=
      follow_proper (fun _ hmem => absurd hmem List.not_mem_nil) (fun _ => slash_not_mem_steps) hfollow
    rw [hfollow] at h
    obtain rfl := Option.some.inj h
    refine ⟨found.1.reverse.map .normal, ?_, rfl⟩
    intro c hc
    obtain ⟨name, hname, rfl⟩ := List.mem_map.1 hc
    exact hproper name (List.mem_reverse.1 hname)

end FileSystem

/-- A project that lies at an absolute path lies at a plain one. -/
theorem Project.plain {fs : FileSystem} {p : Path} {project : Project} (h : ofPath? fs p = some project)
    (ha : project.path.isAbsolute = true) : project.path.Plain := by
  cases hcanonical : fs.canonical? p with
  | some q =>
    simp only [ofPath?, hcanonical, Option.getD_some] at h
    split_ifs at h
    obtain rfl := Option.some.inj h
    exact FileSystem.canonical?_plain hcanonical
  | none =>
    rw [ofPath?_missing hcanonical] at h
    split_ifs at h
    obtain rfl := Option.some.inj h
    have hkept : ∀ c ∈ (p.trail.kept (p.trail.climbs % 2)).reverse, c.Between := fun c hc =>
      p.trail_proper.kept _ c (List.mem_reverse.1 hc)
    cases hp : p.isAbsolute with
    | true => exact ⟨_, hkept, by rw [Path.shown, hp]; rfl⟩
    | false =>
      have hshown : p.shown (p.trail.climbs % 2) = (p.trail.kept (p.trail.climbs % 2)).reverse := by
        rw [Path.shown, hp]
        rfl
      have hroot := Path.root_mem_components.2 ha
      rw [Path.components_shown, hshown] at hroot
      exact absurd rfl (hkept _ hroot).ne_root

end LanguageHost
