import LanguageHost.Path.Basic
import Mathlib

/-! The components of a path are what stands between its slashes, and components that a path can have
are read back from their plain text. -/
namespace LanguageHost

theorem Text.splitOn_eq (p : Char → Bool) (s : List Char) : Text.splitOn p s = s.splitOnP p := by
  induction s with
  | nil => rfl
  | cons c rest ih =>
    rw [Text.splitOn, ih, List.splitOnP_cons_eq_if_modifyHead]
    congr 1
    obtain ⟨w, ws, hw⟩ := List.exists_cons_of_ne_nil (List.splitOnP_ne_nil p rest)
    simp only [hw, List.modifyHead_cons]

theorem Text.not_of_mem_splitOn {p : Char → Bool} {s w : List Char} (h : w ∈ Text.splitOn p s) :
    ∀ c ∈ w, p c = false := by
  induction s generalizing w with
  | nil =>
    obtain rfl : w = [] := List.mem_singleton.1 h
    simp
  | cons c rest ih =>
    rw [Text.splitOn] at h
    split at h
    · rcases List.mem_cons.1 h with rfl | h
      · simp
      · exact ih h
    · rename_i hc
      have hc : p c = false := by simpa using hc
      split at h
      · obtain rfl : w = [c] := List.mem_singleton.1 h
        simpa using hc
      · rename_i v ws hv
        rcases List.mem_cons.1 h with rfl | h
        · simpa [hc] using ih (hv ▸ List.mem_cons_self)
        · exact ih (hv ▸ List.mem_cons_of_mem v h)

namespace Path

/-- A component that stands between two slashes: two dots, or a name that is none of the pieces with a
meaning of their own. -/
def Component.Between (c : Component) : Prop :=
  Component.ofPiece? c.text.toList = some c ∧ '/' ∉ c.text.toList

instance (c : Component) : Decidable c.Between := inferInstanceAs (Decidable (_ ∧ _))

namespace Component.Between

theorem parent : Component.parent.Between := by decide

variable {c : Component}

theorem ne_root (h : c.Between) : c ≠ .root := by
  rintro rfl
  exact absurd h (by decide)

theorem ne_nil (h : c.Between) : c.text.toList ≠ [] := by
  intro hc
  rw [Between, hc] at h
  simp [Component.ofPiece?] at h

theorem ne_dot (h : c.Between) : c.text.toList ≠ ['.'] := by
  intro hc
  rw [Between, hc] at h
  simp [Component.ofPiece?] at h

theorem head?_ne (h : c.Between) (rest : List Char) : (c.text.toList ++ rest).head? ≠ some '/' := by
  obtain ⟨x, xs, hx⟩ := List.exists_cons_of_ne_nil h.ne_nil
  rintro hc
  obtain rfl : x = '/' := by simpa [hx] using hc
  exact h.2 (hx ▸ List.mem_cons_self)

end Component.Between

private theorem between_of_piece {w : List Char} {c : Component} (h : Component.ofPiece? w = some c)
    (hw : '/' ∉ w) : c.Between := by
  rw [Component.ofPiece?] at h
  split_ifs at h with hd hp
  · obtain rfl := Option.some.inj h
    exact .parent
  · obtain rfl := Option.some.inj h
    simpa [Component.Between, Component.text, Component.ofPiece?, hp, hw] using hd

private theorem between_of_mem {ps : List (List Char)} (h : ∀ w ∈ ps, '/' ∉ w) :
    ∀ c ∈ ps.filterMap Component.ofPiece?, c.Between := by
  intro c hc
  obtain ⟨w, hw, hp⟩ := List.mem_filterMap.1 hc
  exact between_of_piece hp (h w hw)

/-- A path is absolute, begins with a dot or is relative without one; all that follows stands between
slashes. -/
theorem components_shape (p : Path) : ∃ body : List Component, (∀ c ∈ body, c.Between) ∧
    p.components = (if p.isAbsolute then [Component.root] else []) ++ body ∨
    (∀ c ∈ body, c.Between) ∧ p.isAbsolute = false ∧ p.components = .current :: body := by
  have hs : ∀ w ∈ p.pieces, '/' ∉ w := fun w hw hc => by
    simpa [isSlash] using Text.not_of_mem_splitOn hw '/' hc
  rw [components]
  split
  · exact ⟨_, .inl ⟨between_of_mem hs, by simp⟩⟩
  · rename_i ha
    split
    · rename_i rest hr
      rw [hr] at hs
      exact ⟨_, .inr ⟨between_of_mem fun w hw => hs w (List.mem_cons_of_mem _ hw), by simpa using ha, rfl⟩⟩
    · exact ⟨_, .inl ⟨between_of_mem hs, by simp⟩⟩

theorem root_mem_components {p : Path} : .root ∈ p.components ↔ p.isAbsolute = true := by
  obtain ⟨body, hbody⟩ := p.components_shape
  have hroot : (∀ c ∈ body, c.Between) → .root ∉ body := fun h hmem => (h _ hmem).ne_root rfl
  obtain ⟨h, hc⟩ | ⟨h, ha, hc⟩ := hbody
  · rw [hc]
    split_ifs with ha <;> simp [ha, hroot h]
  · simp [hc, ha, hroot h]

section Rendered
variable {cs : List Component}

private theorem toList_join (cs : List Component) :
    (String.intercalate "/" (cs.map Component.text)).toList =
      List.intercalate ['/'] (cs.map fun c => c.text.toList) := by
  rw [String.toList_intercalate, List.map_map]
  rfl

private theorem split_join (h : ∀ c ∈ cs, c.Between) (hne : cs ≠ []) :
    Text.splitOn isSlash (String.intercalate "/" (cs.map Component.text)).toList =
      cs.map fun c => c.text.toList := by
  rw [toList_join, Text.splitOn_eq]
  refine List.splitOn_intercalate '/' ?_ (by simpa using hne)
  intro w hw
  obtain ⟨c, hc, rfl⟩ := List.mem_map.1 hw
  exact (h c hc).2

private theorem read_texts (h : ∀ c ∈ cs, c.Between) :
    (cs.map fun c => c.text.toList).filterMap Component.ofPiece? = cs := by
  rw [List.filterMap_map]
  calc cs.filterMap (Component.ofPiece? ∘ fun c => c.text.toList)
    _ = cs.filterMap some := List.filterMap_congr fun c hc => (h c hc).1
    _ = cs := List.filterMap_some

theorem render_relative (h : ∀ c ∈ cs, c.Between) :
    render cs = String.intercalate "/" (cs.map Component.text) := by
  rw [render]
  rintro rest rfl
  exact absurd (h _ List.mem_cons_self) (by decide)

theorem isAbsolute_relative (h : ∀ c ∈ cs, c.Between) : (ofComponents cs).isAbsolute = false := by
  cases cs with
  | nil => decide
  | cons c cs =>
    have hc := h c List.mem_cons_self
    rw [isAbsolute, ofComponents, render_relative h, toList_join, beq_eq_false_iff_ne]
    cases cs with
    | nil => simpa using hc.head?_ne []
    | cons d cs =>
      rw [List.map_cons, List.map_cons, List.intercalate_cons_cons, List.append_assoc]
      exact hc.head?_ne _

theorem pieces_relative (h : ∀ c ∈ cs, c.Between) (hne : cs ≠ []) :
    (ofComponents cs).pieces = cs.map fun c => c.text.toList := by
  rw [pieces, ofComponents, render_relative h, split_join h hne]

theorem components_relative (h : ∀ c ∈ cs, c.Between) : (ofComponents cs).components = cs := by
  cases cs with
  | nil => decide
  | cons c cs =>
    rw [components, isAbsolute_relative h, pieces_relative h (List.cons_ne_nil c cs)]
    split
    · contradiction
    · split
      · rename_i hd
        exact absurd (List.cons.inj hd).1 (h c List.mem_cons_self).ne_dot
      · exact read_texts h

private theorem toList_absolute (cs : List Component) : (ofComponents (.root :: cs)).text.toList =
    '/' :: (String.intercalate "/" (cs.map Component.text)).toList := by
  simp [ofComponents, render]

theorem isAbsolute_root (cs : List Component) : (ofComponents (.root :: cs)).isAbsolute = true := by
  simp [isAbsolute, toList_absolute]

theorem pieces_absolute (h : ∀ c ∈ cs, c.Between) (hne : cs ≠ []) :
    (ofComponents (.root :: cs)).pieces = [] :: cs.map fun c => c.text.toList := by
  rw [pieces, toList_absolute, Text.splitOn, if_pos (by rfl), split_join h hne]

theorem components_absolute (h : ∀ c ∈ cs, c.Between) :
    (ofComponents (.root :: cs)).components = .root :: cs := by
  by_cases hne : cs = []
  · subst hne
    decide
  · rw [components, if_pos (isAbsolute_root cs), pieces_absolute h hne, List.filterMap_cons_none (by rfl), read_texts h]

end Rendered

end Path

end LanguageHost
