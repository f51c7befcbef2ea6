import LanguageHost.Proofs.Path.Components

/-! Normalisation on the text of a path. What has been kept is a path itself: components are put behind it, and
two dots leave the path without its last component. -/
namespace LanguageHost.Path

/-- Puts a component behind a path, with a slash between them where none is there. The root takes the place of
the path. -/
def push (p : Path) (c : Component) : Path :=
  if c = .root then ⟨c.text⟩
  else if p.isEmpty ∨ p.text.toList.getLast? = some '/' then ⟨p.text ++ c.text⟩
  else ⟨p.text ++ "/" ++ c.text⟩

/-- One step of normalisation on the text kept so far. -/
def normalizeText (kept : Path) : Component → Path
  | .current => kept
  | .parent => kept.parent?.getD (kept.push .parent)
  | c => kept.push c

section Between
variable {cs : List Component} {c : Component}

private theorem dropTrailing_texts (h : ∀ c ∈ cs, c.Between) :
    dropTrailing (cs.map fun c => c.text.toList) = cs.map fun c => c.text.toList := by
  obtain rfl | ⟨cs, c, rfl⟩ := cs.eq_nil_or_concat
  · rfl
  · have hc := h c (by simp)
    rw [dropTrailing, List.concat_eq_append, List.map_append, List.reverse_append]
    show (List.dropWhile _ (c.text.toList :: _)).reverse = _
    rw [List.dropWhile_cons_of_neg (by simp [hc.ne_nil, hc.ne_dot])]
    simp

private theorem joinPieces_texts (cs : List Component) :
    joinPieces (cs.map fun c => c.text.toList) = String.intercalate "/" (cs.map Component.text) := by
  rw [joinPieces, List.map_map]
  congr 2
  funext c
  exact String.ofList_toList

theorem parent?_absolute (h : ∀ c ∈ cs, c.Between) : (ofComponents (.root :: cs)).parent? =
    if cs = [] then none else some (ofComponents (.root :: cs.dropLast)) := by
  by_cases hne : cs = []
  · subst hne
    rfl
  · have hd : ∀ c ∈ cs.dropLast, c.Between := fun c hc => h c (List.mem_of_mem_dropLast hc)
    rw [parent?, if_pos (isAbsolute_root cs), if_neg hne, pieces_absolute h hne, List.drop_one, List.tail_cons,
      dropTrailing_texts h]
    split
    · rename_i hnil
      exact absurd (List.map_eq_nil_iff.1 hnil) hne
    · rw [← List.map_dropLast, dropTrailing_texts hd, joinPieces_texts]
      rfl

theorem parent?_relative (h : ∀ c ∈ cs, c.Between) : (ofComponents cs).parent? =
    if cs = [] then none else some (ofComponents cs.dropLast) := by
  have htrim : ∀ {cs : List Component}, (∀ c ∈ cs, c.Between) →
      trimPieces (cs.map fun c => c.text.toList) = cs.map fun c => c.text.toList := by
    intro cs h
    rw [trimPieces]
    · exact dropTrailing_texts h
    · intro rest hc
      cases cs with
      | nil => cases hc
      | cons c cs => exact (h c List.mem_cons_self).ne_dot (List.cons.inj hc).1
  by_cases hne : cs = []
  · subst hne
    rfl
  · have hd : ∀ c ∈ cs.dropLast, c.Between := fun c hc => h c (List.mem_of_mem_dropLast hc)
    rw [parent?, isAbsolute_relative h, if_neg Bool.false_ne_true, if_neg hne, pieces_relative h hne, htrim h]
    split
    · rename_i hnil
      exact absurd (List.map_eq_nil_iff.1 hnil) hne
    · rw [← List.map_dropLast, htrim hd, joinPieces_texts, ← render_relative hd]
      rfl

private theorem getLast?_texts (h : ∀ c ∈ cs, c.Between) (hne : cs ≠ []) :
    ∃ x, x ≠ '/' ∧ (String.intercalate "/" (cs.map Component.text)).toList.getLast? = some x := by
  obtain rfl | ⟨cs, c, rfl⟩ := cs.eq_nil_or_concat
  · exact absurd rfl hne
  · have hc : c.Between := h c (by simp)
    have hx := List.getLast?_eq_some_getLast hc.ne_nil
    refine ⟨_, fun hslash => hc.2 (hslash ▸ List.getLast_mem hc.ne_nil), ?_⟩
    rw [List.concat_eq_append, List.map_append, List.map_singleton]
    cases cs with
    | nil => simpa using hx
    | cons d cs =>
      rw [String.intercalate_append_of_ne_nil (by simp) (by simp), String.intercalate_singleton,
        String.toList_append, List.getLast?_append, hx]
      rfl

private theorem push_texts {front : String} (hfront : front = "" ∨ front = "/") (h : ∀ c ∈ cs, c.Between)
    (hc : c.Between) :
    push ⟨front ++ String.intercalate "/" (cs.map Component.text)⟩ c =
      ⟨front ++ String.intercalate "/" ((cs ++ [c]).map Component.text)⟩ := by
  rw [push, if_neg hc.ne_root, List.map_append, List.map_singleton]
  by_cases hne : cs = []
  · -- behind nothing and behind the root alone no slash is put
    subst hne
    rw [if_pos]
    · simp
    · rcases hfront with rfl | rfl <;> decide
  · obtain ⟨x, hx, hlast⟩ := getLast?_texts h hne
    have htext : (front ++ String.intercalate "/" (cs.map Component.text)).toList.getLast? = some x := by
      rw [String.toList_append, List.getLast?_append, hlast]
      rfl
    rw [if_neg, String.intercalate_append_of_ne_nil (by simpa using hne) (by simp), String.intercalate_singleton]
    · simp only [String.append_assoc]
    · rintro (hempty | hslash)
      · have hnone : (front ++ String.intercalate "/" (cs.map Component.text)).toList = [] :=
          String.toList_eq_nil_iff.2 (String.isEmpty_iff.1 hempty)
        rw [hnone] at htext
        cases htext
      · exact hx (Option.some.inj (htext.symm.trans hslash))

theorem push_absolute (h : ∀ c ∈ cs, c.Between) (hc : c.Between) :
    (ofComponents (.root :: cs)).push c = ofComponents (.root :: (cs ++ [c])) :=
  push_texts (.inr rfl) h hc

theorem push_relative (h : ∀ c ∈ cs, c.Between) (hc : c.Between) :
    (ofComponents cs).push c = ofComponents (cs ++ [c]) := by
  have hcs : ∀ d ∈ cs ++ [c], d.Between := by
    intro d hd
    rcases List.mem_append.1 hd with hd | hd
    · exact h d hd
    · exact List.mem_singleton.1 hd ▸ hc
  have htexts := push_texts (.inl rfl) h hc
  rwa [String.empty_append, String.empty_append, ← render_relative h, ← render_relative hcs] at htexts

end Between

/-- A text spells what normalisation has kept, the last component first: the root or none below components that
stand between slashes. -/
def Spells (text : Path) (kept : List Component) : Prop :=
  ∃ base body : List Component, (base = [] ∨ base = [.root]) ∧ (∀ c ∈ body, c.Between) ∧
    kept = body ++ base ∧ text = ofComponents (base ++ body.reverse)

namespace Spells
variable {text : Path} {kept body : List Component} {c : Component}

theorem eq_ofComponents (h : Spells text kept) : text = ofComponents kept.reverse := by
  obtain ⟨base, body, hbase, -, rfl, rfl⟩ := h
  rw [List.reverse_append]
  rcases hbase with rfl | rfl <;> rfl

theorem push (h : Spells text kept) (hc : c.Between) : Spells (text.push c) (c :: kept) := by
  obtain ⟨base, body, hbase, hb, rfl, rfl⟩ := h
  have hr : ∀ d ∈ body.reverse, d.Between := fun d hd => hb d (List.mem_reverse.1 hd)
  refine ⟨base, c :: body, hbase, List.forall_mem_cons.2 ⟨hc, hb⟩, rfl, ?_⟩
  rw [List.reverse_cons]
  rcases hbase with rfl | rfl
  · exact push_relative hr hc
  · exact push_absolute hr hc

/-- Two dots take the last component away from the text and from what has been kept, or are put behind both. -/
theorem climb (h : Spells text kept) : Spells (normalizeText text .parent) (normalizeStep kept .parent) := by
  obtain ⟨base, body, hbase, hb, hkept, htext⟩ := id h
  have hr : ∀ d ∈ body.reverse, d.Between := fun d hd => hb d (List.mem_reverse.1 hd)
  have hparent : text.parent? =
      if body.reverse = [] then none else some (ofComponents (base ++ body.reverse.dropLast)) := by
    rw [htext]
    rcases hbase with rfl | rfl
    · exact parent?_relative hr
    · exact parent?_absolute hr
  rw [normalizeText, hparent]
  cases body with
  | nil =>
    have hstep : normalizeStep kept .parent = .parent :: kept := by
      rcases hbase with rfl | rfl <;> subst hkept <;> rfl
    rw [hstep]
    exact h.push .parent
  | cons d body =>
    have hstep : normalizeStep kept .parent = body ++ base := by
      subst hkept
      cases d with
      | root => exact absurd rfl (hb _ List.mem_cons_self).ne_root
      | current | parent | normal => rfl
    rw [hstep, List.reverse_cons, List.dropLast_concat, if_neg (by simp)]
    exact ⟨base, body, hbase, fun e he => hb e (List.mem_cons_of_mem d he), rfl, rfl⟩

theorem step (h : Spells text kept) (hc : c.Between) : Spells (normalizeText text c) (normalizeStep kept c) := by
  cases c with
  | root | current => exact absurd hc (by decide)
  | parent => exact h.climb
  | normal name => exact h.push hc

theorem foldl (h : Spells text kept) (hb : ∀ c ∈ body, c.Between) :
    Spells (body.foldl normalizeText text) (body.foldl normalizeStep kept) := by
  induction body generalizing text kept with
  | nil => exact h
  | cons c body ih => exact ih (h.step (hb c List.mem_cons_self)) fun d hd => hb d (List.mem_cons_of_mem c hd)

end Spells

/-- Normalising the text step by step gives the plain text of the components that normalisation keeps. -/
theorem normalize_eq_foldl (p : Path) : p.normalize = p.components.foldl normalizeText ⟨""⟩ := by
  have hempty : Spells ⟨""⟩ [] := ⟨[], [], .inl rfl, by simp, rfl, rfl⟩
  have hroot : Spells ⟨"/"⟩ [.root] := ⟨[.root], [], .inr rfl, by simp, rfl, rfl⟩
  have hspells : Spells (p.components.foldl normalizeText ⟨""⟩) (p.components.foldl normalizeStep []) := by
    obtain ⟨body, ⟨hb, hc⟩ | ⟨hb, -, hc⟩⟩ := p.components_shape
    · rw [hc]
      split
      · exact hroot.foldl hb
      · exact hempty.foldl hb
    · rw [hc]
      show Spells (body.foldl normalizeText ⟨""⟩) (body.foldl normalizeStep [])
      exact hempty.foldl hb
  exact hspells.eq_ofComponents.symm

end LanguageHost.Path
