import LanguageHost.Settings
import Mathlib

/-! The catalog against a plain search: whatever was registered, an extension leads to the first language that
has it. -/
namespace LanguageHost

namespace Extension

/-- What folding in the normal forms of some extensions adds to those that are kept already. -/
theorem foldl_addForm (exts kept : List String) :
    exts.foldl addForm kept =
      kept ++ (((exts.map normalize).filter (· ≠ "")).filter (!kept.contains ·)).eraseDups := by
  induction exts generalizing kept with
  | nil => simp
  | cons ext exts ih =>
    rw [List.foldl_cons, ih, addForm, List.map_cons]
    generalize normalize ext = n
    by_cases hempty : n = ""
    · simp [hempty]
    · by_cases hkept : n ∈ kept
      · simp [hempty, hkept]
      · -- The form is new, so it stands first among those added, and the rest is searched without it.
        simp [hempty, hkept, List.eraseDups_cons, List.filter_filter, beq_eq_decide, Bool.and_comm, Bool.and_left_comm]

theorem normalForms_eq (exts : List String) :
    normalForms exts = ((exts.map normalize).filter (· ≠ "")).eraseDups := by
  rw [normalForms, foldl_addForm]
  simp

theorem mem_normalForms {exts : List String} {form : String} :
    form ∈ normalForms exts ↔ form ≠ "" ∧ ∃ ext ∈ exts, normalize ext = form := by
  rw [normalForms_eq, List.mem_eraseDups]
  simp [and_comm]

end Extension

def Language.parts (l : Language) : String × List String × Recipe := (l.name, l.extensions, l.recipe)

namespace LanguageEntry

/-- The extensions as a language has them: the normal forms that are not empty, each where it first occurs. -/
def forms (e : LanguageEntry) : List String := ((e.extensions.map Extension.normalize).filter (· ≠ "")).eraseDups

/-- There is something left of an extension in normal form. -/
def isUsable (e : LanguageEntry) : Bool := e.extensions.any fun given => Extension.normalize given ≠ ""

/-- An extension of the entry has the normal form of `ext`, and that is not empty. -/
def has (e : LanguageEntry) (ext : String) : Bool :=
  e.extensions.any fun given => Extension.normalize given = Extension.normalize ext ∧ Extension.normalize ext ≠ ""

def parts (e : LanguageEntry) : String × List String × Recipe := (e.name, e.forms, e.recipe)

/-- The language that an entry stands for, if it is usable. -/
def language? (e : LanguageEntry) : Option Language := Language.new? e.name e.extensions e.recipe

theorem isUsable_iff (e : LanguageEntry) : e.isUsable = true ↔ Extension.normalForms e.extensions ≠ [] := by
  rw [isUsable, List.any_eq_true]
  constructor
  · rintro ⟨given, hg, hn⟩
    exact List.ne_nil_of_mem (Extension.mem_normalForms.2 ⟨of_decide_eq_true hn, given, hg, rfl⟩)
  · intro hne
    obtain ⟨form, hf⟩ := List.exists_mem_of_ne_nil _ hne
    obtain ⟨hn, given, hg, rfl⟩ := Extension.mem_normalForms.1 hf
    exact ⟨given, hg, decide_eq_true hn⟩

theorem has_iff (e : LanguageEntry) (ext : String) :
    e.has ext = true ↔ Extension.normalize ext ∈ Extension.normalForms e.extensions := by
  rw [has, List.any_eq_true, Extension.mem_normalForms]
  constructor
  · rintro ⟨given, hg, h⟩
    obtain ⟨he, hn⟩ := of_decide_eq_true h
    exact ⟨hn, given, hg, he⟩
  · rintro ⟨hn, given, hg, he⟩
    exact ⟨given, hg, decide_eq_true ⟨he, hn⟩⟩

theorem language?_eq_some {e : LanguageEntry} (h : e.isUsable = true) :
    e.language? = some ⟨e.name, Extension.normalForms e.extensions, e.recipe, Extension.normalForms_nodup _⟩ := by
  simp [language?, Language.new?, e.isUsable_iff.1 h]

theorem language?_eq_none {e : LanguageEntry} (h : ¬e.isUsable = true) : e.language? = none := by
  simp [language?, Language.new?, not_not.1 (mt e.isUsable_iff.2 h)]

theorem language?_parts (e : LanguageEntry) :
    e.language?.map Language.parts = if e.isUsable then some e.parts else none := by
  by_cases h : e.isUsable = true
  · rw [language?_eq_some h, if_pos h, parts, forms, ← Extension.normalForms_eq]
    rfl
  · rw [language?_eq_none h, if_neg h, Option.map_none]

theorem language?_handles (e : LanguageEntry) (ext : String) : e.language?.any (·.handles ext) = e.has ext := by
  rw [Bool.eq_iff_iff, has_iff]
  by_cases h : e.isUsable = true
  · rw [language?_eq_some h, Option.any_some, Language.handles, List.contains_iff_mem]
  · simp [language?_eq_none h, not_not.1 (mt e.isUsable_iff.2 h)]

theorem isUsable_of_has {e : LanguageEntry} {ext : String} (h : e.has ext = true) : e.isUsable = true :=
  e.isUsable_iff.2 (List.ne_nil_of_mem ((e.has_iff ext).1 h))

end LanguageEntry

namespace Catalog
variable {ls : List Language}

theorem lookup_claim (index : Nat) (owners : List (String × Nat)) (ext form : String) :
    (claim index owners ext).lookup form =
      (owners.lookup form).or (if ext = form then some index else none) := by
  unfold claim
  cases h : owners.lookup ext with
  | none =>
    by_cases he : ext = form
    · subst he
      simp [h]
    · have hne : (form == ext) = false := beq_eq_false_iff_ne.2 (Ne.symm he)
      simp [List.lookup_cons, he, hne]
  | some owner =>
    by_cases he : ext = form
    · subst he
      simp [h]
    · simp [he]

theorem lookup_claims (index : Nat) (owners : List (String × Nat)) (exts : List String) (form : String) :
    (exts.foldl (claim index) owners).lookup form =
      (owners.lookup form).or (if exts.contains form then some index else none) := by
  induction exts generalizing owners with
  | nil => simp
  | cons ext exts ih =>
    rw [List.foldl_cons, ih, lookup_claim, Option.or_assoc]
    by_cases he : ext = form
    · simp [he]
    · simp [he, Ne.symm he]

theorem register_eq (c : Catalog) (l : Language) :
    c.register l = ⟨c.languages ++ [l], l.extensions.foldl (claim c.languages.length) c.owners⟩ :=
  rfl

theorem ofList_concat (ls : List Language) (l : Language) : ofList (ls ++ [l]) = (ofList ls).register l :=
  List.foldl_concat _ _ _ _

@[simp] theorem ofList_languages (ls : List Language) : (ofList ls).languages = ls := by
  induction ls using List.reverseRecOn with
  | nil => rfl
  | append_singleton ls l ih => rw [ofList_concat, register_eq, ih]

/-- The owner of an extension is the first language that has it. -/
theorem lookup_owners (ls : List Language) (form : String) :
    (ofList ls).owners.lookup form = ls.findIdx? (·.extensions.contains form) := by
  induction ls using List.reverseRecOn with
  | nil => rfl
  | append_singleton ls l ih =>
    rw [ofList_concat, register_eq, lookup_claims, ih, ofList_languages, List.findIdx?_append]
    by_cases hl : form ∈ l.extensions <;> simp [hl]

theorem indexForExtension?_eq (ls : List Language) (ext : String) :
    (ofList ls).indexForExtension? ext = ls.findIdx? (·.handles ext) :=
  lookup_owners ls _

theorem forExtension?_eq (ls : List Language) (ext : String) :
    (ofList ls).forExtension? ext = ls.find? (·.handles ext) := by
  rw [forExtension?, indexForExtension?_eq, ofList_languages, List.find?_eq_bind_findIdx?_getElem?]

theorem forExtension?_register (ls more : List Language) (ext : String) :
    (more.foldl register (ofList ls)).forExtension? ext =
      ((ofList ls).forExtension? ext).or (more.find? (·.handles ext)) := by
  have hall : more.foldl register (ofList ls) = ofList (ls ++ more) := List.foldl_append.symm
  rw [hall, forExtension?_eq, forExtension?_eq, List.find?_append]

end Catalog

/-- The catalog of some settings has a language for each entry with an extension that comes to something, in order.
It leads from an extension to the first language that handles it, which is that of the first entry with an extension
of the same normal form, and from a path by its extension. What is registered later changes no answer. -/
theorem catalog_first_match (s : Settings) :
    let c := s.catalog
    c.languages.map Language.parts = (s.languages.filter LanguageEntry.isUsable).map LanguageEntry.parts ∧
    (∀ ext, c.indexForExtension? ext = c.languages.findIdx? (·.handles ext) ∧
      c.forExtension? ext = c.languages.find? (·.handles ext) ∧
      (c.forExtension? ext).map Language.parts = (s.languages.find? (·.has ext)).map LanguageEntry.parts) ∧
    (∀ p, c.forPath? p = p.extension?.bind fun ext => c.languages.find? (·.handles ext)) ∧
    ∀ more : List Language,
      (∀ ext, (more.foldl Catalog.register c).forExtension? ext =
        (c.forExtension? ext).or (more.find? (·.handles ext))) ∧
      ∀ p, (more.foldl Catalog.register c).forPath? p =
        (c.forPath? p).or (p.extension?.bind fun ext => more.find? (·.handles ext)) := by
  intro c
  have hc : c = Catalog.ofList (s.languages.filterMap LanguageEntry.language?) := rfl
  have hlanguages : c.languages = s.languages.filterMap LanguageEntry.language? := Catalog.ofList_languages _
  have hfind (ext : String) : c.forExtension? ext = c.languages.find? (·.handles ext) := by
    rw [hc, Catalog.forExtension?_eq, Catalog.ofList_languages]
  refine ⟨?_, fun ext => ⟨?_, hfind ext, ?_⟩, fun p => ?_, fun more => ⟨fun ext => ?_, fun p => ?_⟩⟩
  · rw [hlanguages, List.map_filterMap, ← List.filterMap_eq_map', List.filterMap_filter]
    exact List.filterMap_congr fun e _ => e.language?_parts
  · rw [hc, Catalog.indexForExtension?_eq, Catalog.ofList_languages]
  · rw [hfind, hlanguages, List.find?_filterMap]
    simp only [LanguageEntry.language?_handles]
    cases hentry : s.languages.find? (·.has ext) with
    | none => rfl
    | some e =>
      have hhas : e.has ext = true := List.find?_some (p := fun e : LanguageEntry => e.has ext) hentry
      rw [Option.bind_some, e.language?_parts, if_pos (LanguageEntry.isUsable_of_has hhas), Option.map_some]
  · rw [Catalog.forPath?]
    exact congrArg _ (funext hfind)
  · rw [hc, Catalog.forExtension?_register]
  · cases hext : p.extension? with
    | none => simp [Catalog.forPath?, hext]
    | some ext => simp [Catalog.forPath?, hext, hc, Catalog.forExtension?_register]

end LanguageHost
