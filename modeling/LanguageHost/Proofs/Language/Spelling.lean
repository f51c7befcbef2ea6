import LanguageHost.Proofs.Language.Identity
import LanguageHost.Proofs.Language.Lookup
import Mathlib

/-! The form in which extensions are stored: what normalising leaves of a text, and when it leaves what it is
given. -/
namespace LanguageHost

namespace Text

theorem toNat_toLower {c : Char} (h : c.isUpper = true) :
    65 ≤ c.toNat ∧ c.toNat ≤ 90 ∧ c.toLower.toNat = c.toNat + 32 := by
  simp only [Char.isUpper, decide_eq_true_eq, ge_iff_le, UInt32.le_iff_toNat_le] at h
  have hsum : (c.val + ('a'.val - 'A'.val)).toNat = c.val.toNat + 32 := by
    rw [UInt32.toNat_add]
    have hsmall : c.val.toNat ≤ 90 := h.2
    have hgap : ('a'.val - 'A'.val).toNat = 32 := rfl
    omega
  refine ⟨h.1, h.2, ?_⟩
  rw [Char.toNat, Char.toLower, dif_pos (by simpa only [ge_iff_le, UInt32.le_iff_toNat_le] using h)]
  exact hsum

theorem isUpper_toLower (c : Char) : c.toLower.isUpper = false := by
  by_cases h : c.isUpper = true
  · obtain ⟨hlow, -, hc⟩ := toNat_toLower h
    simp only [Char.isUpper, UInt32.le_iff_toNat_le, decide_eq_false_iff_not]
    rintro ⟨-, hhigh⟩
    have hhigh : c.toLower.toNat ≤ 90 := hhigh
    omega
  · rw [Char.toLower_eq_of_not_isUpper h]
    simpa using h

theorem isBlank_toLower (c : Char) : isBlank c.toLower = isBlank c := by
  by_cases h : c.isUpper = true
  · obtain ⟨hlow, hhigh, hc⟩ := toNat_toLower h
    rw [isBlank, isBlank, hc]
    grind
  · rw [Char.toLower_eq_of_not_isUpper h]

theorem toLower_eq_dot {c : Char} : c.toLower = '.' ↔ c = '.' := by
  by_cases h : c.isUpper = true
  · obtain ⟨hlow, -, hc⟩ := toNat_toLower h
    have hdot : '.'.toNat = 46 := rfl
    constructor
    · intro he
      rw [he] at hc
      omega
    · rintro rfl
      omega
  · rw [Char.toLower_eq_of_not_isUpper h]

theorem lowerAscii_eq_self {s : List Char} (h : ∀ c ∈ s, c.isUpper = false) : lowerAscii s = s := by
  refine (List.map_congr_left fun c hc => ?_).trans s.map_id
  exact Char.toLower_eq_of_not_isUpper (by simp [h c hc])

theorem dropWhile_dot_lowerAscii (s : List Char) :
    (lowerAscii s).dropWhile (· == '.') = lowerAscii (s.dropWhile (· == '.')) := by
  have hdot : ((· == '.') ∘ Char.toLower) = (· == '.') := by
    funext c
    rw [Function.comp_apply, Bool.eq_iff_iff, beq_iff_eq, beq_iff_eq, toLower_eq_dot]
  rw [lowerAscii, List.dropWhile_map, hdot]
  rfl

private theorem head?_dropWhile {p : Char → Bool} {s : List Char} : ∀ c ∈ (s.dropWhile p).head?, p c = false := by
  intro c hc
  have hnot := List.head?_dropWhile_not p s
  rw [Option.mem_def.1 hc] at hnot
  exact hnot

private theorem dropWhile_of_head? {p : Char → Bool} {s : List Char} (h : ∀ c ∈ s.head?, p c = false) :
    s.dropWhile p = s := by
  cases s with
  | nil => rfl
  | cons c s => rw [List.dropWhile_cons_of_neg (by simp [h c rfl])]

theorem getLast?_trim {s : List Char} : ∀ c ∈ (trim s).getLast?, isBlank c = false := by
  intro c hc
  rw [trim, trimEnd, List.getLast?_reverse] at hc
  exact head?_dropWhile c hc

theorem trim_eq_self {s : List Char} (hfront : ∀ c ∈ s.head?, isBlank c = false)
    (hbehind : ∀ c ∈ s.getLast?, isBlank c = false) : trim s = s := by
  have hend : s.reverse.dropWhile isBlank = s.reverse :=
    dropWhile_of_head? (by rwa [List.head?_reverse])
  rw [trim, trimStart, dropWhile_of_head? hfront, trimEnd, hend, List.reverse_reverse]

theorem length_trim_cons {c : Char} (h : isBlank c = true) (s : List Char) :
    (trim (c :: s)).length ≤ s.length := by
  rw [trim, trimStart, List.dropWhile_cons_of_pos h, trimEnd, List.length_reverse]
  refine (List.length_dropWhile_le _ _).trans ?_
  rw [List.length_reverse]
  exact List.length_dropWhile_le _ _

end Text

namespace Extension

/-- No dot in front, no white space behind and no capital of ASCII. -/
structure Normal (form : String) : Prop where
  front : ∀ c ∈ form.toList.head?, c ≠ '.'
  behind : ∀ c ∈ form.toList.getLast?, Text.isBlank c = false
  small : ∀ c ∈ form.toList, c.isUpper = false

def Tidy (form : String) : Prop := ∀ c ∈ form.toList.head?, Text.isBlank c = false

instance : DecidablePred Tidy := fun form =>
  Option.decidableForallMem form.toList.head?

/-- No white space right behind the dots with which the text begins once the white space around it is gone. -/
def Gapless (ext : String) : Prop :=
  ∀ n c rest, Text.trim ext.toList = List.replicate n '.' ++ c :: rest → Text.isBlank c = false

/-- White space around, dots in front and the case of ASCII letters apart, two texts are the same. -/
def Alike (s t : String) : Prop :=
  ∃ m n u v, Text.trim s.toList = List.replicate m '.' ++ u ∧ Text.trim t.toList = List.replicate n '.' ++ v ∧
    Text.lowerAscii u = Text.lowerAscii v

@[simp] theorem toList_normalize (ext : String) : (normalize ext).toList = normalizeChars ext.toList :=
  String.toList_ofList

private theorem dots_dropWhile (s : List Char) : ∃ n, s = List.replicate n '.' ++ s.dropWhile (· == '.') := by
  refine ⟨(s.takeWhile (· == '.')).length, ?_⟩
  rw [← List.eq_replicate_of_mem fun c hc => by simpa using List.mem_takeWhile_imp hc, List.takeWhile_append_dropWhile]

private theorem dropWhile_dots (n : Nat) (s : List Char) :
    (List.replicate n '.' ++ s).dropWhile (· == '.') = s.dropWhile (· == '.') :=
  List.dropWhile_append_of_pos fun c hc => by simp [List.eq_of_mem_replicate hc]

theorem normalize_normal (ext : String) : Normal (normalize ext) := by
  obtain ⟨n, hn⟩ := dots_dropWhile (Text.trim ext.toList)
  refine ⟨fun c hc => ?_, fun c hc => ?_, fun c hc => ?_⟩
  all_goals rw [toList_normalize, normalizeChars] at hc
  · rw [← Text.dropWhile_dot_lowerAscii] at hc
    simpa using Text.head?_dropWhile c hc
  · rw [Text.lowerAscii, List.getLast?_map] at hc
    obtain ⟨d, hd, rfl⟩ := Option.mem_map.1 hc
    rw [Text.isBlank_toLower]
    refine Text.getLast?_trim (s := ext.toList) d ?_
    rw [hn, List.getLast?_append, Option.mem_def.1 hd]
    rfl
  · obtain ⟨d, -, rfl⟩ := List.mem_map.1 hc
    exact Text.isUpper_toLower d

theorem normalize_eq_self {form : String} (hn : Normal form) (ht : Tidy form) : normalize form = form := by
  have hdots : form.toList.dropWhile (· == '.') = form.toList :=
    Text.dropWhile_of_head? fun c hc => by simp [hn.front c hc]
  rw [normalize, normalizeChars, Text.trim_eq_self ht hn.behind, hdots, Text.lowerAscii_eq_self hn.small,
    String.ofList_toList]

theorem length_normalize_lt {form : String} (h : ¬Tidy form) : (normalize form).length < form.length := by
  simp only [Tidy, not_forall, Bool.not_eq_false] at h
  obtain ⟨c, hc, hblank⟩ := h
  obtain ⟨rest, hrest⟩ := List.head?_eq_some_iff.1 hc
  rw [← String.length_toList, ← String.length_toList, toList_normalize, hrest, normalizeChars, Text.lowerAscii,
    List.length_map, List.length_cons]
  have hdots := List.length_dropWhile_le (· == '.') (Text.trim (c :: rest))
  have htrim := Text.length_trim_cons hblank rest
  omega

theorem normalize_eq_self_iff {form : String} (hn : Normal form) : normalize form = form ↔ Tidy form := by
  refine ⟨fun h => ?_, normalize_eq_self hn⟩
  by_contra ht
  have hlt := length_normalize_lt ht
  rw [h] at hlt
  exact Nat.lt_irrefl _ hlt

theorem tidy_normalize (ext : String) : Tidy (normalize ext) ↔ Gapless ext := by
  have hhead : (normalize ext).toList.head? =
      ((Text.trim ext.toList).dropWhile (· == '.')).head?.map Char.toLower := by
    rw [toList_normalize, normalizeChars, Text.lowerAscii, List.head?_map]
  rw [Tidy, hhead]
  constructor
  · intro h n c rest he
    rw [he, dropWhile_dots] at h
    by_cases hdot : c = '.'
    · rw [hdot]
      rfl
    · rw [List.dropWhile_cons_of_neg (by simpa using hdot)] at h
      rw [← Text.isBlank_toLower]
      exact h _ rfl
  · intro h c hc
    obtain ⟨d, hd, rfl⟩ := Option.mem_map.1 hc
    obtain ⟨n, hn⟩ := dots_dropWhile (Text.trim ext.toList)
    obtain ⟨rest, hrest⟩ := List.head?_eq_some_iff.1 hd
    rw [Text.isBlank_toLower]
    exact h n d rest (hrest ▸ hn)

theorem normalize_eq_iff (s t : String) : normalize s = normalize t ↔ Alike s t := by
  constructor
  · intro h
    obtain ⟨m, hm⟩ := dots_dropWhile (Text.trim s.toList)
    obtain ⟨n, hn⟩ := dots_dropWhile (Text.trim t.toList)
    exact ⟨m, n, _, _, hm, hn, String.ofList_injective h⟩
  · rintro ⟨m, n, u, v, hs, ht, huv⟩
    rw [normalize, normalize, normalizeChars, normalizeChars, hs, ht, dropWhile_dots, dropWhile_dots,
      ← Text.dropWhile_dot_lowerAscii, ← Text.dropWhile_dot_lowerAscii, huv]

private theorem eraseDups_of_nodup {forms : List String} (h : forms.Nodup) : forms.eraseDups = forms := by
  induction forms with
  | nil => rfl
  | cons form forms ih =>
    obtain ⟨hnew, hnodup⟩ := List.nodup_cons.1 h
    have hkept : forms.filter (fun f => !f == form) = forms :=
      List.filter_eq_self.2 fun f hf => by simpa using fun he : f = form => hnew (he ▸ hf)
    rw [List.eraseDups_cons, hkept, ih hnodup]

/-- Normal forms without repetition are kept as they are when normalising them once more leaves each as it is, and
only then. -/
theorem normalForms_eq_self_iff {forms : List String} (hnormal : ∀ form ∈ forms, Normal form ∧ form ≠ "")
    (hnodup : forms.Nodup) : normalForms forms = forms ↔ ∀ form ∈ forms, Tidy form := by
  constructor
  · intro h
    by_contra hsome
    -- The longest form with white space in front would have to come from a longer one, which is such a form too.
    have huntidy : ((forms.toFinset).filter fun form => ¬Tidy form).Nonempty := by
      simpa [Finset.Nonempty] using hsome
    obtain ⟨longest, hl, hmax⟩ := Finset.exists_max_image _ String.length huntidy
    simp only [Finset.mem_filter, List.mem_toFinset, and_imp] at hl hmax
    rw [← h, mem_normalForms] at hl
    obtain ⟨⟨-, form, hform, rfl⟩, hl⟩ := hl
    by_cases ht : Tidy form
    · exact hl (by rwa [normalize_eq_self (hnormal form hform).1 ht])
    · exact absurd (length_normalize_lt ht) (Nat.not_lt.2 (hmax form hform ht))
  · intro h
    have hmap : forms.map normalize = forms :=
      (List.map_congr_left fun form hf => normalize_eq_self (hnormal form hf).1 (h form hf)).trans forms.map_id
    have hfilter : forms.filter (· ≠ "") = forms :=
      List.filter_eq_self.2 fun form hf => by simpa using (hnormal form hf).2
    rw [normalForms_eq, hmap, hfilter, eraseDups_of_nodup hnodup]

end Extension

namespace Language
open Extension
variable {name : String} {exts : List String} {recipe : Recipe} {d : Language}

theorem of_new? (h : new? name exts recipe = some d) :
    d.name = name ∧ d.extensions = normalForms exts ∧ d.recipe = recipe := by
  rw [new?] at h
  split at h
  · cases h
  · obtain rfl := Option.some.inj h
    exact ⟨rfl, rfl, rfl⟩

theorem extensions_ne_nil (h : new? name exts recipe = some d) : d.extensions ≠ [] := by
  rw [new?] at h
  split at h
  · cases h
  · rename_i hne
    obtain rfl := Option.some.inj h
    exact fun hnil => hne (List.isEmpty_iff.2 hnil)

theorem mem_extensions (h : new? name exts recipe = some d) {form : String} :
    form ∈ d.extensions ↔ form ≠ "" ∧ ∃ given ∈ exts, normalize given = form := by
  rw [(of_new? h).2.1, mem_normalForms]

theorem tidy_extensions (h : new? name exts recipe = some d) :
    (∀ form ∈ d.extensions, Tidy form) ↔ ∀ given ∈ exts, Gapless given := by
  constructor
  · intro ht given hg
    rw [← tidy_normalize]
    by_cases hempty : normalize given = ""
    · rw [hempty]
      simp [Tidy]
    · exact ht _ ((mem_extensions h).2 ⟨hempty, given, hg, rfl⟩)
  · intro hgap form hf
    obtain ⟨-, given, hg, rfl⟩ := (mem_extensions h).1 hf
    exact (tidy_normalize given).2 (hgap given hg)

/-- A language built again from what it stores is the same exactly when normalising keeps what it stores. -/
theorem rebuilt_iff (h : new? name exts recipe = some d) :
    (∃ again, new? d.name d.extensions d.recipe = some again ∧ (again == d) = true ∧ again.extensions = d.extensions) ↔
      normalForms d.extensions = d.extensions := by
  constructor
  · rintro ⟨again, hagain, -, he⟩
    exact (of_new? hagain).2.1.symm.trans he
  · intro hsame
    refine ⟨⟨d.name, normalForms d.extensions, d.recipe, normalForms_nodup _⟩, ?_, ?_, hsame⟩
    · rw [new?, if_neg]
      rw [hsame, List.isEmpty_iff]
      exact extensions_ne_nil h
    · exact (beq_iff _ _).2 ⟨List.Perm.of_eq hsame, BEq.refl _⟩

/-- What a language stores begins with no dot, ends in no white space and has no capital of ASCII, and it handles
whatever it stores that begins with no white space. Building it again from what it stores gives it back exactly when
nothing stored begins with white space, that is when no extension it was given has white space right behind the dots in
front; and these are the texts of which normalising twice makes no more than normalising once. -/
theorem stored_extensions (h : new? name exts recipe = some d) :
    (∀ form ∈ d.extensions, Normal form ∧ (Tidy form → d.handles form = true)) ∧
    ((∃ again, new? d.name d.extensions d.recipe = some again ∧ (again == d) = true ∧
      again.extensions = d.extensions) ↔ ∀ form ∈ d.extensions, Tidy form) ∧
    ((∀ form ∈ d.extensions, Tidy form) ↔ ∀ given ∈ exts, Gapless given) ∧
    ∀ s, normalize (normalize s) = normalize s ↔ Gapless s := by
  have hnormal : ∀ form ∈ d.extensions, Normal form ∧ form ≠ "" := by
    intro form hf
    obtain ⟨hne, given, -, rfl⟩ := (mem_extensions h).1 hf
    exact ⟨normalize_normal given, hne⟩
  refine ⟨fun form hf => ⟨(hnormal form hf).1, fun ht => ?_⟩, ?_, tidy_extensions h, fun s => ?_⟩
  · rw [handles, normalize_eq_self (hnormal form hf).1 ht, List.contains_iff_mem]
    exact hf
  · rw [rebuilt_iff h, normalForms_eq_self_iff hnormal d.distinct]
  · rw [normalize_eq_self_iff (normalize_normal s), tidy_normalize]

/-- A language of the extensions `..Robot` and ` .RESOURCE`. -/
theorem stored_robot :
    let d : Language := ⟨"x", ["robot", "resource"], default, by decide⟩
    new? "x" ["..Robot", " .RESOURCE"] default = some d ∧ (d.handles "robot" = true ∧ d.handles "resource" = true) := by
  intro d
  have h : new? "x" ["..Robot", " .RESOURCE"] default = some d := rfl
  have hstored := (stored_extensions h).1
  exact ⟨h, (hstored "robot" (by simp [d])).2 (by decide), (hstored "resource" (by simp [d])).2 (by decide)⟩

/-- Of `. robot` the white space stays, and what is stored is not what it is taken for when it is given again. -/
theorem not_stored_normal :
    (¬ ∀ name exts recipe d, new? name exts recipe = some d → ∀ form ∈ d.extensions, Tidy form) ∧
    (¬ ∀ name exts recipe d, new? name exts recipe = some d → ∀ form ∈ d.extensions, d.handles form = true) ∧
    (¬ ∀ name exts recipe d, new? name exts recipe = some d →
      ∃ again, new? d.name d.extensions d.recipe = some again ∧ (again == d) = true) ∧
    ¬ ∀ s, normalize (normalize s) = normalize s := by
  let d : Language := ⟨"x", [" robot"], default, by decide⟩
  have h : new? "x" [". robot"] default = some d := rfl
  have hmem : " robot" ∈ d.extensions := List.mem_singleton_self _
  refine ⟨fun hall => ?_, fun hall => ?_, fun hall => ?_, fun hall => ?_⟩
  · exact absurd (hall _ _ _ d h _ hmem) (by decide)
  · exact absurd (hall _ _ _ d h _ hmem) (by decide)
  · obtain ⟨again, hagain, hd⟩ := hall _ _ _ d h
    have hp := ((beq_iff _ _).1 hd).1
    rw [(of_new? hagain).2.1] at hp
    exact absurd hp (by decide)
  · exact absurd (hall ". robot") (by decide)

end Language

end LanguageHost
