import LanguageHost.Language.Recipe
import LanguageHost.Proofs.Json.Reading
import LanguageHost.Proofs.Language.Identity

/-! Recipes survive serialisation: the text of a recipe that was read is read back as that recipe, and recipes
with one text are equal. -/
namespace LanguageHost

namespace Json.Text

/-- The fields of a recipe, whichever way it is written. -/
def recipeFields? : Text → Option (List (String × Text))
  | .object members => (knownFields? members).filter fun fields => (fields.map Prod.fst).Nodup
  | .array items =>
    if items.length ≤ Recipe.fieldNames.length then some (Recipe.fieldNames.zip items) else none
  | _ => none

theorem toRecipe?_eq (t : Text) : t.toRecipe? = t.recipeFields?.bind recipeOfFields? := by
  cases t with
  | object members =>
    rw [toRecipe?, recipeFields?]
    cases knownFields? members with
    | none => rfl
    | some fields =>
      show (if (fields.map Prod.fst).Nodup then recipeOfFields? fields else none) = _
      by_cases h : (fields.map Prod.fst).Nodup <;> simp [h, Option.filter]
  | array items =>
    rw [toRecipe?, recipeFields?]
    split_ifs <;> rfl
  | _ => rfl

end Json.Text

namespace Recipe
variable {r q : Recipe} {s t : List Char}

/-- The numbers in the options of a text are integers of 64 bits, with a sign or without. -/
def WholeOptions (s : List Char) : Prop :=
  ∀ text fields options, Json.Text.parse? s = some text → text.recipeFields? = some fields →
    fields.lookup "initialization_options" = some options → options.Whole

/-- What reading makes sure of: variables in the order of their names, and options that can be read back one
level below the recipe. -/
structure Canonical (r : Recipe) : Prop where
  sorted : (r.env.map Prod.fst).Pairwise (· < ·)
  options : ∀ v, r.options = some v → v ≠ .null ∧ v.Whole ∧ v.nesting ≤ Json.depthLimit - 1

section Reading
open Json.Text

private theorem sorted_of_toStringMap? {t : Json.Text} {env : List (String × String)} (h : t.toStringMap? = some env) :
    (env.map Prod.fst).Pairwise (· < ·) := by
  cases t with
  | object members =>
    simp only [toStringMap?, Option.bind_eq_bind, Option.bind_eq_some_iff, Option.pure_def, Option.some.injEq] at h
    obtain ⟨pairs, -, rfl⟩ := h
    exact (Json.sortMembers_sorted pairs).1
  | _ => cases h

private theorem options_of_toOptions? {t : Json.Text} {options : Option Json} (hwhole : t.Whole)
    (h : t.toOptions? = some options) :
    ∀ v, options = some v → v ≠ .null ∧ v.Whole ∧ v.nesting ≤ Json.depthLimit - 1 := by
  rintro v rfl
  have hnull : t ≠ .null := by
    rintro rfl
    cases h
  have hvalue : t.toValue? (Json.depthLimit - 1) = some v := by
    cases t with
    | null => exact absurd rfl hnull
    | _ =>
      rw [toOptions?, Option.map_eq_some_iff] at h
      · obtain ⟨w, hw, heq⟩ := h
        rw [hw, Option.some.inj heq]
      · exact fun hnull => Json.Text.noConfusion hnull
  refine ⟨?_, toValue?_whole hwhole hvalue⟩
  rintro rfl
  exact hnull (eq_null_of_toValue? hwhole hvalue)

theorem canonical_of_read? (h : read? s = some r) (hs : WholeOptions s) : r.Canonical := by
  rw [read?, Option.bind_eq_some_iff] at h
  obtain ⟨text, htext, h⟩ := h
  rw [toRecipe?_eq, Option.bind_eq_some_iff] at h
  obtain ⟨fields, hfields, h⟩ := h
  simp only [recipeOfFields?, Option.bind_eq_bind, Option.bind_eq_some_iff, Option.pure_def, Option.some.injEq] at h
  obtain ⟨_, -, command, -, args, -, env, henv, workingDir, -, options, hoptions, rfl⟩ := h
  constructor
  · rw [fieldOr] at henv
    split at henv
    · obtain rfl := Option.some.inj henv
      exact List.Pairwise.nil
    · exact sorted_of_toStringMap? henv
  · rw [fieldOr] at hoptions
    split at hoptions
    · obtain rfl := Option.some.inj hoptions
      intro v hnone
      cases hnone
    · rename_i o ho
      exact options_of_toOptions? (hs text fields o htext hfields ho) hoptions

end Reading

section Writing
open Json.Text

theorem toJson_eq (r : Recipe) : r.toJson = .object [
    ("args", .array (r.args.map .string)), ("command", .string r.command),
    ("env", .object (r.env.map fun m => (m.1, .string m.2))),
    ("initialization_options", r.options.getD .null), ("working_dir", r.workingDir.toJson)] := by
  rw [toJson, Json.ofMembers]
  simp +decide only [Json.sortMembers, Json.insertMember, List.foldl_cons, List.foldl_nil, if_true, if_false]

private theorem whole_strings (items : List String) : Json.ItemsWhole (items.map .string) := by
  induction items with
  | nil => trivial
  | cons s items ih => exact ⟨trivial, ih⟩

theorem Canonical.whole_toJson (h : r.Canonical) : r.toJson.Whole := by
  have hoptions : (r.options.getD .null).Whole := by
    cases ho : r.options with
    | none => trivial
    | some v => exact (h.options v ho).2.1
  have henv : (Json.object (r.env.map fun m => (m.1, .string m.2))).Whole := by
    refine ⟨by simpa [Function.comp_def] using h.sorted, Json.membersWhole_iff.2 ?_⟩
    intro m hm
    obtain ⟨_, -, rfl⟩ := List.mem_map.1 hm
    trivial
  have hdir : r.workingDir.toJson.Whole := by
    cases r.workingDir with
    | project | fileDir => trivial
    | fixed path => exact ⟨List.pairwise_singleton _ _, trivial, trivial⟩
  have hnames : ["args", "command", "env", "initialization_options", "working_dir"].Pairwise (· < ·) := by decide
  rw [toJson_eq]
  exact ⟨hnames, whole_strings r.args, trivial, henv, hoptions, hdir, trivial⟩

private theorem toStrings?_spell (items : List String) :
    toStrings? (Json.Text.array (Json.spellItems (items.map .string))) = some items := by
  rw [toStrings?]
  induction items with
  | nil => rfl
  | cons s items ih =>
    rw [List.map_cons, Json.spellItems, List.mapM_cons, ih]
    rfl

private theorem mapM_spellMembers {f : Option String × Json.Text → Option (String × String)}
    (hf : ∀ k s, f (some k, .string (some s)) = some (k, s)) (env : List (String × String)) :
    (Json.spellMembers (env.map fun m => (m.1, .string m.2))).mapM f = some env := by
  induction env with
  | nil => rfl
  | cons m env ih =>
    rw [List.map_cons, Json.spellMembers, List.mapM_cons, ih, Json.spell, hf]
    rfl

private theorem toStringMap?_spell {env : List (String × String)} (h : (env.map Prod.fst).Pairwise (· < ·)) :
    toStringMap? (Json.Text.object (Json.spellMembers (env.map fun m => (m.1, .string m.2)))) = some env := by
  rw [toStringMap?, mapM_spellMembers fun _ _ => rfl]
  show some (Json.sortMembers env) = some env
  rw [Json.sortMembers_of_pairwise h]

private theorem toWorkingDir?_spell (w : WorkingDir) : toWorkingDir? w.toJson.spell = some w := by
  cases w <;> rfl

private theorem toOptions?_spell {options : Option Json}
    (h : ∀ v, options = some v → v ≠ .null ∧ v.Whole ∧ v.nesting ≤ Json.depthLimit - 1) :
    toOptions? (options.getD .null).spell = some options := by
  cases options with
  | none => rfl
  | some v =>
    obtain ⟨hnull, hwhole, hdepth⟩ := h v rfl
    have hspell : v.spell ≠ .null := by
      cases v with
      | null => exact absurd rfl hnull
      | _ => exact fun h => Json.Text.noConfusion h
    rw [Option.getD_some, toOptions?, Json.toValue?_spell v hwhole _ hdepth]
    · rfl
    · exact hspell

theorem Canonical.read?_write (h : r.Canonical) : read? r.toJson.write = some r := by
  rw [read?, Json.parse?_write h.whole_toJson, Option.bind_some, toRecipe?_eq]
  have hfields : (r.toJson.spell).recipeFields? = some [
      ("args", .array (Json.spellItems (r.args.map .string))), ("command", .string (some r.command)),
      ("env", .object (Json.spellMembers (r.env.map fun m => (m.1, .string m.2)))),
      ("initialization_options", (r.options.getD .null).spell), ("working_dir", r.workingDir.toJson.spell)] := by
    rw [toJson_eq]
    simp [recipeFields?, Json.spell, Json.spellMembers, knownFields?, fieldNames, Option.filter]
  rw [hfields, Option.bind_some]
  simp [recipeOfFields?, fieldOr, List.lookup_cons, asString?, toStrings?_spell, toStringMap?_spell h.sorted,
    toWorkingDir?_spell, toOptions?_spell h.options]

end Writing

section Equality

theorem Canonical.withWorkingDir (h : r.Canonical) (w : WorkingDir) : (r.withWorkingDir w).Canonical :=
  ⟨h.sorted, h.options⟩

/-- Recipes that were read and are equal differ at most in how they spell a directory. -/
theorem Canonical.eq_of_beq (hr : r.Canonical) (hq : q.Canonical) (hdir : r.workingDir = q.workingDir)
    (h : (r == q) = true) : r = q := by
  obtain ⟨hcommand, hargs, henv, -, hoptions⟩ := (beq_iff r q).1 h
  have hoptions : r.options = q.options := by
    cases hro : r.options with
    | none =>
      cases hqo : q.options with
      | none => rfl
      | some w => simp [hro, hqo] at hoptions
    | some v =>
      cases hqo : q.options with
      | none => simp [hro, hqo] at hoptions
      | some w =>
        rw [hro, hqo] at hoptions
        rw [Json.eq_of_same hoptions (hr.options v hro).2.1 (hq.options w hqo).2.1]
  obtain ⟨_, _, _, _, _⟩ := r
  obtain ⟨_, _, _, _, _⟩ := q
  simp_all

/-- A fixed directory apart, which counts by its components, equality is equality of texts. -/
theorem Canonical.beq_iff_write (hr : r.Canonical) (hq : q.Canonical) :
    (r == q) = true ↔ (r.workingDir == q.workingDir) = true ∧
      (r.withWorkingDir q.workingDir).toJson.write = q.toJson.write := by
  constructor
  · intro h
    obtain ⟨hcommand, hargs, henv, hdir, hoptions⟩ := (beq_iff r q).1 h
    have hmoved : (r.withWorkingDir q.workingDir == q) = true :=
      (beq_iff _ q).2 ⟨hcommand, hargs, henv, BEq.rfl, hoptions⟩
    rw [(hr.withWorkingDir q.workingDir).eq_of_beq hq rfl hmoved]
    exact ⟨hdir, rfl⟩
  · rintro ⟨hdir, htext⟩
    have hread := (hr.withWorkingDir q.workingDir).read?_write
    rw [htext, hq.read?_write] at hread
    have hmoved : q = r.withWorkingDir q.workingDir := Option.some.inj hread
    rw [hmoved]
    exact (beq_iff r _).2 ⟨rfl, rfl, rfl, hdir, BEq.rfl⟩

end Equality

/-- A recipe that was read is read back from its own text, and two such recipes have one text just when they are
equal and spell a fixed directory alike; with the directory of the other in its place they have one text just when
they are equal. -/
theorem survives_serialisation (hr : read? s = some r) (hs : WholeOptions s) (hq : read? t = some q)
    (ht : WholeOptions t) :
    read? r.toJson.write = some r ∧
    (r.toJson.write = q.toJson.write ↔ (r == q) = true ∧ r.workingDir = q.workingDir) ∧
    ((r == q) = true ↔ (r.workingDir == q.workingDir) = true ∧
      (r.withWorkingDir q.workingDir).toJson.write = q.toJson.write) := by
  have hr := canonical_of_read? hr hs
  have hq := canonical_of_read? hq ht
  refine ⟨hr.read?_write, ⟨fun htext => ?_, fun ⟨h, hdir⟩ => ?_⟩, hr.beq_iff_write hq⟩
  · have hback := hr.read?_write
    rw [htext, hq.read?_write] at hback
    obtain rfl := Option.some.inj hback
    exact ⟨BEq.rfl, rfl⟩
  · rw [hr.eq_of_beq hq hdir h]

/-- The recipe of `c`, with minus zero for an option. -/
private def started (directory : String) : Recipe :=
  { command := "c", workingDir := .fixed ⟨directory⟩, options := some (.array [Json.ofFloat Json.minusZero]) }

private def members : List Char :=
  "\x7b\"initialization_options\":[-0],\"x\":1.5,\"working_dir\":\x7b\"path\":\"a/b\"\x7d,\"command\":\"c\"\x7d".toList

private def listed : List Char := "[\"c\",[],\x7b\x7d,\x7b\"path\":\"a//b\"\x7d,[-0]]".toList

private theorem parse?_members : Json.Text.parse? members = some (.object [
    (some "initialization_options", .array [.number ⟨true, [0], [], none⟩]), (some "x", .number ⟨false, [1], [5], none⟩),
    (some "working_dir", .object [(some "path", .string (some "a/b"))]), (some "command", .string (some "c"))]) := by
  cbv

private theorem parse?_listed : Json.Text.parse? listed = some (.array [.string (some "c"), .array [], .object [],
    .object [(some "path", .string (some "a//b"))], .array [.number ⟨true, [0], [], none⟩]]) := by
  cbv

private theorem read?_members : read? members = some (started "a/b") := by
  rw [read?, parse?_members]
  rfl

private theorem read?_listed : read? listed = some (started "a//b") := by
  rw [read?, parse?_listed]
  rfl

private theorem whole_zero : Json.Text.Whole (.array [.number ⟨true, [0], [], none⟩]) :=
  ⟨⟨rfl, rfl, Nat.zero_le _⟩, trivial⟩

private theorem whole_members : WholeOptions members := by
  intro text fields options htext hfields hoptions
  cases parse?_members.symm.trans htext
  cases hfields
  cases hoptions
  exact whole_zero

private theorem whole_listed : WholeOptions listed := by
  intro text fields options htext hfields hoptions
  cases parse?_listed.symm.trans htext
  cases hfields
  cases hoptions
  exact whole_zero

/-- A list and an object with an unknown member and its fields in another order are both read back. -/
theorem survives_respelled :
    (read? members = some (started "a/b") ∧ WholeOptions members ∧
      read? listed = some (started "a//b") ∧ WholeOptions listed) ∧
    read? (started "a/b").toJson.write = some (started "a/b") ∧
      ((started "a/b").withWorkingDir (.fixed ⟨"a//b"⟩)).toJson.write = (started "a//b").toJson.write := by
  have h := survives_serialisation read?_members whole_members read?_listed whole_listed
  exact ⟨⟨read?_members, whole_members, read?_listed, whole_listed⟩, h.1, rfl⟩

/-- Two spellings of one directory make equal recipes with different texts. -/
theorem not_beq_iff_write :
    ¬∀ (s t : List Char) (r q : Recipe), read? s = some r → WholeOptions s → read? t = some q → WholeOptions t →
      ((r == q) = true ↔ r.toJson.write = q.toJson.write) := by
  intro h
  have hequal : (started "a/b" == started "a//b") = true :=
    (beq_iff _ _).2 ⟨rfl, rfl, rfl, by decide, BEq.rfl⟩
  have htext := (h _ _ _ _ read?_members whole_members read?_listed whole_listed).1 hequal
  have hback := (canonical_of_read? read?_members whole_members).read?_write
  rw [htext, (canonical_of_read? read?_listed whole_listed).read?_write] at hback
  have hpath : (⟨"a//b"⟩ : Path).text = "a/b" := by
    injection hback with hback
    injection hback with _ _ _ hdir
    injection hdir with hpath
    exact congrArg Path.text hpath
  exact absurd hpath (by decide)

end Recipe

end LanguageHost
