import LanguageHost.Proofs.Language.Spelling
import LanguageHost.Proofs.Path.Components
import LanguageHost.Proofs.Host.Happens
import Mathlib

/-! Keys as a hash table needs them: what makes two languages equal, what equal keys feed to a hash, and the table
that leads from a key to its slot. -/
namespace LanguageHost

/-- The normal forms of some extensions that come to something. -/
def Extension.forms (exts : List String) : Set String := {form | form ≠ "" ∧ ∃ ext ∈ exts, normalize ext = form}

namespace Path

/-- What a path feeds to a hash: the pieces between its slashes, without those that name nothing. The first piece is
fed as it is, if it is not empty. -/
def hashed (p : Path) : List (List Char) :=
  match p.pieces with
  | [] => []
  | first :: rest => [first].filter (· ≠ []) ++ rest.filter fun piece => ¬(piece = [] ∨ piece = ['.'])

private def names (cs : List Component) : List (List Char) := (cs.filter (· ≠ .root)).map fun c => c.text.toList

private theorem names_filterMap (pieces : List (List Char)) :
    names (pieces.filterMap Component.ofPiece?) = pieces.filter fun piece => ¬(piece = [] ∨ piece = ['.']) := by
  induction pieces with
  | nil => rfl
  | cons piece pieces ih =>
    by_cases hnothing : piece = [] ∨ piece = ['.']
    · have hnone : Component.ofPiece? piece = none := if_pos hnothing
      rw [List.filterMap_cons_none hnone, List.filter_cons_of_neg (by simp [hnothing]), ih]
    · obtain ⟨c, hc, hroot, htext⟩ : ∃ c, Component.ofPiece? piece = some c ∧ c ≠ .root ∧ c.text.toList = piece := by
        rw [Component.ofPiece?, if_neg hnothing]
        split_ifs with hparent
        · exact ⟨_, rfl, by simp, hparent ▸ rfl⟩
        · exact ⟨_, rfl, by simp, String.toList_ofList⟩
      rw [List.filterMap_cons_some hc, List.filter_cons_of_pos (by simpa using hnothing), ← ih]
      simp [names, hroot, htext]

private theorem first_of_isAbsolute {p : Path} {first : List Char} {rest : List (List Char)}
    (hp : p.pieces = first :: rest) (ha : p.isAbsolute = true) : first = [] := by
  rw [isAbsolute, beq_iff_eq] at ha
  obtain ⟨t, ht⟩ := List.head?_eq_some_iff.1 ha
  rw [pieces, ht, Text.splitOn, if_pos (show isSlash '/' = true from rfl)] at hp
  exact (List.cons.inj hp).1.symm

private theorem hashed_eq (p : Path) : p.hashed = names p.components := by
  obtain ⟨first, rest, hp⟩ := List.exists_cons_of_ne_nil
    (show p.pieces ≠ [] by rw [pieces, Text.splitOn_eq]; exact List.splitOnP_ne_nil _ _)
  have hhashed : p.hashed = [first].filter (· ≠ []) ++ rest.filter fun piece => ¬(piece = [] ∨ piece = ['.']) := by
    rw [hashed, hp]
  rw [hhashed, components, hp]
  by_cases ha : p.isAbsolute = true
  · rw [if_pos ha, first_of_isAbsolute hp ha]
    exact (names_filterMap ([] :: rest)).symm
  · rw [if_neg ha]
    split
    · rename_i hdot
      obtain ⟨rfl, rfl⟩ := List.cons.inj hdot
      show ['.'] :: _ = ['.'] :: names _
      rw [names_filterMap]
      rfl
    · rename_i hdot
      have hfirst : first ≠ ['.'] := fun he => hdot rest (by rw [he])
      rw [names_filterMap]
      by_cases hempty : first = [] <;> simp [hempty, hfirst]

theorem hashed_congr {p q : Path} (h : (p == q) = true) : p.hashed = q.hashed := by
  rw [hashed_eq, hashed_eq, (beq_iff p q).1 h]

end Path

namespace Language
variable {name name' : String} {exts exts' : List String} {recipe recipe' : Recipe} {a b : Language}

/-- Languages are equal when what their extensions come to is the same set and their recipes are equal. -/
theorem new?_beq_iff (ha : new? name exts recipe = some a) (hb : new? name' exts' recipe' = some b) :
    (a == b) = true ↔ Extension.forms exts = Extension.forms exts' ∧ (recipe == recipe') = true := by
  rw [beq_iff, (of_new? ha).2.2, (of_new? hb).2.2, List.perm_ext_iff_of_nodup a.distinct b.distinct, Set.ext_iff]
  simp only [mem_extensions ha, mem_extensions hb, Extension.forms, Set.mem_ofPred_eq]

/-- Equal languages have their extensions in different order at most, so sorting leaves the same list. -/
theorem digest_congr (h : (a == b) = true) : a.digest = b.digest := by
  obtain ⟨hperm, hrecipe⟩ := (beq_iff a b).1 h
  obtain ⟨hcommand, hargs, -⟩ := (Recipe.beq_iff _ _).1 hrecipe
  have hsorted (l : Language) :
      (l.extensions.mergeSort fun x y => decide (x ≤ y)).Pairwise fun x y => decide (x ≤ y) = true :=
    List.pairwise_mergeSort (fun _ _ _ => by simpa using String.le_trans)
      (fun _ _ => by simpa using String.le_total _ _) _
  have hsame : (a.extensions.mergeSort fun x y => decide (x ≤ y)).Perm
      (b.extensions.mergeSort fun x y => decide (x ≤ y)) :=
    (List.mergeSort_perm _ _).trans (hperm.trans (List.mergeSort_perm _ _).symm)
  rw [digest, digest, hcommand, hargs, hsame.eq_of_pairwise (fun x y _ _ hxy hyx => ?_) (hsorted a) (hsorted b)]
  exact String.le_antisymm (of_decide_eq_true hxy) (of_decide_eq_true hyx)

end Language

namespace ServerKey
variable {k k' : ServerKey}

/-- What a language feeds to a hash, and what a project does. -/
abbrev Digest := (List String × String × List String) × List (List Char)

def digest (k : ServerKey) : Digest := (k.language.digest, k.project.path.hashed)

theorem digest_congr (h : (k == k') = true) : k.digest = k'.digest := by
  obtain ⟨hlanguage, hproject⟩ := (beq_iff k k').1 h
  rw [digest, digest, Language.digest_congr hlanguage, Path.hashed_congr hproject]

/-- Keys hashed by what they feed, whatever is made of it. -/
@[reducible] def hashBy (mix : Digest → UInt64) : Hashable ServerKey :=
  ⟨fun k => mix k.digest⟩

theorem lawful_hashBy (mix : Digest → UInt64) :
    @LawfulHashable ServerKey _ (hashBy mix) :=
  let := hashBy mix
  ⟨fun _ _ h => congrArg mix (digest_congr h)⟩

end ServerKey

namespace Registry
variable (mix : ServerKey.Digest → UInt64) {r : Registry} {k : ServerKey}

/-- The slots of a registry in a hash table, under their keys. -/
def table (r : Registry) : @Std.HashMap ServerKey Nat _ (ServerKey.hashBy mix) :=
  letI := ServerKey.hashBy mix
  .ofList (r.slots.zipIdx.map fun slot => (slot.1.key, slot.2))

def lookup? (r : Registry) (k : ServerKey) : Option Nat :=
  letI := ServerKey.hashBy mix
  (r.table mix)[k]?

private theorem Sound.keys_pairwise (hr : r.Sound) :
    (r.slots.zipIdx.map fun slot => (slot.1.key, slot.2)).Pairwise fun x y => (x.1 == y.1) = false := by
  rw [List.pairwise_map, List.pairwise_iff_getElem]
  intro i j hi hj hlt
  simp only [List.getElem_zipIdx, Nat.zero_add]
  refine Bool.eq_false_iff.2 fun hk => Nat.ne_of_lt hlt ?_
  rw [List.length_zipIdx] at hi hj
  exact hr.keys i j _ _ (List.getElem?_eq_getElem hi) (List.getElem?_eq_getElem hj) hk

/-- Whatever the hash makes of it, the table finds the slot that a search through all keys finds. -/
theorem Sound.lookup?_eq (hr : r.Sound) (k : ServerKey) : r.lookup? mix k = r.slotIndex? k := by
  let := ServerKey.hashBy mix
  have := ServerKey.lawful_hashBy mix
  cases hi : r.slotIndex? k with
  | some i =>
    obtain ⟨s, hs, hk⟩ := slotIndex?_slot hi
    exact Std.HashMap.getElem?_ofList_of_mem hk hr.keys_pairwise
      (List.mem_map.2 ⟨(s, i), List.mem_zipIdx_iff_getElem?.2 hs, rfl⟩)
  | none =>
    refine Std.HashMap.getElem?_ofList_of_contains_eq_false (Bool.eq_false_iff.2 fun hmem => ?_)
    rw [List.contains_iff_exists_mem_beq] at hmem
    obtain ⟨key, hkey, hk⟩ := hmem
    rw [List.map_map] at hkey
    obtain ⟨⟨s, i⟩, hslot, rfl⟩ := List.mem_map.1 hkey
    have hno := List.findIdx?_eq_none_iff.1 hi s (List.mem_of_getElem? (List.mem_zipIdx_iff_getElem?.1 hslot))
    exact absurd (BEq.symm hk) (by simpa using hno)

end Registry

/-- Two languages are equal when their extensions, with white space around, dots in front, the case of ASCII letters,
order and repetition left aside, are the same and their recipes are equal. Equality of languages and of keys is an
equivalence, and equal ones feed the same to a hash. So in every run a hash table that has the slots under their keys
finds under a key the slot of this key; under an equal key it finds the same slot, then and ever after. -/
theorem definition_identity (bounds : Bounds) (events : List Event) :
    let r := ((Host.new bounds).run events).registry
    (∀ name exts recipe a name' exts' recipe' b, Language.new? name exts recipe = some a →
      Language.new? name' exts' recipe' = some b →
      ((a == b) = true ↔ Extension.forms exts = Extension.forms exts' ∧ (recipe == recipe') = true)) ∧
    (∀ s t, Extension.normalize s = Extension.normalize t ↔ Extension.Alike s t) ∧
    (Equivalence fun a b : Language => (a == b) = true) ∧
    (∀ a b : Language, (a == b) = true → a.digest = b.digest) ∧
    (Equivalence fun k k' : ServerKey => (k == k') = true) ∧
    (∀ k k' : ServerKey, (k == k') = true ↔
      (k.language == k'.language) = true ∧ k.project.path.components = k'.project.path.components) ∧
    (∀ k k' : ServerKey, (k == k') = true → k.digest = k'.digest) ∧
    ∀ mix k, r.lookup? mix k = r.slotIndex? k ∧
      (∀ i, r.lookup? mix k = some i ↔ ∃ s, r.slots[i]? = some s ∧ (s.key == k) = true) ∧
      ∀ k', (k == k') = true → r.lookup? mix k' = r.lookup? mix k ∧
        ∀ i later, r.lookup? mix k = some i →
          (((Host.new bounds).run events).run later).registry.lookup? mix k' = some i := by
  intro r
  have hsound : r.Sound := (Host.run_ordered bounds events).sound
  refine ⟨fun _ _ _ _ _ _ _ _ => Language.new?_beq_iff, Extension.normalize_eq_iff,
    ⟨fun _ => BEq.refl _, BEq.symm, BEq.trans⟩, fun _ _ => Language.digest_congr,
    ⟨fun _ => BEq.refl _, BEq.symm, BEq.trans⟩, fun k k' => ?_, fun _ _ => ServerKey.digest_congr,
    fun mix k => ⟨hsound.lookup?_eq mix k, fun i => ?_, fun k' hk => ⟨?_, fun i later hi => ?_⟩⟩⟩
  · rw [ServerKey.beq_iff, ← Path.beq_iff]
    rfl
  · rw [hsound.lookup?_eq]
    exact ⟨Registry.Sound.slotIndex?_slot, fun ⟨s, hs, hkey⟩ => hsound.slotIndex?_eq_some hs hkey⟩
  · rw [hsound.lookup?_eq, hsound.lookup?_eq, Registry.slotIndex?_congr hk]
  · rw [hsound.lookup?_eq] at hi
    obtain ⟨s, hs, hkey⟩ := Registry.Sound.slotIndex?_slot hi
    obtain ⟨s', hs', hgrows⟩ := (Host.run_since bounds events later).slots i s hs
    have hlater := ((((Host.settled_new bounds).run events False.elim).run later False.elim).ordered).sound
    rw [hlater.lookup?_eq]
    exact hlater.slotIndex?_eq_some hs' (by rw [hgrows.key]; exact BEq.trans hkey hk)

/-- One language spelled in two ways, each in a project that is spelled in its own way. -/
theorem identity_spelled :
    let a : Language := ⟨"Robot", ["robot", "resource"], .new "server", by decide⟩
    let b : Language := ⟨"tests", ["resource", "robot"], .new "server", by decide⟩
    let k : ServerKey := ⟨a, ⟨⟨"/w/p"⟩⟩⟩
    let k' : ServerKey := ⟨b, ⟨⟨"/w//./p/"⟩⟩⟩
    let r := ((Host.new default).run [.call (.acquire k none), .begin ⟨0⟩]).registry
    (Language.new? "Robot" [".Robot", "resource", "robot"] (.new "server") = some a ∧
      Language.new? "tests" ["RESOURCE", " ..robot"] (.new "server") = some b) ∧
    (a == b) = true ∧ a.digest = b.digest ∧ k.digest = k'.digest ∧
      ∀ mix, r.lookup? mix k = some 0 ∧ r.lookup? mix k' = some 0 := by
  intro a b k k' r
  have ha : Language.new? "Robot" [".Robot", "resource", "robot"] (.new "server") = some a := rfl
  have hb : Language.new? "tests" ["RESOURCE", " ..robot"] (.new "server") = some b := rfl
  obtain ⟨hbuilt, -, -, hfed, -, hkey, hkeyfed, htable⟩ :=
    definition_identity default [.call (.acquire k none), .begin ⟨0⟩]
  have hforms : Extension.forms [".Robot", "resource", "robot"] = Extension.forms ["RESOURCE", " ..robot"] := by
    refine Set.ext fun form => (Language.mem_extensions ha).symm.trans (.trans ?_ (Language.mem_extensions hb))
    simp [a, b, or_comm]
  have hab : (a == b) = true := (hbuilt _ _ _ a _ _ _ b ha hb).2 ⟨hforms, BEq.refl _⟩
  have hk : (k == k') = true := (hkey k k').2 ⟨hab, by decide⟩
  refine ⟨⟨ha, hb⟩, hab, hfed a b hab, hkeyfed k k' hk, fun mix => ?_⟩
  have hfound : r.lookup? mix k = some 0 := ((htable mix k).2.1 0).2 ⟨_, rfl, BEq.refl _⟩
  exact ⟨hfound, ((htable mix k).2.2 k' hk).1.trans hfound⟩

end LanguageHost
