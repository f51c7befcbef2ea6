import LanguageHost.Language.Definition
import Mathlib

/-! Equality of server keys is an equivalence, whatever the options of their recipes hold. -/
namespace LanguageHost

section Floats
open Float.Model

/-- What is left of a float when the sign of zero is forgotten. -/
private inductive Magnitude where
  | zero
  | infinite (sign : UnpackedFloat.Sign)
  | finite (sign : UnpackedFloat.Sign) (mantissa : Nat) (exponent : Int)

private def magnitude? : UnpackedFloat → Option Magnitude
  | .notANumber => none
  | .zero _ => some .zero
  | .infinity s => some (.infinite s)
  | .finite s m e _ => some (.finite s m e)

private theorem unpacked_beq_iff (a b : UnpackedFloat) :
    a.beq b = true ↔ ∃ m, magnitude? a = some m ∧ magnitude? b = some m := by
  unfold UnpackedFloat.beq
  rcases a with (_ | _) | _ | (_ | _) | ⟨_ | _, _, _, _⟩ <;>
    rcases b with (_ | _) | _ | (_ | _) | ⟨_ | _, _, _, _⟩ <;>
    simp [UnpackedFloat.compare, magnitude?]
  · rfl
  · rfl
  all_goals
    constructor
    · rintro ⟨he, hm⟩
      exact ⟨hm.symm, he.symm⟩
    · rintro ⟨hm, he⟩
      exact ⟨he.symm, hm.symm⟩

private theorem float_beq_symm {a b : Float} (h : a == b) : b == a := by
  obtain ⟨m, ha, hb⟩ := (unpacked_beq_iff a.toModel.unpack b.toModel.unpack).1 h
  exact (unpacked_beq_iff b.toModel.unpack a.toModel.unpack).2 ⟨m, hb, ha⟩

private theorem float_beq_trans {a b c : Float} (h : a == b) (k : b == c) : a == c := by
  obtain ⟨m, ha, hb⟩ := (unpacked_beq_iff a.toModel.unpack b.toModel.unpack).1 h
  obtain ⟨n, hb', hc⟩ := (unpacked_beq_iff b.toModel.unpack c.toModel.unpack).1 k
  obtain rfl : m = n := Option.some.inj (hb.symm.trans hb')
  exact (unpacked_beq_iff a.toModel.unpack c.toModel.unpack).2 ⟨m, ha, hc⟩

end Floats

namespace Json

mutual

private theorem same_refl : ∀ a : Json, same a a
  | .null => rfl
  | .bool _ | .int _ | .string _ => by simp [same]
  | .float _ h => h
  | .array items => sameItems_refl items
  | .object members => sameMembers_refl members

private theorem sameItems_refl : ∀ as : List Json, sameItems as as
  | [] => rfl
  | a :: as => by simp [sameItems, same_refl a, sameItems_refl as]

private theorem sameMembers_refl : ∀ as : List (String × Json), sameMembers as as
  | [] => rfl
  | (k, a) :: as => by simp [sameMembers, same_refl a, sameMembers_refl as]

end

mutual

private theorem same_symm : ∀ {a b : Json}, same a b → same b a
  | .null, .null, h => h
  | .bool _, .bool _, h | .int _, .int _, h | .string _, .string _, h => by
    simp only [same, beq_iff_eq] at h ⊢
    exact h.symm
  | .float _ _, .float _ _, h => float_beq_symm h
  | .array _, .array _, h => sameItems_symm h
  | .object _, .object _, h => sameMembers_symm h

private theorem sameItems_symm : ∀ {as bs : List Json}, sameItems as bs → sameItems bs as
  | [], [], h => h
  | a :: as, b :: bs, h => by
    simp only [sameItems, Bool.and_eq_true] at h ⊢
    exact ⟨same_symm h.1, sameItems_symm h.2⟩

private theorem sameMembers_symm : ∀ {as bs : List (String × Json)}, sameMembers as bs → sameMembers bs as
  | [], [], h => h
  | (k, a) :: as, (l, b) :: bs, h => by
    simp only [sameMembers, Bool.and_eq_true, beq_iff_eq] at h ⊢
    exact ⟨⟨h.1.1.symm, same_symm h.1.2⟩, sameMembers_symm h.2⟩

end

mutual

private theorem same_trans : ∀ {a b c : Json}, same a b → same b c → same a c
  | .null, .null, .null, _, _ => rfl
  | .bool _, .bool _, .bool _, h, k | .int _, .int _, .int _, h, k | .string _, .string _, .string _, h, k => by
    simp only [same, beq_iff_eq] at h k ⊢
    exact h.trans k
  | .float _ _, .float _ _, .float _ _, h, k => float_beq_trans h k
  | .array _, .array _, .array _, h, k => sameItems_trans h k
  | .object _, .object _, .object _, h, k => sameMembers_trans h k

private theorem sameItems_trans : ∀ {as bs cs : List Json}, sameItems as bs → sameItems bs cs → sameItems as cs
  | [], [], [], _, _ => rfl
  | a :: as, b :: bs, c :: cs, h, k => by
    simp only [sameItems, Bool.and_eq_true] at h k ⊢
    exact ⟨same_trans h.1 k.1, sameItems_trans h.2 k.2⟩

private theorem sameMembers_trans : ∀ {as bs cs : List (String × Json)},
    sameMembers as bs → sameMembers bs cs → sameMembers as cs
  | [], [], [], _, _ => rfl
  | (k, a) :: as, (l, b) :: bs, (m, c) :: cs, h, g => by
    simp only [sameMembers, Bool.and_eq_true, beq_iff_eq] at h g ⊢
    exact ⟨⟨h.1.1.trans g.1.1, same_trans h.1.2 g.1.2⟩, sameMembers_trans h.2 g.2⟩

end

instance : EquivBEq Json where
  rfl := same_refl _
  symm := same_symm
  trans := same_trans

end Json

theorem Path.beq_iff (p q : Path) : (p == q) = true ↔ p.components = q.components := by
  show (p.components == q.components) = true ↔ _
  exact beq_iff_eq

instance : EquivBEq Path where
  rfl := (Path.beq_iff _ _).2 rfl
  symm h := (Path.beq_iff _ _).2 ((Path.beq_iff _ _).1 h).symm
  trans h k := (Path.beq_iff _ _).2 (((Path.beq_iff _ _).1 h).trans ((Path.beq_iff _ _).1 k))

instance : EquivBEq Project where
  rfl {p} := BEq.refl p.path
  symm h := @BEq.symm Path _ _ _ _ h
  trans h k := @BEq.trans Path _ _ _ _ _ h k

private theorem workingDir_symm : ∀ {a b : WorkingDir}, a == b → b == a
  | .project, .project, _ | .fileDir, .fileDir, _ => rfl
  | .fixed _, .fixed _, h => @BEq.symm Path _ _ _ _ h

private theorem workingDir_trans : ∀ {a b c : WorkingDir}, a == b → b == c → a == c
  | .project, .project, .project, _, _ | .fileDir, .fileDir, .fileDir, _, _ => rfl
  | .fixed _, .fixed _, .fixed _, h, k => @BEq.trans Path _ _ _ _ _ h k

instance : EquivBEq WorkingDir where
  rfl {a} := by
    cases a with
    | project | fileDir => rfl
    | fixed p => exact BEq.refl p
  symm := workingDir_symm
  trans := workingDir_trans

private theorem options_symm : ∀ {a b : Option Json}, a == b → b == a
  | none, none, _ => rfl
  | some _, some _, h => @BEq.symm Json _ _ _ _ h

private theorem options_trans : ∀ {a b c : Option Json}, a == b → b == c → a == c
  | none, none, none, _, _ => rfl
  | some _, some _, some _, h, k => @BEq.trans Json _ _ _ _ _ h k

theorem Recipe.beq_iff (a b : Recipe) :
    (a == b) = true ↔ a.command = b.command ∧ a.args = b.args ∧ a.env = b.env ∧
      (a.workingDir == b.workingDir) = true ∧ (a.options == b.options) = true := by
  obtain ⟨_, _, _, _, _⟩ := a
  obtain ⟨_, _, _, _, _⟩ := b
  show instBEqRecipe.beq _ _ = true ↔ _
  simp only [instBEqRecipe.beq, Bool.and_eq_true, beq_iff_eq]

theorem Language.beq_iff (a b : Language) :
    (a == b) = true ↔ a.extensions.Perm b.extensions ∧ (a.recipe == b.recipe) = true := by
  show (a.extensions.length == b.extensions.length && a.extensions.all b.extensions.contains
    && a.recipe == b.recipe) = true ↔ _
  simp only [Bool.and_eq_true, beq_iff_eq, List.all_eq_true, List.contains_iff_mem, and_congr_left_iff]
  intro _
  constructor
  · rintro ⟨hl, hs⟩
    exact (List.subperm_of_subset a.distinct hs).perm_of_length_le (Nat.le_of_eq hl.symm)
  · intro h
    exact ⟨h.length_eq, fun x hx => h.subset hx⟩

instance : EquivBEq Recipe where
  rfl {a} := (Recipe.beq_iff a a).2 ⟨rfl, rfl, rfl, BEq.refl _, BEq.refl _⟩
  symm {a b} h := by
    obtain ⟨hc, ha, he, hw, ho⟩ := (Recipe.beq_iff a b).1 h
    exact (Recipe.beq_iff b a).2 ⟨hc.symm, ha.symm, he.symm, BEq.symm hw, options_symm ho⟩
  trans {a b c} h k := by
    obtain ⟨hc, ha, he, hw, ho⟩ := (Recipe.beq_iff a b).1 h
    obtain ⟨kc, ka, ke, kw, ko⟩ := (Recipe.beq_iff b c).1 k
    exact (Recipe.beq_iff a c).2
      ⟨hc.trans kc, ha.trans ka, he.trans ke, BEq.trans hw kw, options_trans ho ko⟩

instance : EquivBEq Language where
  rfl {a} := (Language.beq_iff a a).2 ⟨.refl _, BEq.refl _⟩
  symm {a b} h := by
    obtain ⟨hp, hr⟩ := (Language.beq_iff a b).1 h
    exact (Language.beq_iff b a).2 ⟨hp.symm, BEq.symm hr⟩
  trans {a b c} h k := by
    obtain ⟨hp, hr⟩ := (Language.beq_iff a b).1 h
    obtain ⟨kp, kr⟩ := (Language.beq_iff b c).1 k
    exact (Language.beq_iff a c).2 ⟨hp.trans kp, BEq.trans hr kr⟩

theorem ServerKey.beq_iff (a b : ServerKey) :
    (a == b) = true ↔ (a.language == b.language) = true ∧ (a.project == b.project) = true := by
  obtain ⟨_, _⟩ := a
  obtain ⟨_, _⟩ := b
  show instBEqServerKey.beq _ _ = true ↔ _
  simp only [instBEqServerKey.beq, Bool.and_eq_true]

/-- Keys that are equal fall together into classes, so each class can have one slot. -/
instance : EquivBEq ServerKey where
  rfl {a} := (ServerKey.beq_iff a a).2 ⟨BEq.refl _, BEq.refl _⟩
  symm {a b} h := by
    obtain ⟨hl, hp⟩ := (ServerKey.beq_iff a b).1 h
    exact (ServerKey.beq_iff b a).2 ⟨BEq.symm hl, BEq.symm hp⟩
  trans {a b c} h k := by
    obtain ⟨hl, hp⟩ := (ServerKey.beq_iff a b).1 h
    obtain ⟨kl, kp⟩ := (ServerKey.beq_iff b c).1 k
    exact (ServerKey.beq_iff a c).2 ⟨BEq.trans hl kl, BEq.trans hp kp⟩

end LanguageHost
