import LanguageHost.Proofs.Json.ReadBack

/-! What is read from a text whose numbers are integers: a value that its own text is read back as. -/
namespace LanguageHost.Json

section Members
variable {α : Type} {key : String} {value : α} {m : String × α} {members : List (String × α)}

theorem mem_of_mem_insertMember (h : m ∈ insertMember key value members) : m = (key, value) ∨ m ∈ members := by
  induction members with
  | nil => exact .inl (List.mem_singleton.1 h)
  | cons n members ih =>
    rw [insertMember] at h
    split_ifs at h
    · simpa using h
    · rcases List.mem_cons.1 h with h | h
      · exact .inl h
      · exact .inr (.tail _ h)
    · rcases List.mem_cons.1 h with h | h
      · exact .inr (h ▸ .head _)
      · exact (ih h).imp_right (.tail _)

theorem insertMember_pairwise (h : (members.map Prod.fst).Pairwise (· < ·)) :
    ((insertMember key value members).map Prod.fst).Pairwise (· < ·) := by
  induction members with
  | nil => exact List.pairwise_singleton _ _
  | cons n members ih =>
    rw [List.map_cons, List.pairwise_cons] at h
    rw [insertMember]
    split_ifs with hlt heq
    · rw [List.map_cons, List.map_cons, List.pairwise_cons, List.pairwise_cons]
      refine ⟨?_, h⟩
      rintro k (_ | ⟨_, hk⟩)
      · exact hlt
      · exact String.lt_trans hlt (h.1 k hk)
    · rw [List.map_cons, List.pairwise_cons]
      exact ⟨heq ▸ h.1, h.2⟩
    · rw [List.map_cons, List.pairwise_cons]
      refine ⟨?_, ih h.2⟩
      intro k hk
      obtain ⟨m, hm, rfl⟩ := List.mem_map.1 hk
      rcases mem_of_mem_insertMember hm with rfl | hm
      · exact lt_of_le_of_ne (not_lt.1 hlt) (Ne.symm heq)
      · exact h.1 _ (List.mem_map_of_mem hm)

theorem sortMembers_sorted (members : List (String × α)) :
    ((sortMembers members).map Prod.fst).Pairwise (· < ·) ∧ ∀ m ∈ sortMembers members, m ∈ members := by
  have hfold (rest sorted : List (String × α)) (hp : (sorted.map Prod.fst).Pairwise (· < ·))
      (hm : ∀ m ∈ sorted, m ∈ members) (hr : ∀ m ∈ rest, m ∈ members) :
      ((rest.foldl (fun sorted m => insertMember m.1 m.2 sorted) sorted).map Prod.fst).Pairwise (· < ·) ∧
        ∀ m ∈ rest.foldl (fun sorted m => insertMember m.1 m.2 sorted) sorted, m ∈ members := by
    induction rest generalizing sorted with
    | nil => exact ⟨hp, hm⟩
    | cons n rest ih =>
      refine ih _ (insertMember_pairwise hp) ?_ fun m hmem => hr m (.tail _ hmem)
      intro m hmem
      rcases mem_of_mem_insertMember hmem with rfl | hmem
      · exact hr _ (.head _)
      · exact hm m hmem
  exact hfold members [] List.Pairwise.nil (fun _ hmem => nomatch hmem) fun _ hmem => hmem

end Members

section Bounds

theorem membersWhole_iff {members : List (String × Json)} : MembersWhole members ↔ ∀ m ∈ members, m.2.Whole := by
  induction members with
  | nil => simp [MembersWhole]
  | cons m members ih => rw [MembersWhole, ih, List.forall_mem_cons]

theorem membersNesting_le {members : List (String × Json)} {depth : Nat} :
    membersNesting members ≤ depth ↔ ∀ m ∈ members, m.2.nesting ≤ depth := by
  induction members with
  | nil => simp [membersNesting]
  | cons m members ih => rw [membersNesting, Nat.max_le, ih, List.forall_mem_cons]

end Bounds

/-- A literal of an integer of 64 bits, with a sign or without. -/
def Numeral.Whole (n : Numeral) : Prop :=
  n.fraction = [] ∧ n.exponent = none ∧
    Text.natOfDigits n.whole ≤ if n.negative then 0x8000000000000000 else 0xFFFFFFFFFFFFFFFF

theorem Numeral.Whole.value? {n : Numeral} (h : n.Whole) :
    ∃ v : Json, n.value? = some v ∧ v.Whole ∧ v.nesting = 0 ∧ v ≠ .null := by
  obtain ⟨hfraction, hexponent, hrange⟩ := h
  have hlimit : Text.natOfDigits n.whole ≤ significandLimit := by
    rw [significandLimit]
    split at hrange <;> omega
  have hvalue : n.value? = some (integer n.negative (Text.natOfDigits n.whole)) := by
    have hgather : gather 0 n.whole = (Text.natOfDigits n.whole, []) := gather_of_le hlimit
    simp [Numeral.value?, hgather, hfraction, hexponent]
  refine ⟨_, hvalue, ?_⟩
  rw [integer]
  split_ifs with hsign hsmall
  · rw [if_neg (by simpa using hsign)] at hrange
    exact ⟨⟨by omega, by omega⟩, rfl, Json.noConfusion⟩
  · exact ⟨⟨by omega, by omega⟩, rfl, Json.noConfusion⟩
  · rw [if_pos (by simpa using hsign)] at hrange
    have hzero : Text.natOfDigits n.whole = 0 := by omega
    have hminus : (minusZero == minusZero) = true := rfl
    rw [hzero]
    show (ofFloat minusZero).Whole ∧ _
    rw [show -Float.ofNat 0 = minusZero from rfl, ofFloat_minusZero hminus]
    exact ⟨rfl, rfl, Json.noConfusion⟩

namespace Text

mutual

/-- Every number in a text is written as an integer of 64 bits, with a sign or without. -/
def Whole : Text → Prop
  | .null | .bool _ | .string _ => True
  | .number n => n.Whole
  | .array items => ItemsWhole items
  | .object members => MembersWhole members

def ItemsWhole : List Text → Prop
  | [] => True
  | t :: rest => Whole t ∧ ItemsWhole rest

def MembersWhole : List (Option String × Text) → Prop
  | [] => True
  | (_, t) :: rest => Whole t ∧ MembersWhole rest

end

theorem ofMembers_whole {members : List (String × Json)} {depth : Nat} (h : Json.MembersWhole members)
    (hdepth : membersNesting members ≤ depth) :
    (ofMembers members).Whole ∧ (ofMembers members).nesting ≤ depth + 1 := by
  obtain ⟨hsorted, hmem⟩ := sortMembers_sorted members
  rw [membersWhole_iff] at h
  rw [membersNesting_le] at hdepth
  refine ⟨⟨hsorted, membersWhole_iff.2 fun m hm => h m (hmem m hm)⟩, ?_⟩
  rw [ofMembers, nesting]
  exact Nat.succ_le_succ (membersNesting_le.2 fun m hm => hdepth m (hmem m hm))

mutual

theorem toValue?_whole : ∀ {t : Text}, t.Whole → ∀ {depth : Nat} {v : Json}, t.toValue? depth = some v →
    v.Whole ∧ v.nesting ≤ depth
  | .null, _, _, v, h | .bool _, _, _, v, h => by
    simp only [toValue?, Option.some.injEq] at h
    subst h
    exact ⟨trivial, Nat.zero_le _⟩
  | .number n, hwhole, depth, v, h => by
    obtain ⟨w, hw, hv, hflat, -⟩ := Numeral.Whole.value? hwhole
    rw [toValue?, hw] at h
    obtain rfl := Option.some.inj h
    exact ⟨hv, hflat ▸ Nat.zero_le _⟩
  | .string s, _, _, v, h => by
    rw [toValue?, Option.map_eq_some_iff] at h
    obtain ⟨_, -, rfl⟩ := h
    exact ⟨trivial, Nat.zero_le _⟩
  | .array _, _, 0, _, h | .object _, _, 0, _, h => by simp [toValue?] at h
  | .array items, hwhole, depth + 1, v, h => by
    rw [toValue?, Option.map_eq_some_iff] at h
    obtain ⟨vs, hvs, rfl⟩ := h
    obtain ⟨hwholes, hdepth⟩ := toItems?_whole hwhole hvs
    exact ⟨hwholes, Nat.succ_le_succ hdepth⟩
  | .object members, hwhole, depth + 1, v, h => by
    rw [toValue?, Option.map_eq_some_iff] at h
    obtain ⟨ms, hms, rfl⟩ := h
    obtain ⟨hwholes, hdepth⟩ := toMembers?_whole hwhole hms
    exact ofMembers_whole hwholes hdepth

theorem toItems?_whole : ∀ {items : List Text}, ItemsWhole items → ∀ {depth : Nat} {vs : List Json},
    toItems? depth items = some vs → Json.ItemsWhole vs ∧ itemsNesting vs ≤ depth
  | [], _, depth, vs, h => by
    simp only [toItems?, Option.some.injEq] at h
    subst h
    exact ⟨trivial, Nat.zero_le _⟩
  | t :: rest, hwhole, depth, vs, h => by
    simp only [toItems?, Option.bind_eq_bind, Option.bind_eq_some_iff, Option.pure_def, Option.some.injEq] at h
    obtain ⟨v, hv, vs, hvs, rfl⟩ := h
    obtain ⟨hfirst, hdeep⟩ := toValue?_whole hwhole.1 hv
    obtain ⟨hothers, hdepth⟩ := toItems?_whole hwhole.2 hvs
    exact ⟨⟨hfirst, hothers⟩, Nat.max_le.2 ⟨hdeep, hdepth⟩⟩

theorem toMembers?_whole : ∀ {members : List (Option String × Text)}, MembersWhole members →
    ∀ {depth : Nat} {ms : List (String × Json)}, toMembers? depth members = some ms →
    Json.MembersWhole ms ∧ membersNesting ms ≤ depth
  | [], _, depth, ms, h => by
    simp only [toMembers?, Option.some.injEq] at h
    subst h
    exact ⟨trivial, Nat.zero_le _⟩
  | (k, t) :: rest, hwhole, depth, ms, h => by
    simp only [toMembers?, Option.bind_eq_bind, Option.bind_eq_some_iff, Option.pure_def, Option.some.injEq] at h
    obtain ⟨key, -, v, hv, ms, hms, rfl⟩ := h
    obtain ⟨hfirst, hdeep⟩ := toValue?_whole hwhole.1 hv
    obtain ⟨hothers, hdepth⟩ := toMembers?_whole hwhole.2 hms
    exact ⟨⟨hfirst, hothers⟩, Nat.max_le.2 ⟨hdeep, hdepth⟩⟩

end

theorem eq_null_of_toValue? {t : Text} (hwhole : t.Whole) {depth : Nat} (h : t.toValue? depth = some .null) :
    t = .null := by
  cases t with
  | null => rfl
  | number n =>
    obtain ⟨w, hw, -, -, hnull⟩ := Numeral.Whole.value? hwhole
    rw [toValue?, hw] at h
    exact absurd (Option.some.inj h) hnull
  | bool | string => simp [toValue?] at h
  | array | object => cases depth <;> simp [toValue?, ofMembers] at h

end Text

mutual

/-- Whole values that are equal are the same. -/
theorem eq_of_same : ∀ {v w : Json}, same v w → v.Whole → w.Whole → v = w
  | .null, .null, _, _, _ => rfl
  | .bool _, .bool _, h, _, _ | .int _, .int _, h, _, _ | .string _, .string _, h, _, _ => by
    simp only [same, beq_iff_eq] at h
    rw [h]
  | .float x hx, .float y hy, _, hv, hw => by
    have hxzero : x = minusZero := hv
    have hyzero : y = minusZero := hw
    subst hxzero hyzero
    rfl
  | .array _, .array _, h, hv, hw => congrArg Json.array (eq_of_sameItems h hv hw)
  | .object _, .object _, h, hv, hw => congrArg Json.object (eq_of_sameMembers h hv.2 hw.2)

theorem eq_of_sameItems : ∀ {vs ws : List Json}, sameItems vs ws → ItemsWhole vs → ItemsWhole ws → vs = ws
  | [], [], _, _, _ => rfl
  | v :: vs, w :: ws, h, hv, hw => by
    rw [sameItems, Bool.and_eq_true] at h
    rw [eq_of_same h.1 hv.1 hw.1, eq_of_sameItems h.2 hv.2 hw.2]

theorem eq_of_sameMembers : ∀ {vs ws : List (String × Json)}, sameMembers vs ws → MembersWhole vs →
    MembersWhole ws → vs = ws
  | [], [], _, _, _ => rfl
  | (k, v) :: vs, (l, w) :: ws, h, hv, hw => by
    rw [sameMembers, Bool.and_eq_true, Bool.and_eq_true, beq_iff_eq] at h
    rw [h.1.1, eq_of_same h.1.2 hv.1 hw.1, eq_of_sameMembers h.2 hv.2 hw.2]

end

end LanguageHost.Json
