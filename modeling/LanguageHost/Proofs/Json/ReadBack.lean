import LanguageHost.Proofs.Json.Literals

/-! Reading undoes writing, for values whose numbers are whole. The text is first parsed to the tree that was spelled
out, and the tree is then read as the value. -/
namespace LanguageHost.Json

mutual

/-- Numbers are integers of 64 bits, with a sign or without, and the members of objects stand in the order of
their keys. -/
def isExact : Json → Bool
  | .null | .bool _ | .string _ => true
  | .int n => decide (-0x8000000000000000 ≤ n ∧ n ≤ 0xFFFFFFFFFFFFFFFF)
  | .float _ _ => false
  | .array items => itemsExact items
  | .object members => decide ((members.map Prod.fst).Pairwise (· < ·)) && membersExact members

def itemsExact : List Json → Bool
  | [] => true
  | v :: rest => isExact v && itemsExact rest

def membersExact : List (String × Json) → Bool
  | [] => true
  | (_, v) :: rest => isExact v && membersExact rest

end

mutual

/-- The values that are read back: an exact value, or one that has minus zero among its numbers besides. -/
def Whole : Json → Prop
  | .null | .bool _ | .string _ => True
  | .int n => -0x8000000000000000 ≤ n ∧ n ≤ 0xFFFFFFFFFFFFFFFF
  | .float x _ => x = minusZero
  | .array items => ItemsWhole items
  | .object members => (members.map Prod.fst).Pairwise (· < ·) ∧ MembersWhole members

def ItemsWhole : List Json → Prop
  | [] => True
  | v :: rest => Whole v ∧ ItemsWhole rest

def MembersWhole : List (String × Json) → Prop
  | [] => True
  | (_, v) :: rest => Whole v ∧ MembersWhole rest

end

mutual

theorem whole_of_exact : ∀ {v : Json}, v.isExact → v.Whole
  | .null, _ | .bool _, _ | .string _, _ => trivial
  | .int _, h => by
    rw [isExact, decide_eq_true_eq] at h
    exact h
  | .float _ _, h => by cases h
  | .array items, h => by
    rw [isExact] at h
    exact itemsWhole_of_exact h
  | .object members, h => by
    rw [isExact, Bool.and_eq_true, decide_eq_true_eq] at h
    exact ⟨h.1, membersWhole_of_exact h.2⟩

theorem itemsWhole_of_exact : ∀ {items : List Json}, itemsExact items → ItemsWhole items
  | [], _ => trivial
  | v :: rest, h => by
    rw [itemsExact, Bool.and_eq_true] at h
    exact ⟨whole_of_exact h.1, itemsWhole_of_exact h.2⟩

theorem membersWhole_of_exact : ∀ {members : List (String × Json)}, membersExact members → MembersWhole members
  | [], _ => trivial
  | (k, v) :: rest, h => by
    rw [membersExact, Bool.and_eq_true] at h
    exact ⟨whole_of_exact h.1, membersWhole_of_exact h.2⟩

end

mutual

/-- How deep arrays and objects nest in a value. -/
def nesting : Json → Nat
  | .null | .bool _ | .int _ | .float _ _ | .string _ => 0
  | .array items => itemsNesting items + 1
  | .object members => membersNesting members + 1

def itemsNesting : List Json → Nat
  | [] => 0
  | v :: rest => max (nesting v) (itemsNesting rest)

def membersNesting : List (String × Json) → Nat
  | [] => 0
  | (_, v) :: rest => max (nesting v) (membersNesting rest)

end

mutual

/-- The tree that the compact text of a value spells out when its only float is minus zero. -/
def spell : Json → Text
  | .null => .null
  | .float _ _ => .number minusZeroLiteral
  | .bool b => .bool b
  | .int n => .number (literal n)
  | .string s => .string (some s)
  | .array items => .array (spellItems items)
  | .object members => .object (spellMembers members)

def spellItems : List Json → List Text
  | [] => []
  | v :: rest => spell v :: spellItems rest

def spellMembers : List (String × Json) → List (Option String × Text)
  | [] => []
  | (k, v) :: rest => (some k, spell v) :: spellMembers rest

end

section Rules
open Text
variable {fuel : Nat} {s t u rest : List Char} {key : Option String} {item : Text}

theorem skipBlank_of_opens {c : Char} (hc : Opens c) (s : List Char) : skipBlank (c :: s) = c :: s := by
  have hblank : ¬isBlank c = true := by
    intro hb
    simp only [isBlank, Bool.or_eq_true, beq_iff_eq] at hb
    obtain ((rfl | rfl) | rfl) | rfl := hb <;> exact absurd hc (by decide)
  rw [skipBlank, List.dropWhile_cons_of_neg hblank]

theorem value?_number {c : Char} (hc : Opens c) (fuel : Nat) (s : List Char) :
    value? (fuel + 1) (c :: s) = (numeral? (c :: s)).map fun r => (.number r.1, r.2) := by
  have hother {d : Char} {t : List Char} (heq : c :: s = d :: t) (hd : ¬Opens d) : False := by
    obtain ⟨rfl, _⟩ := List.cons.inj heq
    exact hd hc
  rw [value?, skipBlank_of_opens hc]
  split
  next heq => exact (hother heq (by decide)).elim
  next heq => exact (hother heq (by decide)).elim
  next heq => exact (hother heq (by decide)).elim
  next heq => exact (hother heq (by decide)).elim
  next heq => exact (hother heq (by decide)).elim
  next heq => exact (hother heq (by decide)).elim
  next => rfl

theorem items?_last (h : value? fuel s = some (item, ']' :: rest)) :
    items? (fuel + 1) s = some ([item], rest) := by
  rw [items?, h]
  rfl

theorem items?_more {items : List Text} (h : value? fuel s = some (item, ',' :: t))
    (hmore : items? fuel t = some (items, rest)) :
    items? (fuel + 1) s = some (item :: items, rest) := by
  rw [items?, h]
  show (items? fuel t).bind _ = _
  rw [hmore]
  rfl

theorem value?_array {c : Char} {items : List Text} (hc : c ≠ ']') (hblank : skipBlank (c :: s) = c :: s)
    (h : items? fuel (c :: s) = some (items, rest)) :
    value? (fuel + 1) ('[' :: c :: s) = some (.array items, rest) := by
  have hopen : skipBlank ('[' :: c :: s) = '[' :: c :: s := rfl
  simp only [value?, hopen, hblank]
  split
  · rename_i heq
    exact absurd (List.cons.inj heq).1 hc
  · rw [h]
    rfl

theorem members?_last (hkey : stringAfterQuote s = some (key, ':' :: t))
    (h : value? fuel t = some (item, '\x7d' :: rest)) :
    members? (fuel + 1) ('"' :: s) = some ([(key, item)], rest) := by
  show (stringAfterQuote s).bind _ = _
  rw [hkey]
  show (value? fuel t).bind _ = _
  rw [h]
  rfl

theorem members?_more {members : List (Option String × Text)} (hkey : stringAfterQuote s = some (key, ':' :: t))
    (h : value? fuel t = some (item, ',' :: u)) (hmore : members? fuel u = some (members, rest)) :
    members? (fuel + 1) ('"' :: s) = some ((key, item) :: members, rest) := by
  show (stringAfterQuote s).bind _ = _
  rw [hkey]
  show (value? fuel t).bind _ = _
  rw [h]
  show (members? fuel u).bind _ = _
  rw [hmore]
  rfl

theorem value?_object {members : List (Option String × Text)} (h : members? fuel ('"' :: s) = some (members, rest)) :
    value? (fuel + 1) ('\x7b' :: '"' :: s) = some (.object members, rest) := by
  show (members? fuel ('"' :: s)).map _ = _
  rw [h]
  rfl

end Rules

section Parsing

theorem write_cons {v : Json} (h : v.Whole) :
    ∃ c s, v.write = c :: s ∧ c ≠ ']' ∧ ∀ t, Text.skipBlank (c :: t) = c :: t := by
  cases v with
  | null => exact ⟨'n', _, rfl, by decide, fun _ => rfl⟩
  | bool b =>
    cases b with
    | false => exact ⟨'f', _, rfl, by decide, fun _ => rfl⟩
    | true => exact ⟨'t', _, rfl, by decide, fun _ => rfl⟩
  | int n =>
    obtain ⟨c, s, hs, hc⟩ := intDigits_cons n
    refine ⟨c, s, hs, ?_, skipBlank_of_opens hc⟩
    rintro rfl
    exact absurd hc (by decide)
  | float x hx =>
    have hzero : x = minusZero := h
    subst hzero
    exact ⟨'-', _, rfl, by decide, skipBlank_of_opens (.inr rfl)⟩
  | string s => exact ⟨'"', _, rfl, by decide, fun _ => rfl⟩
  | array items => exact ⟨'[', _, rfl, by decide, fun _ => rfl⟩
  | object members => exact ⟨'\x7b', _, rfl, by decide, fun _ => rfl⟩

theorem writeItems_cons {v : Json} (h : v.Whole) (vs : List Json) :
    ∃ c s, writeItems (v :: vs) = c :: s ∧ c ≠ ']' ∧ ∀ t, Text.skipBlank (c :: t) = c :: t := by
  obtain ⟨c, s, hs, hc⟩ := write_cons h
  cases vs with
  | nil => exact ⟨c, _, by rw [writeItems, hs, List.cons_append], hc⟩
  | cons w vs => exact ⟨c, _, by rw [writeItems, hs, List.cons_append], hc⟩

theorem writeMembers_cons (k : String) (v : Json) (ms : List (String × Json)) :
    ∃ s, writeMembers ((k, v) :: ms) = '"' :: s := by
  cases ms with
  | nil => exact ⟨_, by rw [writeMembers, quote]; rfl⟩
  | cons m ms => exact ⟨_, by rw [writeMembers, quote]; rfl⟩

mutual

/-- Parsing stops at the end of the value, and two units of fuel for each character are enough. -/
theorem value?_write : ∀ (v : Json), v.Whole →
    ∀ (fuel : Nat) (rest : List Char), 2 * v.write.length ≤ fuel →
    Ends rest → Text.value? fuel (v.write ++ rest) = some (v.spell, rest)
  | v, h, 0, rest, hfuel, _ => by
    -- The text of a value is not empty, so that there is fuel.
    obtain ⟨c, s, hs, _⟩ := write_cons h
    simp [hs] at hfuel
  | .null, _, fuel + 1, rest, _, _ => rfl
  | .bool true, _, fuel + 1, rest, _, _ => rfl
  | .bool false, _, fuel + 1, rest, _, _ => rfl
  | .int n, _, fuel + 1, rest, _, hrest => by
    obtain ⟨c, s, hs, hc⟩ := intDigits_cons n
    have hn := numeral?_intDigits n hrest
    rw [hs, List.cons_append] at hn
    rw [write, hs, List.cons_append, value?_number hc, hn]
    rfl
  | .float x hx, h, fuel + 1, rest, _, hrest => by
    have hzero : x = minusZero := h
    subst hzero
    show Text.value? (fuel + 1) ('-' :: '0' :: '.' :: '0' :: rest) = _
    rw [value?_number (.inr rfl), numeral?_minusZero hrest]
    rfl
  | .string s, _, fuel + 1, rest, _, _ => by
    rw [write, quote_append]
    show (Text.stringAfterQuote (s.toList.flatMap escape ++ '"' :: rest)).map _ = _
    rw [stringAfterQuote_quoted]
    rfl
  | .array [], _, fuel + 1, rest, _, _ => rfl
  | .array (v :: vs), h, fuel + 1, rest, hfuel, _ => by
    have hv : v.Whole := h.1
    obtain ⟨c, s, hs, hc, hblank⟩ := writeItems_cons hv vs
    rw [write, List.length_cons] at hfuel
    have hitems := items?_write (v :: vs) (List.cons_ne_nil v vs) h fuel rest (by omega)
    rw [hs, List.cons_append] at hitems
    rw [write, hs]
    exact value?_array hc (hblank _) hitems
  | .object [], _, fuel + 1, rest, _, _ => rfl
  | .object ((k, v) :: ms), h, fuel + 1, rest, hfuel, _ => by
    have hms : MembersWhole ((k, v) :: ms) := h.2
    obtain ⟨s, hs⟩ := writeMembers_cons k v ms
    rw [write, List.length_cons] at hfuel
    have hmembers := members?_write ((k, v) :: ms) (List.cons_ne_nil _ ms) hms fuel rest (by omega)
    rw [hs, List.cons_append] at hmembers
    rw [write, hs]
    exact value?_object hmembers

theorem items?_write : ∀ (items : List Json), items ≠ [] → ItemsWhole items →
    ∀ (fuel : Nat) (rest : List Char),
    2 * (writeItems items).length ≤ fuel →
    Text.items? fuel (writeItems items ++ rest) = some (spellItems items, rest)
  | [], hne, _, _, _, _ => absurd rfl hne
  | v :: vs, _, _, 0, _, hfuel => by cases vs <;> simp [writeItems] at hfuel
  | [v], _, h, fuel + 1, rest, hfuel => by
    rw [writeItems, List.length_append, List.length_singleton] at hfuel
    have hv := value?_write v h.1 fuel (']' :: rest) (by omega) (.inr (.inl rfl))
    rw [writeItems, List.append_assoc]
    exact items?_last hv
  | v :: w :: vs, _, h, fuel + 1, rest, hfuel => by
    rw [writeItems, List.length_append, List.length_cons] at hfuel
    have hv := value?_write v h.1 fuel (',' :: (writeItems (w :: vs) ++ rest)) (by omega) (.inl rfl)
    have hvs := items?_write (w :: vs) (List.cons_ne_nil w vs) h.2 fuel rest (by omega)
    rw [writeItems, List.append_assoc]
    exact items?_more hv hvs

theorem members?_write : ∀ (members : List (String × Json)), members ≠ [] → MembersWhole members →
    ∀ (fuel : Nat) (rest : List Char), 2 * (writeMembers members).length ≤ fuel →
    Text.members? fuel (writeMembers members ++ rest) = some (spellMembers members, rest)
  | [], hne, _, _, _, _ => absurd rfl hne
  | (k, v) :: ms, _, _, 0, _, hfuel => by cases ms <;> simp [writeMembers] at hfuel
  | [(k, v)], _, h, fuel + 1, rest, hfuel => by
    simp only [writeMembers, List.length_append, List.length_cons, List.length_nil] at hfuel
    have hv := value?_write v h.1 fuel ('\x7d' :: rest) (by omega) (.inr (.inr rfl))
    rw [writeMembers, List.append_assoc, quote_append, List.cons_append, List.append_assoc]
    exact members?_last (stringAfterQuote_quoted k _) hv
  | (k, v) :: m :: ms, _, h, fuel + 1, rest, hfuel => by
    simp only [writeMembers, List.length_append, List.length_cons] at hfuel
    have hv := value?_write v h.1 fuel (',' :: (writeMembers (m :: ms) ++ rest)) (by omega) (.inl rfl)
    have hms := members?_write (m :: ms) (List.cons_ne_nil m ms) h.2 fuel rest (by omega)
    rw [writeMembers, List.append_assoc, quote_append, List.cons_append, List.append_assoc]
    exact members?_more (stringAfterQuote_quoted k _) hv hms

end

end Parsing

section Members
variable {α : Type}

theorem insertMember_of_lt {key : String} (value : α) {sorted : List (String × α)}
    (h : ∀ m ∈ sorted, m.1 < key) :
    insertMember key value sorted = sorted ++ [(key, value)] := by
  induction sorted with
  | nil => rfl
  | cons m sorted ih =>
    have hm : m.1 < key := h m List.mem_cons_self
    have hne : key ≠ m.1 := by
      intro he
      rw [he] at hm
      exact String.lt_irrefl _ hm
    rw [insertMember, if_neg (String.lt_asymm hm), if_neg hne, ih fun n hn => h n (List.mem_cons_of_mem m hn)]
    rfl

theorem sortMembers_of_pairwise {members : List (String × α)} (h : (members.map Prod.fst).Pairwise (· < ·)) :
    sortMembers members = members := by
  have hfold (sorted rest : List (String × α)) (h : ((sorted ++ rest).map Prod.fst).Pairwise (· < ·)) :
      rest.foldl (fun sorted m => insertMember m.1 m.2 sorted) sorted = sorted ++ rest := by
    induction rest generalizing sorted with
    | nil => simp
    | cons m rest ih =>
      have hlt : ∀ n ∈ sorted, n.1 < m.1 := by
        rw [List.map_append, List.pairwise_append] at h
        exact fun n hn => h.2.2 _ (List.mem_map_of_mem hn) _ (by simp)
      rw [List.foldl_cons, insertMember_of_lt m.2 hlt, ih _ (by simpa using h)]
      simp
  exact hfold [] members h

theorem lookup_cons_if (key k : String) (value : α) (members : List (String × α)) :
    ((k, value) :: members).lookup key = if key = k then some value else members.lookup key := by
  by_cases h : key = k
  · rw [h, List.lookup_cons_self, if_pos rfl]
  · rw [List.lookup_cons, beq_false_of_ne h, if_neg h]

theorem lookup_insertMember (key k : String) (value : α) (members : List (String × α)) :
    (insertMember k value members).lookup key = if key = k then some value else members.lookup key := by
  induction members with
  | nil => rw [insertMember, lookup_cons_if]
  | cons m members ih =>
    obtain ⟨l, w⟩ := m
    rw [insertMember, lookup_cons_if]
    split_ifs <;> simp_all [lookup_cons_if]

theorem member?_ofMembers (members : List (String × Json)) (key : String) :
    (ofMembers members).member? key = members.reverse.lookup key := by
  have hfold (sorted : List (String × Json)) :
      (members.foldl (fun sorted m => insertMember m.1 m.2 sorted) sorted).lookup key =
        (members.reverse.lookup key).or (sorted.lookup key) := by
    induction members generalizing sorted with
    | nil => rfl
    | cons m members ih =>
      obtain ⟨k, v⟩ := m
      rw [List.foldl_cons, ih, lookup_insertMember, List.reverse_cons, List.lookup_append,
        Option.or_assoc, lookup_cons_if]
      split_ifs <;> rfl
  exact (hfold []).trans (by simp)

end Members

section Values

mutual

theorem toValue?_spell : ∀ (v : Json), v.Whole →
    ∀ depth, v.nesting ≤ depth → Text.toValue? depth v.spell = some v
  | .null, _, _, _ | .bool _, _, _, _ => by simp [spell, Text.toValue?]
  | .string _, _, _, _ => by simp [spell, Text.toValue?]
  | .int n, h, _, _ => by rw [spell, Text.toValue?, value?_literal h]
  | .float x hx, h, _, _ => by
    have hzero : x = minusZero := h
    subst hzero
    rw [spell, Text.toValue?, value?_minusZeroLiteral, ofFloat_minusZero hx]
  | .array _, _, 0, hdepth | .object _, _, 0, hdepth => by simp [nesting] at hdepth
  | .array items, h, depth + 1, hdepth => by
    rw [nesting] at hdepth
    rw [spell, Text.toValue?, toItems?_spell items h depth (by omega)]
    rfl
  | .object members, h, depth + 1, hdepth => by
    rw [nesting] at hdepth
    rw [spell, Text.toValue?, toMembers?_spell members h.2 depth (by omega), Option.map_some, ofMembers,
      sortMembers_of_pairwise h.1]

theorem toItems?_spell : ∀ (items : List Json), ItemsWhole items → ∀ depth, itemsNesting items ≤ depth →
    Text.toItems? depth (spellItems items) = some items
  | [], _, _, _ => by simp [spellItems, Text.toItems?]
  | v :: vs, h, depth, hdepth => by
    rw [itemsNesting] at hdepth
    rw [spellItems, Text.toItems?, toValue?_spell v h.1 depth (by omega), toItems?_spell vs h.2 depth (by omega)]
    rfl

theorem toMembers?_spell : ∀ (members : List (String × Json)), MembersWhole members →
    ∀ depth, membersNesting members ≤ depth → Text.toMembers? depth (spellMembers members) = some members
  | [], _, _, _ => by simp [spellMembers, Text.toMembers?]
  | (k, v) :: ms, h, depth, hdepth => by
    rw [membersNesting] at hdepth
    rw [spellMembers, Text.toMembers?, toValue?_spell v h.1 depth (by omega), toMembers?_spell ms h.2 depth (by omega)]
    rfl

end

theorem parse?_write {v : Json} (h : v.Whole) : Text.parse? v.write = some v.spell := by
  have hvalue := value?_write v h (2 * v.write.length + 2) [] (by omega) trivial
  rw [List.append_nil] at hvalue
  rw [Text.parse?, hvalue]
  rfl

/-- The compact text of a value that does not nest too deep is read as the value. -/
theorem read?_write {v : Json} (h : v.Whole) (hdepth : v.nesting ≤ depthLimit) : read? v.write = some v := by
  rw [read?, parse?_write h]
  exact toValue?_spell v h depthLimit hdepth

end Values

end LanguageHost.Json
