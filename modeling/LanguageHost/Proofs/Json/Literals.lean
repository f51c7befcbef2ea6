import LanguageHost.Json.Read
import LanguageHost.Json.Write
import Mathlib

/-! Integers, minus zero and strings read back from their compact text. -/
namespace LanguageHost.Json

section Numbers

/-- What may follow a value in compact text. -/
def Ends : List Char → Prop
  | [] => True
  | c :: _ => c = ',' ∨ c = ']' ∨ c = '\x7d'

namespace Ends
variable {s : List Char} (h : Ends s)
include h

theorem takeDigits : s.takeWhile Char.isDigit = [] := by
  cases s with
  | nil => rfl
  | cons c s => obtain rfl | rfl | rfl := h <;> rfl

theorem dropDigits : s.dropWhile Char.isDigit = s := by
  cases s with
  | nil => rfl
  | cons c s => obtain rfl | rfl | rfl := h <;> rfl

theorem fractionPart? : Text.fractionPart? s = some ([], s) := by
  cases s with
  | nil => rfl
  | cons c s => obtain rfl | rfl | rfl := h <;> rfl

theorem exponentPart? : Text.exponentPart? s = some (none, s) := by
  cases s with
  | nil => rfl
  | cons c s => obtain rfl | rfl | rfl := h <;> rfl

end Ends

/-- The decimal digits of a number, the highest first. -/
def digitsOf (n : Nat) : List Nat := (natDigits n).map fun c => c.toNat - 48

def literal (n : Int) : Numeral := ⟨decide (n < 0), digitsOf n.natAbs, [], none⟩

theorem natDigits_isDigit {n : Nat} {c : Char} (h : c ∈ natDigits n) : c.isDigit = true :=
  Nat.isDigit_of_mem_toDigits (by decide) (by decide) h

theorem natDigits_cons (n : Nat) : ∃ c s, natDigits n = c :: s ∧ c.isDigit = true := by
  obtain ⟨c, s, hs⟩ := List.exists_cons_of_ne_nil (Nat.toDigits_ne_nil (n := n) (b := 10))
  exact ⟨c, s, hs, natDigits_isDigit (hs ▸ List.mem_cons_self)⟩

theorem foldl_natDigits (n : Nat) : (natDigits n).foldl (fun n c => n * 10 + (c.toNat - 48)) 0 = n := by
  have h : (natDigits n).foldl (fun n c => n * 10 + (c.toNat - 48)) 0 = Nat.ofDigitChars 10 (natDigits n) 0 := by
    simp only [Nat.ofDigitChars_eq_foldl, Nat.mul_comm 10]
    rfl
  rw [h]
  exact Nat.ofDigitChars_ten_toDigits

theorem foldl_digitsOf (n : Nat) : (digitsOf n).foldl (fun n d => n * 10 + d) 0 = n := by
  rw [digitsOf, List.foldl_map]
  exact foldl_natDigits n

theorem head?_digitsOf {n : Nat} (h : 0 < n) : (digitsOf n).head? ≠ some 0 := by
  induction n using Nat.strongRecOn with
  | ind n ih =>
    by_cases hn : n < 10
    · rw [digitsOf, natDigits, Nat.toDigits_of_lt_base hn]
      interval_cases n <;> decide
    · have hne : (Nat.toDigits 10 (n / 10)).map (fun c => c.toNat - 48) ≠ [] := by simp [Nat.toDigits_ne_nil]
      rw [digitsOf, natDigits, Nat.toDigits_of_base_le (by decide) (by omega), List.map_append,
        List.head?_append_of_ne_nil _ hne]
      exact ih (n / 10) (by omega) (by omega)

theorem digits?_natDigits (n : Nat) {rest : List Char} (h : Ends rest) :
    Text.digits? (natDigits n ++ rest) = some (digitsOf n, rest) := by
  have hall : ∀ c ∈ natDigits n, c.isDigit = true := fun _ => natDigits_isDigit
  have hvalues : Text.digitValues (natDigits n ++ rest) = digitsOf n := by
    rw [Text.digitValues, List.takeWhile_append_of_pos hall, h.takeDigits, List.append_nil, digitsOf]
  rw [Text.digits?, hvalues, List.dropWhile_append_of_pos hall, h.dropDigits]
  obtain ⟨c, s, hs, _⟩ := natDigits_cons n
  rw [digitsOf, hs, List.map_cons]

theorem wholePart?_natDigits (n : Nat) {rest : List Char} (h : Ends rest) :
    Text.wholePart? (natDigits n ++ rest) = some (digitsOf n, rest) := by
  have hlead : ¬(1 < (digitsOf n).length ∧ (digitsOf n).head? = some 0) := by
    rintro ⟨hlength, hzero⟩
    rcases Nat.eq_zero_or_pos n with rfl | hn
    · simp [digitsOf, natDigits, Nat.toDigits_zero] at hlength
    · exact head?_digitsOf hn hzero
  rw [Text.wholePart?, digits?_natDigits n h, Option.bind_eq_bind, Option.bind_some]
  exact if_neg hlead

def Opens (c : Char) : Prop := c.isDigit = true ∨ c = '-'

instance (c : Char) : Decidable (Opens c) := inferInstanceAs (Decidable (_ ∨ _))

theorem intDigits_cons (n : Int) : ∃ c s, intDigits n = c :: s ∧ Opens c := by
  unfold intDigits
  split
  · exact ⟨'-', _, rfl, .inr rfl⟩
  · obtain ⟨c, s, hs, hc⟩ := natDigits_cons n.natAbs
    exact ⟨c, s, hs, .inl hc⟩

theorem numeral?_intDigits (n : Int) {rest : List Char} (h : Ends rest) :
    Text.numeral? (intDigits n ++ rest) = some (literal n, rest) := by
  have hwhole := wholePart?_natDigits n.natAbs h
  unfold Text.numeral?
  split
  rename_i negative s heq
  obtain ⟨rfl, rfl⟩ : negative = decide (n < 0) ∧ s = natDigits n.natAbs ++ rest := by
    unfold intDigits at heq
    split_ifs at heq with hn
    · simp [hn, ← Prod.mk.injEq, ← heq]
    · obtain ⟨c, t, ht, hc⟩ := natDigits_cons n.natAbs
      rw [ht] at heq ⊢
      split at heq <;> simp_all
  simp [hwhole, h.fractionPart?, h.exponentPart?, literal]

theorem le_foldl_digits (n : Nat) (ds : List Nat) : n ≤ ds.foldl (fun n d => n * 10 + d) n := by
  induction ds generalizing n with
  | nil => exact Nat.le_refl n
  | cons d ds ih => exact Nat.le_trans (by omega) (ih (n * 10 + d))

theorem gather_of_le {n : Nat} {ds : List Nat} (h : ds.foldl (fun n d => n * 10 + d) n ≤ Numeral.significandLimit) :
    Numeral.gather n ds = (ds.foldl (fun n d => n * 10 + d) n, []) := by
  induction ds generalizing n with
  | nil => rfl
  | cons d ds ih =>
    rw [Numeral.gather, if_pos (Nat.le_trans (le_foldl_digits _ ds) h)]
    exact ih h

/-- An integer of 64 bits, with a sign or without, is what its literal stands for. -/
theorem value?_literal {n : Int} (h : -0x8000000000000000 ≤ n ∧ n ≤ 0xFFFFFFFFFFFFFFFF) :
    (literal n).value? = some (.int n) := by
  have hgather : Numeral.gather 0 (digitsOf n.natAbs) = (n.natAbs, []) := by
    rw [gather_of_le (by rw [foldl_digitsOf, Numeral.significandLimit]; omega), foldl_digitsOf]
  have hint : Numeral.integer (decide (n < 0)) n.natAbs = .int n := by
    unfold Numeral.integer
    by_cases hn : n < 0
    · rw [decide_eq_true hn, if_neg (by decide), if_pos (by omega)]
      congr 1
      omega
    · rw [decide_eq_false hn, if_pos (by decide)]
      congr 1
      omega
  simp [Numeral.value?, literal, hgather, hint]

/-- Minus zero is no integer among the values but a float. -/
def minusZero : Float := -Float.ofNat 0

def minusZeroLiteral : Numeral := ⟨true, [0], [0], none⟩

theorem ofFloat_minusZero (h : minusZero == minusZero) : ofFloat minusZero = .float minusZero h := dif_pos h

theorem value?_minusZeroLiteral : minusZeroLiteral.value? = some (ofFloat minusZero) := by
  have hshrink : Numeral.shrink (Float.ofNat 0) 1 = Float.ofNat 0 / Numeral.powerOfTen 1 := by
    rw [Numeral.shrink, if_pos (by decide)]
  have hscaled : Numeral.scaled true 0 (-1) = some minusZero := by
    show some (-(Numeral.shrink (Float.ofNat 0) 1)) = some minusZero
    rw [hshrink]
    rfl
  show (Numeral.scaled true 0 (-1)).map ofFloat = _
  rw [hscaled]
  rfl

theorem numeral?_minusZero {rest : List Char} (h : Ends rest) :
    Text.numeral? ('-' :: '0' :: '.' :: '0' :: rest) = some (minusZeroLiteral, rest) := by
  have hfraction : Text.digits? ('0' :: rest) = some ([0], rest) := by
    rw [Text.digits?, Text.digitValues, List.takeWhile_cons_of_pos (by decide), h.takeDigits,
      List.dropWhile_cons_of_pos (by decide), h.dropDigits]
    rfl
  have hwhole : Text.wholePart? ('0' :: '.' :: '0' :: rest) = some ([0], '.' :: '0' :: rest) := rfl
  simp [Text.numeral?, hwhole, Text.fractionPart?, hfraction, h.exponentPart?, minusZeroLiteral]

end Numbers

section Strings
open Text

theorem units_plain {c : Char} (hc : ¬(c.toNat < 32 ∨ c = '\\')) (hq : c ≠ '"') (s : List Char) :
    units (c :: s) = (units s).map fun r => (.plain c :: r.1, r.2) := by
  obtain ⟨_, hb⟩ := not_or.1 hc
  rw [units.eq_def]
  split
  · simp_all
  · simp_all
  · simp_all
  · simp_all
  · rename_i heq
    obtain ⟨rfl, rfl⟩ := List.cons.inj heq
    rw [if_neg hc]
    cases units s <;> rfl

theorem units_short {e c : Char} (he : e ≠ 'u') (h : shortEscape? e = some c) (s : List Char) :
    units ('\\' :: e :: s) = (units s).map fun r => (.plain c :: r.1, r.2) := by
  rw [units.eq_def]
  split
  · simp_all
  · simp_all
  · simp_all
  · rename_i heq
    obtain ⟨rfl, rfl⟩ := List.cons.inj (List.cons.inj heq).2
    rw [h]
    cases units s <;> rfl
  · rename_i hother heq
    obtain ⟨rfl, rfl⟩ := List.cons.inj heq
    exact absurd rfl (hother e s rfl)

theorem hexValue?_hexDigit : ∀ n < 16, hexValue? (hexDigit n) = some n := by decide

theorem units_code {n : Nat} (h : n < 256) (s : List Char) :
    units ('\\' :: 'u' :: '0' :: '0' :: hexDigit (n / 16) :: hexDigit (n % 16) :: s) =
      (units s).map fun r => (.code n :: r.1, r.2) := by
  have hzero : hexValue? '0' = some 0 := rfl
  have hsum : 0 * 4096 + 0 * 256 + n / 16 * 16 + n % 16 = n := by omega
  rw [units, hexValue?_hexDigit _ (by omega), hexValue?_hexDigit _ (by omega)]
  simp only [hzero, Option.bind_eq_bind, Option.bind_some, hsum]
  cases units s <;> rfl

theorem join?_code {n : Nat} (h : n < 0xD800) (us : List Unit16) :
    join? (.code n :: us) = (join? us).map (Char.ofNat n :: ·) := by
  have hlead : isLead n = false := by
    simp only [isLead, Bool.and_eq_false_iff, decide_eq_false_iff_not]
    omega
  have htrail : isTrail n = false := by
    simp only [isTrail, Bool.and_eq_false_iff, decide_eq_false_iff_not]
    omega
  cases us with
  | nil => simp [join?, hlead, htrail]
  | cons u us => cases u <;> simp [join?, hlead, htrail]

/-- Each character of a string is written so that one unit is read back for it. -/
theorem units_escape (c : Char) (s : List Char) :
    ∃ u, (∀ us, join? (u :: us) = (join? us).map (c :: ·)) ∧
      units (escape c ++ s) = (units s).map fun r => (u :: r.1, r.2) := by
  have hplain (us : List Unit16) : join? (.plain c :: us) = (join? us).map (c :: ·) := by rw [join?]
  have hshort {e : Char} (he : e ≠ 'u') (hc : shortEscape? e = some c) :
      ∃ u, (∀ us, join? (u :: us) = (join? us).map (c :: ·)) ∧
        units (['\\', e] ++ s) = (units s).map fun r => (u :: r.1, r.2) :=
    ⟨_, hplain, units_short he hc s⟩
  unfold escape
  split_ifs with hquote hslash hb ht hn hf hr hcontrol
  · exact hshort (by decide) (by rw [hquote]; rfl)
  · exact hshort (by decide) (by rw [hslash]; rfl)
  · exact hshort (by decide) (by rw [hb]; rfl)
  · exact hshort (by decide) (by rw [ht]; rfl)
  · exact hshort (by decide) (by rw [hn]; rfl)
  · exact hshort (by decide) (by rw [hf]; rfl)
  · exact hshort (by decide) (by rw [hr]; rfl)
  · refine ⟨.code c.toNat, fun us => ?_, units_code (by omega) s⟩
    rw [join?_code (by omega), Char.ofNat_toNat]
  · exact ⟨_, hplain, units_plain (not_or.2 ⟨hcontrol, hslash⟩) hquote s⟩

theorem units_quoted (s rest : List Char) :
    ∃ us, join? us = some s ∧ units (s.flatMap escape ++ '"' :: rest) = some (us, rest) := by
  induction s with
  | nil => exact ⟨[], rfl, by simp [units]⟩
  | cons c s ih =>
    obtain ⟨us, hjoin, hunits⟩ := ih
    obtain ⟨u, hu, he⟩ := units_escape c (s.flatMap escape ++ '"' :: rest)
    refine ⟨u :: us, by rw [hu, hjoin]; rfl, ?_⟩
    rw [List.flatMap_cons, List.append_assoc, he, hunits]
    rfl

theorem stringAfterQuote_quoted (s : String) (rest : List Char) :
    stringAfterQuote (s.toList.flatMap escape ++ '"' :: rest) = some (some s, rest) := by
  obtain ⟨us, hjoin, hunits⟩ := units_quoted s.toList rest
  rw [stringAfterQuote, hunits, Option.map_some]
  dsimp only
  rw [hjoin, Option.map_some, String.ofList_toList]

theorem quote_append (s : String) (rest : List Char) :
    quote s ++ rest = '"' :: (s.toList.flatMap escape ++ '"' :: rest) := by
  simp [quote]

end Strings

end LanguageHost.Json
