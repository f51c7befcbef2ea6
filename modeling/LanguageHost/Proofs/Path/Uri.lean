import LanguageHost.Json.Text
import LanguageHost.Path.Uri
import LanguageHost.Proofs.Frame.Header
import LanguageHost.Proofs.Path.Components

/-! The path of a directory is read back from its URI. The URI is a standard one unless the path has one of
the characters that the encoding leaves standing and the grammar has no place for. -/
namespace LanguageHost

namespace Utf8

theorem utf8EncodeChar_ascii {c : Char} (h : c.toNat < 128) : String.utf8EncodeChar c = [c.toNat.toUInt8] := by
  simpa [encode] using encode_ascii (s := [c]) (by simpa using h)

theorem le_of_mem_utf8EncodeChar {c : Char} (h : 128 ≤ c.toNat) {b : UInt8} (hb : b ∈ String.utf8EncodeChar c) :
    128 ≤ b.toNat := by
  have hval : 128 ≤ c.val.toNat := h
  rw [String.utf8EncodeChar] at hb
  split_ifs at hb
  · omega
  all_goals
    simp only [List.mem_cons, List.not_mem_nil, or_false] at hb
    rcases hb with rfl | rfl | rfl | rfl <;> rw [UInt8.toNat_ofNat'] <;> omega

theorem toNat_ascii {c : Char} (h : c.toNat < 128) : c.toNat.toUInt8.toNat = c.toNat := by
  rw [UInt8.toNat_ofNat', Nat.mod_eq_of_lt (by omega)]

theorem mem_encode {s : List Char} {c : Char} (h : c.toNat < 128) : c.toNat.toUInt8 ∈ encode s ↔ c ∈ s := by
  constructor
  · intro hb
    obtain ⟨d, hd, hb⟩ := List.mem_flatMap.1 hb
    have hlow : d.toNat < 128 := by
      by_contra hhigh
      have := le_of_mem_utf8EncodeChar (by omega) hb
      rw [toNat_ascii h] at this
      omega
    rw [utf8EncodeChar_ascii hlow, List.mem_singleton] at hb
    have heq : c.toNat = d.toNat := by rw [← toNat_ascii h, hb, toNat_ascii hlow]
    rwa [← Char.ofNat_toNat c, heq, Char.ofNat_toNat]
  · intro hc
    exact List.mem_flatMap.2 ⟨c, hc, by rw [utf8EncodeChar_ascii h]; exact List.mem_singleton_self _⟩

end Utf8

namespace Uri

/-- The bytes a piece of a URI stands for: a percent sign and two hexadecimal digits are the byte they spell,
and any other character of ASCII is its own byte. -/
def bytes? : List Char → Option (List UInt8)
  | [] => some []
  | '%' :: a :: b :: rest => do
    let high ← Json.Text.hexValue? a
    let low ← Json.Text.hexValue? b
    (bytes? rest).map ((high * 16 + low).toUInt8 :: ·)
  | c :: rest => if c = '%' ∨ 128 ≤ c.toNat then none else (bytes? rest).map (c.toNat.toUInt8 :: ·)

def path? (uri : String) : Option String :=
  if uri.toList.take scheme.length = scheme then
    ((bytes? (uri.toList.drop scheme.length)).bind Utf8.decode?).map String.ofList
  else none

/-- The characters that are not encoded although no path in the grammar has them. -/
def bareChars : List Char := ['[', ']', '^', '|']

/-- The bytes that are not encoded are characters of ASCII other than the percent sign, and what the grammar
has against them is that they are bare. -/
private theorem standing : ∀ n < 256, isEscaped n.toUInt8 = false →
    n < 128 ∧ Char.ofNat n ≠ '%' ∧ (Char.ofNat n).toNat = n ∧
      ((Char.ofNat n == '/' || Char.ofNat n == ':' || Char.ofNat n == '@' || isUnreserved (Char.ofNat n)
        || isSubDelim (Char.ofNat n)) = !bareChars.contains (Char.ofNat n)) := by
  decide +kernel

private theorem bare_stands : ∀ c ∈ bareChars, c.toNat < 128 ∧ isEscaped c.toNat.toUInt8 = false := by
  intro c hc
  fin_cases hc <;> decide

private theorem hexUpper_read : ∀ n < 16, Json.Text.hexValue? (hexUpper n) = some n ∧ isHex (hexUpper n) = true ∧
    hexUpper n ≠ '/' := by
  decide

theorem bytes?_cons {c : Char} (h : c ≠ '%') (hlow : c.toNat < 128) (rest : List Char) :
    bytes? (c :: rest) = (bytes? rest).map (c.toNat.toUInt8 :: ·) := by
  rw [bytes?, if_neg (by simp [h, hlow])]
  rintro a b more rfl
  exact absurd rfl h

theorem bytes?_encodeByte (b : UInt8) (rest : List Char) :
    bytes? (encodeByte b ++ rest) = (bytes? rest).map (b :: ·) := by
  have hb := b.toNat_lt
  rw [encodeByte]
  split_ifs with he
  · have hhigh := (hexUpper_read (b.toNat / 16) (by omega)).1
    have hlow := (hexUpper_read (b.toNat % 16) (by omega)).1
    have hsum : (b.toNat / 16 * 16 + b.toNat % 16).toUInt8 = b := by
      rw [show b.toNat / 16 * 16 + b.toNat % 16 = b.toNat by omega]
      exact UInt8.ofNat_toNat
    show bytes? ('%' :: hexUpper (b.toNat / 16) :: hexUpper (b.toNat % 16) :: rest) = _
    rw [bytes?, hhigh, hlow]
    show (bytes? rest).map ((b.toNat / 16 * 16 + b.toNat % 16).toUInt8 :: ·) = _
    rw [hsum]
  · obtain ⟨hlow, hpercent, hback, -⟩ := standing b.toNat hb (by simpa using he)
    rw [List.singleton_append, bytes?_cons hpercent (by omega), hback]
    simp

theorem bytes?_encodeSegment (s : String) (rest : List Char) :
    bytes? (encodeSegment s ++ rest) = (bytes? rest).map (Utf8.encode s.toList ++ ·) := by
  rw [encodeSegment]
  induction Utf8.encode s.toList with
  | nil => simp
  | cons b bs ih =>
    rw [List.flatMap_cons, List.append_assoc, bytes?_encodeByte, ih, Option.map_map]
    rfl

theorem isPathText_cons {c : Char} (h : c ≠ '%') (rest : List Char) :
    isPathText (c :: rest) =
      ((c == '/' || c == ':' || c == '@' || isUnreserved c || isSubDelim c) && isPathText rest) := by
  rw [isPathText]
  rintro a b more rfl
  exact absurd rfl h

theorem isPathText_encodeByte (b : UInt8) (rest : List Char) :
    isPathText (encodeByte b ++ rest) =
      ((isEscaped b || !bareChars.contains (Char.ofNat b.toNat)) && isPathText rest) := by
  have hb := b.toNat_lt
  rw [encodeByte]
  split_ifs with he
  · have hhigh := (hexUpper_read (b.toNat / 16) (by omega)).2.1
    have hlow := (hexUpper_read (b.toNat % 16) (by omega)).2.1
    show isPathText ('%' :: hexUpper (b.toNat / 16) :: hexUpper (b.toNat % 16) :: rest) = _
    rw [isPathText, hhigh, hlow, he]
    rfl
  · obtain ⟨-, hpercent, -, hplace⟩ := standing b.toNat hb (by simpa using he)
    rw [List.singleton_append, isPathText_cons hpercent, hplace, Bool.eq_false_iff.2 he]
    rfl

/-- What stands of a text in its encoding has no bare byte just when the text has no bare character. -/
private theorem all_standing (s : List Char) :
    (Utf8.encode s).all (fun b => isEscaped b || !bareChars.contains (Char.ofNat b.toNat)) =
      s.all (!bareChars.contains ·) := by
  rw [Bool.eq_iff_iff, List.all_eq_true, List.all_eq_true]
  constructor
  · intro h c hc
    by_contra hbare
    have hbare : c ∈ bareChars := by simpa using hbare
    obtain ⟨hlow, hstands⟩ := bare_stands c hbare
    have hb := h _ ((Utf8.mem_encode hlow).2 hc)
    rw [Utf8.toNat_ascii hlow, Char.ofNat_toNat, hstands] at hb
    simp [hbare] at hb
  · intro h b hb
    by_cases he : isEscaped b = true
    · rw [he, Bool.true_or]
    · obtain ⟨hlow, -, hback, -⟩ := standing b.toNat b.toNat_lt (by simpa using he)
      have hc : Char.ofNat b.toNat ∈ s := by
        rw [← Utf8.mem_encode (by omega), hback]
        simpa using hb
      rw [h _ hc, Bool.or_true]

theorem isPathText_encodeSegment (s : String) (rest : List Char) :
    isPathText (encodeSegment s ++ rest) = (s.toList.all (!bareChars.contains ·) && isPathText rest) := by
  rw [encodeSegment, ← all_standing]
  induction Utf8.encode s.toList with
  | nil => simp
  | cons b bs ih => rw [List.flatMap_cons, List.append_assoc, isPathText_encodeByte, ih, List.all_cons, Bool.and_assoc]

theorem slash_not_mem_encodeSegment (s : String) : '/' ∉ encodeSegment s := by
  intro h
  obtain ⟨b, -, hb⟩ := List.mem_flatMap.1 h
  have hlt := b.toNat_lt
  rw [encodeByte] at hb
  split_ifs at hb with he
  · have hhigh := (hexUpper_read (b.toNat / 16) (by omega)).2.2
    have hlow := (hexUpper_read (b.toNat % 16) (by omega)).2.2
    simp [hhigh.symm, hlow.symm] at hb
  · obtain ⟨-, -, hback, -⟩ := standing b.toNat hlt (by simpa using he)
    rw [List.mem_singleton] at hb
    rw [← hb] at hback
    have hb : b = 47 := UInt8.toNat_inj.1 hback.symm
    subst hb
    exact he (by decide)

end Uri

namespace Path
variable {p q : Path} {body : List Component} {write : String → List Char}

/-- An absolute path in plain text: one slash between two components and none at the end. -/
def Plain (p : Path) : Prop := ∃ body : List Component, (∀ c ∈ body, c.Between) ∧ p = ofComponents (.root :: body)

/-- The text of the directory at a path, which ends in a slash. -/
def directoryText (p : Path) : String := if p.text = "/" then "/" else p.text ++ "/"

/-- The components below the root, each after a slash, and a slash behind them. -/
def closed (write : String → List Char) (body : List Component) : List Char :=
  body.flatMap (fun c => '/' :: write c.text) ++ ['/']

theorem closed_cons (write : String → List Char) (c : Component) (body : List Component) :
    closed write (c :: body) = '/' :: (write c.text ++ closed write body) := by
  simp [closed]

private theorem slash_intercalate {ws : List (List Char)} (h : ws ≠ []) :
    '/' :: List.intercalate ['/'] ws = ws.flatMap ('/' :: ·) := by
  induction ws with
  | nil => exact absurd rfl h
  | cons w ws ih =>
    cases ws with
    | nil => simp
    | cons v ws =>
      rw [List.intercalate_cons_cons, List.flatMap_cons, ← ih (List.cons_ne_nil v ws)]
      simp

theorem toList_ofComponents (hne : body ≠ []) :
    (ofComponents (.root :: body)).text.toList = body.flatMap fun c => '/' :: c.text.toList := by
  have hws : body.map (fun c => c.text.toList) ≠ [] := by simpa using hne
  show ("/" ++ String.intercalate "/" (body.map Component.text)).toList = _
  rw [String.toList_append, String.toList_intercalate, List.map_map]
  show '/' :: List.intercalate ['/'] (body.map fun c => c.text.toList) = _
  rw [slash_intercalate hws, List.flatMap_map]

theorem toList_directoryText (h : ∀ c ∈ body, c.Between) :
    (ofComponents (.root :: body)).directoryText.toList = closed String.toList body := by
  by_cases hne : body = []
  · subst hne
    decide
  · have ht := toList_ofComponents hne
    rw [directoryText, if_neg, String.toList_append, ht]
    · rfl
    · intro hroot
      obtain ⟨c, rest, rfl⟩ := List.exists_cons_of_ne_nil hne
      rw [hroot] at ht
      have hc := (h c List.mem_cons_self).ne_nil
      simp_all

theorem Plain.text_ne_nil (h : p.Plain) : p.text ≠ "" := by
  obtain ⟨body, -, rfl⟩ := h
  intro he
  have : ("/" ++ String.intercalate "/" (body.map Component.text)).toList = "".toList := congrArg String.toList he
  simp at this

theorem directoryText_inj (hp : p.Plain) (hq : q.Plain) (h : p.directoryText = q.directoryText) :
    p.text = q.text := by
  have hslash : ∀ s : String, "/" = s ++ "/" → s = "" := by
    intro s hs
    simpa using congrArg String.toList hs
  rw [directoryText, directoryText] at h
  split_ifs at h with hproot hqroot hqroot
  · rw [hproot, hqroot]
  · exact absurd (hslash _ h) hq.text_ne_nil
  · exact absurd (hslash _ h.symm) hp.text_ne_nil
  · exact (String.append_left_inj _).1 h

end Path

namespace Uri
variable {p : Path} {body : List Path.Component}

open LanguageHost.Path (closed)

private theorem encodeSegment_ne_nil {s : String} (h : s.toList ≠ []) : encodeSegment s ≠ [] := by
  have hbyte : ∀ b, encodeByte b ≠ [] := by
    intro b
    rw [encodeByte]
    split_ifs <;> exact List.cons_ne_nil _ _
  obtain ⟨b, bs, hb⟩ := List.exists_cons_of_ne_nil (Utf8.encode_ne_nil h)
  rw [encodeSegment, hb, List.flatMap_cons]
  exact List.append_ne_nil_of_left_ne_nil (hbyte b) _

private theorem getLast?_encodePath (h : ∀ c ∈ body, c.Between) (hne : body ≠ []) :
    (encodePath body).getLast? ≠ some '/' := by
  obtain ⟨front, c, rfl⟩ := (List.eq_nil_or_concat body).resolve_left hne
  have hc : encodeSegment c.text ≠ [] := encodeSegment_ne_nil (h c (by simp)).ne_nil
  obtain ⟨ch, rest, hcs⟩ := List.exists_cons_of_ne_nil hc
  intro hlast
  rw [encodePath, if_neg (by simp), List.concat_eq_append, List.flatMap_append, List.flatMap_singleton, hcs,
    List.getLast?_append_of_ne_nil _ (List.cons_ne_nil _ _), List.getLast?_cons_cons, ← hcs] at hlast
  exact slash_not_mem_encodeSegment c.text (List.mem_of_getLast? hlast)

theorem ofDirectory?_ofComponents (h : ∀ c ∈ body, c.Between) :
    ofDirectory? (Path.ofComponents (.root :: body)) =
      some (String.ofList (scheme ++ closed encodeSegment body)) := by
  have hc := Path.components_absolute h
  have ha : (Path.ofComponents (.root :: body)).isAbsolute = true := by
    simp [Path.isAbsolute, Path.ofComponents, Path.render]
  rw [ofDirectory?, ofFile?, if_pos ha, hc, List.tail_cons, Option.map_some, String.toList_ofList]
  by_cases hne : body = []
  · subst hne
    rfl
  · have hpath : encodePath body = body.flatMap fun c => '/' :: encodeSegment c.text := by
      rw [encodePath, if_neg (by simpa using hne)]
    have hlast := getLast?_encodePath h hne
    have hsome : encodePath body ≠ [] := by
      obtain ⟨c, rest, rfl⟩ := List.exists_cons_of_ne_nil hne
      rw [hpath]
      exact List.cons_ne_nil _ _
    rw [List.getLast?_append_of_ne_nil _ hsome, if_neg hlast, hpath]
    have hslash : "/" = String.ofList ['/'] := rfl
    rw [closed, hslash, ← String.ofList_append, List.append_assoc]

private theorem bytes?_slash (rest : List Char) :
    bytes? ('/' :: rest) = (bytes? rest).map (Utf8.encode ['/'] ++ ·) :=
  bytes?_cons (by decide) (by decide) rest

theorem bytes?_closed (body : List Path.Component) :
    bytes? (closed encodeSegment body) = some (Utf8.encode (closed String.toList body)) := by
  induction body with
  | nil => decide
  | cons c body ih =>
    rw [Path.closed_cons, Path.closed_cons, bytes?_slash, bytes?_encodeSegment, ih, Option.map_some, Option.map_some,
      ← Utf8.encode_append, ← Utf8.encode_append]
    rfl

theorem isPathText_closed (body : List Path.Component) :
    isPathText (closed encodeSegment body) = (closed String.toList body).all (!bareChars.contains ·) := by
  induction body with
  | nil => decide
  | cons c body ih =>
    have hslash : (!bareChars.contains '/') = true := by decide
    rw [Path.closed_cons, Path.closed_cons, isPathText_cons (by decide), isPathText_encodeSegment, ih, List.all_cons, List.all_append, hslash]
    rfl

private theorem all_directoryText (p : Path) :
    p.directoryText.toList.all (!bareChars.contains ·) = decide (∀ c ∈ p.text.toList, c ∉ bareChars) := by
  rw [Bool.eq_iff_iff, List.all_eq_true, decide_eq_true_iff, Path.directoryText]
  split_ifs with hroot
  · simp [hroot]
  · rw [String.toList_append]
    simp [or_imp, forall_and, bareChars]

/-- A plain path is announced by a URI that reads back as its directory, unless it has a bare character. -/
theorem ofRoot?_plain (h : p.Plain) :
    ∃ uri, path? uri = some p.directoryText ∧
      ofRoot? p = if ∀ c ∈ p.text.toList, c ∉ bareChars then some uri else none := by
  obtain ⟨body, hb, rfl⟩ := h
  have htext := Path.toList_directoryText hb
  refine ⟨String.ofList (scheme ++ closed encodeSegment body), ?_, ?_⟩
  · rw [path?, String.toList_ofList, List.take_left, if_pos rfl, List.drop_left, bytes?_closed, Option.bind_some,
      Utf8.decode?_encode, ← htext, Option.map_some, String.ofList_toList]
  · have hstandard : isStandard (String.ofList (scheme ++ closed encodeSegment body)) =
        decide (∀ c ∈ (Path.ofComponents (.root :: body)).text.toList, c ∉ bareChars) := by
      rw [isStandard, String.toList_ofList, List.take_left, List.drop_left, beq_self_eq_true, Bool.true_and,
        isPathText_closed, ← htext, all_directoryText]
    rw [ofRoot?, ofDirectory?_ofComponents hb, Option.filter_some, hstandard]
    simp only [decide_eq_true_eq]

end Uri

end LanguageHost
