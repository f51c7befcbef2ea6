import LanguageHost.Frame
import LanguageHost.Proofs.Json.Literals

/-! What a reader makes of one header line, and that it finds the length in the line that a frame begins with. -/
namespace LanguageHost

namespace Utf8

theorem encode_append (s t : List Char) : encode (s ++ t) = encode s ++ encode t := List.flatMap_append

theorem encode_ne_nil {s : List Char} (h : s ≠ []) : encode s ≠ [] := by
  obtain ⟨c, t, rfl⟩ := List.exists_cons_of_ne_nil h
  have hsize := Char.utf8Size_pos c
  rw [← String.length_utf8EncodeChar, List.length_pos_iff] at hsize
  simp [encode, hsize]

theorem decode?_encode (s : List Char) : decode? (encode s) = some s := by
  have hbytes : ByteArray.mk (encode s).toArray = s.utf8Encode := by
    rw [List.utf8Encode, ByteArray.ext_iff, List.data_toByteArray]
    rfl
  rw [decode?, hbytes, List.utf8Decode?_utf8Encode]
  rfl

theorem parse_encode (s : List Char) : parse (encode s) = .ok s := by
  rw [parse, decode?_encode]

theorem encode_ascii {s : List Char} (h : ∀ c ∈ s, c.toNat < 128) : encode s = s.map fun c => c.toNat.toUInt8 := by
  induction s with
  | nil => rfl
  | cons c s ih =>
    have hc : c.toNat < 128 := h c List.mem_cons_self
    have hsize : c.utf8Size = 1 := by
      have hval : c.val ≤ 0x7f := UInt32.le_iff_toNat_le.2 (Nat.le_of_lt_succ hc)
      exact if_pos hval
    have hbyte : c.val.toUInt8 = c.toNat.toUInt8 := by
      apply UInt8.toNat_inj.1
      rw [UInt32.toNat_toUInt8, UInt8.toNat_ofNat']
      rfl
    rw [encode, List.flatMap_cons, String.utf8EncodeChar_eq_singleton hsize, hbyte, List.map_cons,
      ← ih fun d hd => h d (List.mem_cons_of_mem c hd)]
    rfl

theorem feed_not_mem_encode {s : List Char} (h : ∀ c ∈ s, c.toNat < 128) (hs : '\n' ∉ s) : 10 ∉ encode s := by
  rw [encode_ascii h, List.mem_map]
  rintro ⟨c, hc, heq⟩
  have hlt := h c hc
  have hten : c.toNat = 10 := by
    have := congrArg UInt8.toNat heq
    rw [UInt8.toNat_ofNat', Nat.mod_eq_of_lt (by omega)] at this
    exact this
  have hfeed : c = '\n' := by
    rw [← Char.ofNat_toNat c, hten]
  exact hs (hfeed ▸ hc)

end Utf8

namespace Text

theorem trimStart_cons {c : Char} (h : isBlank c = false) (s : List Char) : trimStart (c :: s) = c :: s := by
  rw [trimStart, List.dropWhile_cons_of_neg (by simp [h])]

theorem trimEnd_append {s : List Char} {c : Char} (h : isBlank c = false)
    {blanks : List Char} (hb : ∀ b ∈ blanks, isBlank b = true) :
    trimEnd (s ++ [c] ++ blanks) = s ++ [c] := by
  have hdrop : (blanks.reverse ++ ([c] ++ s.reverse)).dropWhile isBlank = [c] ++ s.reverse := by
    rw [List.dropWhile_append_of_pos (by simpa using hb), List.singleton_append,
      List.dropWhile_cons_of_neg (by simp [h])]
  rw [trimEnd, List.reverse_append, List.reverse_append, List.reverse_singleton, hdrop,
    List.reverse_append, List.reverse_reverse]
  rfl

theorem trim_ne_nil {s : List Char} {c : Char} (hc : c ∈ s) (h : isBlank c = false) : trim s ≠ [] := by
  have hdrop {t : List Char} (ht : c ∈ t) : c ∈ t.dropWhile isBlank := by
    have hnot : c ∉ t.takeWhile isBlank := fun hmem => by simp [List.mem_takeWhile_imp hmem] at h
    rw [← List.takeWhile_append_dropWhile (p := isBlank) (l := t), List.mem_append] at ht
    exact ht.resolve_left hnot
  have hmem : c ∈ trim s := List.mem_reverse.2 (hdrop (List.mem_reverse.2 (hdrop hc)))
  exact List.ne_nil_of_mem hmem

end Text

namespace Frame

section Lines
variable {line rest : Bytes}

theorem takeLine_append (h : 10 ∉ line) (rest : Bytes) : takeLine (line ++ 10 :: rest) = (line ++ [10], rest) := by
  induction line with
  | nil => rfl
  | cons b line ih =>
    rw [List.mem_cons, not_or] at h
    rw [List.cons_append, takeLine, if_neg (Ne.symm h.1), ih h.2]
    rfl

theorem takeLine_of_not_mem (h : 10 ∉ line) : takeLine line = (line, []) := by
  induction line with
  | nil => rfl
  | cons b line ih =>
    rw [List.mem_cons, not_or] at h
    rw [takeLine, if_neg (Ne.symm h.1), ih h.2]

end Lines

section Rules
variable {input line rest : Bytes} {seen : Bool} {length : Option Nat} {text : List Char}

theorem headers_blank (hne : input ≠ []) (hline : takeLine input = (line, rest)) (htext : Utf8.parse line = .ok text)
    (hblank : Text.trim text = []) :
    headers true length input = (.ok (some length), rest) := by
  obtain ⟨b, s, rfl⟩ := List.exists_cons_of_ne_nil hne
  rw [headers, hline]
  dsimp only
  rw [htext]
  simp [hblank]

theorem headers_leading (hne : input ≠ []) (hline : takeLine input = (line, rest)) (htext : Utf8.parse line = .ok text)
    (hblank : Text.trim text = []) :
    headers false length input = headers false length rest := by
  obtain ⟨b, s, rfl⟩ := List.exists_cons_of_ne_nil hne
  rw [headers, hline]
  dsimp only
  rw [htext]
  simp [hblank]

theorem headers_line (hne : input ≠ []) (hline : takeLine input = (line, rest)) (htext : Utf8.parse line = .ok text)
    (hblank : Text.trim text ≠ []) :
    (header (Text.trim text) = .other → headers seen length input = headers true length rest) ∧
    (∀ n, header (Text.trim text) = .length n → headers seen length input = headers true (some n) rest) ∧
    (∀ value, header (Text.trim text) = .malformed value →
      headers seen length input = (.error (.badLength value), rest)) := by
  obtain ⟨b, s, rfl⟩ := List.exists_cons_of_ne_nil hne
  rw [headers, hline]
  dsimp only
  rw [htext]
  simp +contextual [hblank]

theorem headers_notText {defect : Utf8.Defect} (hne : input ≠ []) (hline : takeLine input = (line, rest))
    (htext : Utf8.parse line = .error defect) :
    headers seen length input = (.error (.notText defect), rest) := by
  obtain ⟨b, s, rfl⟩ := List.exists_cons_of_ne_nil hne
  rw [headers, hline]
  dsimp only
  rw [htext]

/-- An input that ends in its first header line is in error, and nothing is left of it. -/
theorem headers_torn (hne : input ≠ []) (hline : takeLine input = (input, []))
    (hblank : ∀ text, Utf8.parse input = .ok text → Text.trim text ≠ []) :
    ∃ fault, headers seen length input = (.error fault, []) := by
  cases htext : Utf8.parse input with
  | error defect => exact ⟨_, headers_notText hne hline htext⟩
  | ok text =>
    obtain ⟨hother, hlength, hmalformed⟩ := headers_line hne hline htext (hblank text htext)
    cases hheader : header (Text.trim text) with
    | other => exact ⟨.endOfInput, by rw [hother hheader, headers, if_pos rfl]⟩
    | length n => exact ⟨.endOfInput, by rw [hlength n hheader, headers, if_pos rfl]⟩
    | malformed value => exact ⟨_, hmalformed value hheader⟩

end Rules

section Length

def lengthName : List Char := "Content-Length: ".toList

theorem lengthName_eq :
    lengthName = ['C', 'o', 'n', 't', 'e', 'n', 't', '-', 'L', 'e', 'n', 'g', 't', 'h', ':', ' '] :=
  rfl

/-- The line of a frame that gives the length of its body, up to the line feed. -/
def lengthLine (n : Nat) : List Char := lengthName ++ (Json.natDigits n ++ ['\r'])

theorem lengthLine_ascii {n : Nat} {c : Char} (h : c ∈ lengthLine n) : c.toNat < 128 ∧ c ≠ '\n' := by
  rw [lengthLine, List.mem_append, List.mem_append, List.mem_singleton] at h
  obtain h | h | rfl := h
  · have hname : lengthName.all fun d => d.toNat < 128 && d != '\n' := rfl
    simpa using List.all_eq_true.1 hname c h
  · obtain ⟨hlow, hhigh⟩ := Char.isDigit_iff_toNat.1 (Json.natDigits_isDigit h)
    refine ⟨Nat.lt_of_le_of_lt hhigh (by decide), ?_⟩
    rintro rfl
    exact absurd hlow (by decide)
  · decide

theorem isBlank_of_isDigit {c : Char} (h : c.isDigit = true) : Text.isBlank c = false := by
  obtain ⟨hlow, hhigh⟩ := Char.isDigit_iff_toNat.1 h
  have h48 : '0'.toNat = 48 := rfl
  have h57 : '9'.toNat = 57 := rfl
  simp only [Text.isBlank, Bool.or_eq_false_iff, Bool.and_eq_false_iff, decide_eq_false_iff_not, beq_eq_false_iff_ne]
  omega

theorem trimEnd_natDigits (front : List Char) (n : Nat) {blanks : List Char}
    (hb : ∀ b ∈ blanks, Text.isBlank b = true) :
    Text.trimEnd (front ++ Json.natDigits n ++ blanks) = front ++ Json.natDigits n := by
  -- The last digit is no blank, and stops the trimming.
  obtain ⟨s, c, hs⟩ : ∃ s c, Json.natDigits n = s ++ [c] := by
    have hne : Json.natDigits n ≠ [] := Nat.toDigits_ne_nil
    exact ⟨_, _, (List.dropLast_append_getLast hne).symm⟩
  have hc : c.isDigit = true := Json.natDigits_isDigit (hs ▸ List.mem_concat_self)
  rw [hs, ← List.append_assoc]
  exact Text.trimEnd_append (isBlank_of_isDigit hc) hb

theorem parseLength?_natDigits {n : Nat} (h : n < 0x10000000000000000) : parseLength? (Json.natDigits n) = some n := by
  obtain ⟨c, s, hs, hc⟩ := Json.natDigits_cons n
  have hall : (Json.natDigits n).all Char.isDigit = true := List.all_eq_true.2 fun _ => Json.natDigits_isDigit
  have hvalue := Json.foldl_natDigits n
  rw [hs] at hall hvalue ⊢
  unfold parseLength?
  split
  · rename_i heq
    rw [(List.cons.inj heq).1] at hc
    exact absurd hc (by decide)
  · simp only [List.isEmpty_cons, hall, hvalue, Bool.not_true, Bool.or_self]
    exact if_pos h

theorem header_lengthLine {n : Nat} (h : n < 0x10000000000000000) :
    header (Text.trim (lengthLine n ++ ['\n'])) = .length n := by
  have hline : Text.trim (lengthLine n ++ ['\n']) = lengthName ++ Json.natDigits n := by
    have hstart : Text.trimStart (lengthLine n ++ ['\n']) = lengthName ++ Json.natDigits n ++ ['\r', '\n'] := by
      simp only [lengthLine, lengthName_eq, List.append_assoc, List.cons_append]
      exact Text.trimStart_cons rfl _
    rw [Text.trim, hstart]
    exact trimEnd_natDigits lengthName n (List.all_eq_true.1 rfl)
  have hvalue : Text.trim (' ' :: Json.natDigits n) = Json.natDigits n := by
    obtain ⟨c, s, hs, hc⟩ := Json.natDigits_cons n
    have hstart : Text.trimStart (' ' :: Json.natDigits n) = Json.natDigits n := by
      rw [hs]
      exact Text.trimStart_cons (isBlank_of_isDigit hc) s
    rw [Text.trim, hstart]
    simpa using trimEnd_natDigits [] n (List.forall_mem_nil _)
  have hname : Text.lowerAscii (Text.trim ['C', 'o', 'n', 't', 'e', 'n', 't', '-', 'L', 'e', 'n', 'g', 't', 'h']) =
      "content-length".toList := rfl
  rw [hline, lengthName_eq]
  unfold header
  simp [hname, hvalue, parseLength?_natDigits h]

end Length

end Frame

end LanguageHost
