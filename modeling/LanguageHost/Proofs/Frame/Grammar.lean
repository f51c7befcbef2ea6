import LanguageHost.Proofs.Frame.Header

/-! The grammar of a framed message, by the lines of the input, and that reading accepts just what it allows and
stops where it says. -/
namespace LanguageHost

namespace Utf8

theorem decode?_eq_some {bytes : List UInt8} {text : List Char} : decode? bytes = some text ↔ bytes = encode text := by
  constructor
  · intro h
    rw [decode?, Option.map_eq_some_iff] at h
    obtain ⟨chars, hchars, rfl⟩ := h
    have hsome : (ByteArray.mk bytes.toArray).utf8Decode?.isSome = true := by rw [hchars]; rfl
    have hback := ByteArray.utf8Encode_get_utf8Decode? (h := hsome)
    simp only [hchars, Option.get_some] at hback
    have hbytes := congrArg (fun b => b.data.toList) hback
    simpa [List.utf8Encode, encode] using hbytes.symm
  · rintro rfl
    exact decode?_encode text

theorem parse_eq_ok {bytes : List UInt8} {text : List Char} : parse bytes = .ok text ↔ bytes = encode text := by
  rw [← decode?_eq_some, parse]
  cases decode? bytes <;> simp

end Utf8

namespace Text

theorem trim_eq_nil_iff {s : List Char} : trim s = [] ↔ ∀ c ∈ s, isBlank c = true := by
  constructor
  · intro h c hc
    by_contra hblank
    exact trim_ne_nil hc (by simpa using hblank) h
  · intro h
    have hstart : trimStart s = [] := List.dropWhile_eq_nil_iff.2 h
    rw [trim, hstart]
    rfl

section Parted
variable {c : Char} (h : isBlank c = false) (s t : List Char)
include h

theorem trimStart_append_cons : trimStart (s ++ c :: t) = trimStart s ++ c :: t := by
  rw [trimStart, List.dropWhile_append]
  split
  · rename_i hempty
    rw [trimStart, List.isEmpty_iff.1 hempty, List.dropWhile_cons_of_neg (by simp [h])]
    rfl
  · rfl

theorem trimEnd_append_cons : trimEnd (s ++ c :: t) = s ++ c :: trimEnd t := by
  have hreverse := trimStart_append_cons h t.reverse s.reverse
  rw [trimStart] at hreverse
  rw [trimEnd, List.reverse_append, List.reverse_cons, List.append_assoc, List.singleton_append, hreverse]
  simp [trimStart, trimEnd]

theorem trim_append_cons : trim (s ++ c :: t) = trimStart s ++ c :: trimEnd t := by
  rw [trim, trimStart_append_cons h, trimEnd_append_cons h]

end Parted

theorem trim_trimStart (s : List Char) : trim (trimStart s) = trim s := by
  simp only [trim, trimStart, List.dropWhile_idempotent]

theorem trim_trimEnd (s : List Char) : trim (trimEnd s) = trim s := by
  by_cases hs : ∀ c ∈ s, isBlank c = true
  · have hend : trimEnd s = [] := by
      rw [trimEnd, List.reverse_eq_nil_iff, List.dropWhile_eq_nil_iff]
      simpa using hs
    rw [hend, trim_eq_nil_iff.2 hs]
    rfl
  · push Not at hs
    obtain ⟨c, hc, hblank⟩ := hs
    have hblank : isBlank c = false := by simpa using hblank
    obtain ⟨a, b, rfl⟩ := List.append_of_mem hc
    have htwice : trimEnd (trimEnd b) = trimEnd b := by
      simp only [trimEnd, List.reverse_reverse, List.dropWhile_idempotent]
    rw [trimEnd_append_cons hblank, trim_append_cons hblank, trim_append_cons hblank, htwice]

end Text

namespace Frame

section Lines

/-- The lines of an input, each with its line feed. Only the last may lack one. -/
def lines : Bytes → List Bytes
  | [] => []
  | b :: s =>
    if b = 10 then [b] :: lines s
    else match lines s with
      | [] => [[b]]
      | line :: more => (b :: line) :: more

theorem lines_cons (b : UInt8) (s : Bytes) :
    lines (b :: s) = (takeLine (b :: s)).1 :: lines (takeLine (b :: s)).2 := by
  induction s generalizing b with
  | nil => by_cases hb : b = 10 <;> simp [lines, takeLine, hb]
  | cons c s ih =>
    rw [lines, takeLine]
    split_ifs with hb
    · rfl
    · rw [ih c]

theorem flatten_lines (input : Bytes) : (lines input).flatten = input := by
  induction input with
  | nil => rfl
  | cons b s ih =>
    rw [lines]
    split_ifs with hb
    · rw [List.flatten_cons, ih]
      rfl
    · cases hs : lines s with
      | nil => rw [← ih, hs]; rfl
      | cons line more => rw [← ih, hs]; rfl

/-- A line is what is taken first, and the lines behind it are those of what is left. -/
theorem takeLine_of_lines {input line : Bytes} {more : List Bytes} (h : lines input = line :: more) :
    input ≠ [] ∧ takeLine input = (line, more.flatten) ∧ lines more.flatten = more := by
  cases input with
  | nil => cases h
  | cons b s =>
    rw [lines_cons] at h
    obtain ⟨rfl, rfl⟩ := List.cons.inj h
    rw [flatten_lines]
    exact ⟨List.cons_ne_nil b s, rfl, rfl⟩

end Lines

/-- The line is text, and nothing of it is left when blanks are trimmed. -/
def Blank (line : Bytes) : Prop := ∃ text, line = Utf8.encode text ∧ Text.trim text = []

/-- The text is a header that gives the length: the name before its first colon is the one of the length, in letters
of either case, and what follows the colon is the value, both without the blanks around them. -/
def Names (text value : List Char) : Prop :=
  ∃ name rest, text = name ++ ':' :: rest ∧ ':' ∉ name ∧
    Text.lowerAscii (Text.trim name) = "content-length".toList ∧ Text.trim rest = value

/-- The value is a length: decimal digits, perhaps behind a plus sign, below 2^64. -/
def IsLength (value : List Char) (n : Nat) : Prop :=
  ∃ digits, (value = digits ∨ value = '+' :: digits) ∧ digits ≠ [] ∧ (∀ c ∈ digits, c.isDigit = true) ∧
    Nat.ofDigitChars 10 digits 0 = n ∧ n < 2 ^ 64

/-- A line of the header and the length that it gives, if it is one that gives it. -/
inductive Says : Bytes → Option Nat → Prop
  | other {text} (hblank : Text.trim text ≠ []) (hno : ∀ value, ¬Names text value) : Says (Utf8.encode text) none
  | length {text value n} (hname : Names text value) (hvalue : IsLength value n) : Says (Utf8.encode text) (some n)

/-- The input begins with blank lines and after them lines of a header, which give some lengths; then there are more
lines. -/
def Begins (input : Bytes) (lengths : List (Option Nat)) (more : List Bytes) : Prop :=
  ∃ blanks headers, lines input = blanks ++ headers ++ more ∧ (∀ line ∈ blanks, Blank line) ∧
    List.Forall₂ Says headers lengths

def lastLength (lengths : List (Option Nat)) : Option Nat := lengths.reduceOption.getLast?

/-- The header is whole: a blank line ends it, and behind that there is `rest`. -/
def Heads (input : Bytes) (length : Option Nat) (rest : Bytes) : Prop :=
  ∃ lengths blank more, Begins input lengths (blank :: more) ∧ lengths ≠ [] ∧ Blank blank ∧
    lastLength lengths = length ∧ more.flatten = rest

inductive Decodes (body : Bytes) : Except Error (Option Json) → Prop
  | value {text v} (hbody : body = Utf8.encode text) (hvalue : Json.read? text = some v) : Decodes body (.ok (some v))
  | noValue (h : ∀ text v, body = Utf8.encode text → Json.read? text ≠ some v) :
    Decodes body (.error (.json "no JSON value"))

/-- What comes of an input when one message is read, and what is left of it then. -/
inductive Reads (input : Bytes) : Except Error (Option Json) → Bytes → Prop
  | ended (h : Begins input [] []) : Reads input (.ok none) []
  | unfinished {lengths} (h : Begins input lengths []) (hne : lengths ≠ []) : Reads input (.error .eof) []
  | notText {lengths line more defect} (h : Begins input lengths (line :: more))
    (hline : ∀ text, line ≠ Utf8.encode text) (hdefect : Utf8.parse line = .error defect) :
    Reads input (.error (.io defect.text)) more.flatten
  | badLength {lengths text more value} (h : Begins input lengths (Utf8.encode text :: more))
    (hname : Names text value) (hvalue : ∀ n, ¬IsLength value n) :
    Reads input (.error (.protocol ("invalid Content-Length: " ++ String.ofList value))) more.flatten
  | noLength {rest} (h : Heads input none rest) : Reads input (.error (.protocol "missing Content-Length")) rest
  | tooLong {n rest} (h : Heads input (some n) rest) (hn : 64 * 1024 * 1024 < n) :
    Reads input (.error (.protocol ("message of " ++ toString n ++ " bytes exceeds limit"))) rest
  | short {n rest} (h : Heads input (some n) rest) (hn : n ≤ 64 * 1024 * 1024) (hrest : rest.length < n) :
    Reads input (.error .eof) []
  | body {n body rest outcome} (h : Heads input (some n) (body ++ rest)) (hn : n ≤ 64 * 1024 * 1024)
    (hbody : body.length = n) (hdecodes : Decodes body outcome) : Reads input outcome rest

section Header
variable {name rest text value : List Char} {n : Nat}

theorem parseLength?_eq_some : parseLength? value = some n ↔ IsLength value n := by
  have hdigits (digits : List Char) :
      (if digits.isEmpty || !digits.all Char.isDigit then none
        else if digits.foldl (fun n c => n * 10 + (c.toNat - 48)) 0 < 0x10000000000000000
          then some (digits.foldl (fun n c => n * 10 + (c.toNat - 48)) 0) else none) = some n ↔
        digits ≠ [] ∧ (∀ c ∈ digits, c.isDigit = true) ∧ Nat.ofDigitChars 10 digits 0 = n ∧ n < 2 ^ 64 := by
    have hvalue : digits.foldl (fun n c => n * 10 + (c.toNat - 48)) 0 = Nat.ofDigitChars 10 digits 0 := by
      simp only [Nat.ofDigitChars_eq_foldl, Nat.mul_comm 10]
      rfl
    rw [hvalue]
    simp only [Option.ite_none_left_eq_some, Option.ite_none_right_eq_some, Bool.or_eq_true, List.isEmpty_iff,
      Bool.not_eq_true', not_or, Bool.not_eq_false, List.all_eq_true, Option.some.injEq, and_assoc]
    constructor
    · rintro ⟨hne, hall, hlt, rfl⟩
      exact ⟨hne, hall, rfl, hlt⟩
    · rintro ⟨hne, hall, rfl, hlt⟩
      exact ⟨hne, hall, hlt, rfl⟩
  unfold parseLength?
  split
  · rename_i rest
    rw [hdigits]
    constructor
    · exact fun h => ⟨rest, .inr rfl, h⟩
    · rintro ⟨digits, rfl | hplus, h⟩
      · exact absurd (h.2.1 '+' List.mem_cons_self) (by decide)
      · exact (List.cons.inj hplus).2 ▸ h
  · rename_i hplus
    rw [hdigits]
    constructor
    · exact fun h => ⟨value, .inl rfl, h⟩
    · rintro ⟨digits, rfl | rfl, h⟩
      · exact h
      · exact absurd rfl (hplus digits)

theorem header_plain (h : ':' ∉ text) : header (Text.trim text) = .other := by
  have htrim : ∀ c ∈ Text.trim text, (c != ':') = true := by
    intro c hc
    have hmem : c ∈ text :=
      (List.dropWhile_sublist _).subset (List.mem_reverse.1 ((List.dropWhile_sublist _).subset (List.mem_reverse.1 hc)))
    rw [bne_iff_ne]
    rintro rfl
    exact h hmem
  rw [header, List.dropWhile_eq_nil_iff.2 htrim]

theorem header_colon (h : ':' ∉ name) (rest : List Char) :
    header (Text.trim (name ++ ':' :: rest)) =
      if Text.lowerAscii (Text.trim name) = "content-length".toList then
        match parseLength? (Text.trim rest) with
        | some n => .length n
        | none => .malformed (String.ofList (Text.trim rest))
      else .other := by
  have hname : ∀ c ∈ Text.trimStart name, (c != ':') = true := by
    intro c hc
    rw [bne_iff_ne]
    rintro rfl
    exact h ((List.dropWhile_sublist _).subset hc)
  rw [Text.trim_append_cons rfl, header, List.dropWhile_append_of_pos hname, List.takeWhile_append_of_pos hname,
    List.dropWhile_cons_of_neg (by simp), List.takeWhile_cons_of_neg (by simp), List.append_nil]
  dsimp only
  rewrite [Text.trim_trimStart, Text.trim_trimEnd]
  rfl

theorem header_other (h : ∀ value, ¬Names text value) : header (Text.trim text) = .other := by
  by_cases hcolon : ':' ∈ text
  · obtain ⟨name, rest, rfl, hname⟩ := List.eq_append_cons_of_mem hcolon
    rw [header_colon hname, if_neg fun heq => h _ ⟨name, rest, rfl, hname, heq, rfl⟩]
  · exact header_plain hcolon

theorem header_length (h : Names text value) (hvalue : IsLength value n) : header (Text.trim text) = .length n := by
  obtain ⟨name, rest, rfl, hname, heq, rfl⟩ := h
  rw [header_colon hname, if_pos heq, parseLength?_eq_some.2 hvalue]

theorem header_malformed (h : Names text value) (hvalue : ∀ n, ¬IsLength value n) :
    header (Text.trim text) = .malformed (String.ofList value) := by
  obtain ⟨name, rest, rfl, hname, heq, rfl⟩ := h
  have hnone : parseLength? (Text.trim rest) = none :=
    Option.eq_none_iff_forall_ne_some.2 fun n hn => hvalue n (parseLength?_eq_some.1 hn)
  rw [header_colon hname, if_pos heq, hnone]

theorem Names.trim_ne_nil (h : Names text value) : Text.trim text ≠ [] := by
  obtain ⟨name, rest, rfl, -⟩ := h
  exact Text.trim_ne_nil (List.mem_append_right name List.mem_cons_self) rfl

end Header

section Sound
variable {input line rest : Bytes} {more : List Bytes} {lengths : List (Option Nat)} {length : Option Nat}

theorem lastLength_cons (length : Option Nat) (lengths : List (Option Nat)) :
    lastLength (length :: lengths) = (lastLength lengths).or length := by
  cases length with
  | none => simp [lastLength]
  | some n =>
    rw [lastLength, List.reduceOption_cons_of_some, List.getLast?_cons]
    cases hlast : lengths.reduceOption.getLast? <;> simp [lastLength, hlast]

theorem headers_said (h : Says line length) (hlines : lines input = line :: more) (seen : Bool)
    (before : Option Nat) : headers seen before input = headers true (length.or before) more.flatten := by
  obtain ⟨hne, htake, -⟩ := takeLine_of_lines hlines
  cases h with
  | other hblank hno => exact (headers_line hne htake (Utf8.parse_encode _) hblank).1 (header_other hno)
  | length hname hvalue =>
    exact (headers_line hne htake (Utf8.parse_encode _) hname.trim_ne_nil).2.1 _ (header_length hname hvalue)

theorem headers_of_blanks {blanks : List Bytes} (h : ∀ line ∈ blanks, Blank line)
    (hlines : lines input = blanks ++ more) :
    headers false none input = headers false none more.flatten ∧ lines more.flatten = more := by
  induction blanks generalizing input with
  | nil =>
    rw [List.nil_append] at hlines
    rw [← hlines, flatten_lines]
    exact ⟨rfl, rfl⟩
  | cons line blanks ih =>
    obtain ⟨hne, htake, hbehind⟩ := takeLine_of_lines hlines
    obtain ⟨text, rfl, hblank⟩ := h line List.mem_cons_self
    rw [headers_leading hne htake (Utf8.parse_encode text) hblank]
    exact ih (fun l hl => h l (List.mem_cons_of_mem _ hl)) hbehind

theorem headers_of_lengths {header : List Bytes} (h : List.Forall₂ Says header lengths)
    (hlines : lines input = header ++ more) (seen : Bool) (before : Option Nat) :
    headers seen before input = headers (seen || !lengths.isEmpty) ((lastLength lengths).or before) more.flatten ∧
      lines more.flatten = more := by
  induction h generalizing input seen before with
  | nil =>
    rw [List.nil_append] at hlines
    rw [← hlines, flatten_lines]
    simp [lastLength]
  | @cons line length header lengths hline _ ih =>
    obtain ⟨-, -, hbehind⟩ := takeLine_of_lines hlines
    rw [headers_said hline hlines seen before, lastLength_cons, Option.or_assoc]
    simpa using ih hbehind true (length.or before)

theorem Begins.headers (h : Begins input lengths more) :
    Frame.headers false none input = Frame.headers (!lengths.isEmpty) (lastLength lengths) more.flatten ∧
      lines more.flatten = more := by
  obtain ⟨blanks, header, hlines, hblanks, hsays⟩ := h
  rw [List.append_assoc] at hlines
  obtain ⟨hskip, hbehind⟩ := headers_of_blanks hblanks hlines
  rw [hskip]
  simpa using headers_of_lengths hsays hbehind false none

theorem Heads.headers (h : Heads input length rest) : Frame.headers false none input = (.ok (some length), rest) := by
  obtain ⟨lengths, blank, more, hbegins, hne, ⟨text, rfl, hblank⟩, rfl, rfl⟩ := h
  obtain ⟨hheaders, hlines⟩ := hbegins.headers
  obtain ⟨hinput, htake, -⟩ := takeLine_of_lines hlines
  rw [hheaders, List.isEmpty_eq_false_iff.2 hne]
  exact headers_blank hinput htake (Utf8.parse_encode text) hblank

theorem Decodes.decodeBody {body : Bytes} {outcome : Except Error (Option Json)} (h : Decodes body outcome) :
    ((Frame.decodeBody body).map some).mapError Fault.error = outcome := by
  cases h with
  | value hbody hvalue => rw [Frame.decodeBody, Utf8.decode?_eq_some.2 hbody, Option.bind_some, hvalue]; rfl
  | noValue hno =>
    have hnone : (Utf8.decode? body).bind Json.read? = none := by
      rw [Option.bind_eq_none_iff]
      intro text htext
      exact Option.eq_none_iff_forall_ne_some.2 fun v => hno text v (Utf8.decode?_eq_some.1 htext)
    rw [Frame.decodeBody, hnone]
    rfl

theorem Reads.read {outcome : Except Error (Option Json)} (h : Reads input outcome rest) :
    ((Frame.read input).1.mapError Fault.error, (Frame.read input).2) = (outcome, rest) := by
  cases h with
  | ended h =>
    rw [Frame.read, h.headers.1, List.flatten_nil, Frame.headers]
    rfl
  | unfinished h hne =>
    rw [Frame.read, h.headers.1, List.isEmpty_eq_false_iff.2 hne, List.flatten_nil, Frame.headers]
    rfl
  | notText h _ hdefect =>
    obtain ⟨hheaders, hlines⟩ := h.headers
    obtain ⟨hne, htake, -⟩ := takeLine_of_lines hlines
    rw [Frame.read, hheaders, headers_notText hne htake hdefect]
    rfl
  | badLength h hname hvalue =>
    obtain ⟨hheaders, hlines⟩ := h.headers
    obtain ⟨hne, htake, -⟩ := takeLine_of_lines hlines
    rw [Frame.read, hheaders,
      (headers_line hne htake (Utf8.parse_encode _) hname.trim_ne_nil).2.2 _ (header_malformed hname hvalue)]
    rfl
  | noLength h =>
    rw [Frame.read, h.headers]
    rfl
  | tooLong h hn =>
    rw [Frame.read, h.headers]
    dsimp only
    rw [bodyLimit, if_pos hn]
    rfl
  | short h hn hrest =>
    rw [Frame.read, h.headers]
    dsimp only
    rw [bodyLimit, if_neg (Nat.not_lt.2 hn), if_pos hrest]
    rfl
  | body h hn hbody hdecodes =>
    subst hbody
    rw [Frame.read, h.headers]
    dsimp only
    rw [bodyLimit, if_neg (Nat.not_lt.2 hn), if_neg (by simp), List.take_left, List.drop_left, hdecodes.decodeBody]

end Sound

section Total
variable {input rest : Bytes}

theorem exists_decodes (body : Bytes) : ∃ outcome, Decodes body outcome := by
  by_cases h : ∃ text v, body = Utf8.encode text ∧ Json.read? text = some v
  · obtain ⟨text, v, hbody, hvalue⟩ := h
    exact ⟨_, .value hbody hvalue⟩
  · push Not at h
    exact ⟨_, .noValue h⟩

theorem exists_blanks (all : List Bytes) : ∃ blanks more, all = blanks ++ more ∧ (∀ line ∈ blanks, Blank line) ∧
    ∀ line ∈ more.head?, ¬Blank line := by
  induction all with
  | nil => exact ⟨[], [], rfl, by simp, by simp⟩
  | cons line all ih =>
    by_cases hline : Blank line
    · obtain ⟨blanks, more, rfl, hblanks, hmore⟩ := ih
      exact ⟨line :: blanks, more, rfl, List.forall_mem_cons.2 ⟨hline, hblanks⟩, hmore⟩
    · exact ⟨[], line :: all, rfl, by simp, by simpa using hline⟩

theorem exists_header (all : List Bytes) : ∃ header lengths more, all = header ++ more ∧
    List.Forall₂ Says header lengths ∧ ∀ line ∈ more.head?, ∀ length, ¬Says line length := by
  induction all with
  | nil => exact ⟨[], [], [], rfl, .nil, by simp⟩
  | cons line all ih =>
    by_cases hline : ∃ length, Says line length
    · obtain ⟨length, hlength⟩ := hline
      obtain ⟨header, lengths, more, rfl, hheader, hmore⟩ := ih
      exact ⟨line :: header, length :: lengths, more, rfl, .cons hlength hheader, hmore⟩
    · push Not at hline
      exact ⟨[], [], line :: all, rfl, .nil, by simpa using hline⟩

theorem Heads.exists_reads {length : Option Nat} (h : Heads input length rest) :
    ∃ outcome behind, Reads input outcome behind := by
  cases length with
  | none => exact ⟨_, _, .noLength h⟩
  | some n =>
    by_cases hn : 64 * 1024 * 1024 < n
    · exact ⟨_, _, .tooLong h hn⟩
    · have hn : n ≤ 64 * 1024 * 1024 := Nat.not_lt.1 hn
      by_cases hrest : rest.length < n
      · exact ⟨_, _, .short h hn hrest⟩
      · obtain ⟨outcome, hdecodes⟩ := exists_decodes (rest.take n)
        have hsplit : Heads input (some n) (rest.take n ++ rest.drop n) := by rwa [List.take_append_drop]
        exact ⟨outcome, _, .body hsplit hn (by rw [List.length_take]; omega) hdecodes⟩

theorem exists_reads (input : Bytes) : ∃ outcome behind, Reads input outcome behind := by
  obtain ⟨blanks, rest, hall, hblanks, hfirst⟩ := exists_blanks (lines input)
  obtain ⟨header, lengths, more, rfl, hheader, hnext⟩ := exists_header rest
  have hbegins : Begins input lengths more := ⟨blanks, header, by rw [hall, List.append_assoc], hblanks, hheader⟩
  cases more with
  | nil =>
    by_cases hne : lengths = []
    · exact ⟨_, _, .ended (hne ▸ hbegins)⟩
    · exact ⟨_, _, .unfinished hbegins hne⟩
  | cons line more =>
    cases hparse : Utf8.parse line with
    | error defect =>
      refine ⟨_, _, .notText hbegins ?_ hparse⟩
      rintro text rfl
      simp [Utf8.parse_encode] at hparse
    | ok text =>
      obtain rfl := Utf8.parse_eq_ok.1 hparse
      have hnext : ∀ length, ¬Says (Utf8.encode text) length := hnext _ rfl
      by_cases hblank : Text.trim text = []
      · have hne : lengths ≠ [] := by
          rintro rfl
          obtain rfl := List.forall₂_nil_right_iff.1 hheader
          exact hfirst _ rfl ⟨text, rfl, hblank⟩
        exact Heads.exists_reads ⟨lengths, _, more, hbegins, hne, ⟨text, rfl, hblank⟩, rfl, rfl⟩
      · by_cases hname : ∃ value, Names text value
        · obtain ⟨value, hname⟩ := hname
          exact ⟨_, _, .badLength hbegins hname fun n hn => hnext _ (.length hname hn)⟩
        · push Not at hname
          exact absurd (.other hblank hname) (hnext none)

/-- A read comes out and stops as the grammar says, and in no other way. -/
theorem read_iff_reads (input rest : Bytes) (outcome : Except Error (Option Json)) :
    ((read input).1.mapError Fault.error, (read input).2) = (outcome, rest) ↔ Reads input outcome rest := by
  constructor
  · intro h
    obtain ⟨outcome, rest, hreads⟩ := exists_reads input
    rw [hreads.read] at h
    obtain ⟨rfl, rfl⟩ := Prod.mk.inj h
    exact hreads
  · exact Reads.read

end Total

end Frame
end LanguageHost
