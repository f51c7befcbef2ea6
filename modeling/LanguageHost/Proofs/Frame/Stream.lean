import LanguageHost.Proofs.Frame.Header
import LanguageHost.Proofs.Json.ReadBack
import LanguageHost.Sink

/-! Frames delimit themselves: what was written message after message is read back message after message, and the
reader then stands where the last frame ends. -/
namespace LanguageHost

namespace Frame

def body (message : Json) : Bytes := Utf8.encode message.write

structure Sendable (message : Json) : Prop where
  integral : message.isExact
  shallow : message.nesting ≤ Json.depthLimit
  short : (body message).length ≤ bodyLimit

/-- Messages one after another, each in its frame. -/
def stream (messages : List Json) : Bytes := messages.flatMap encode

/-- Reads `count` times whatever comes of it: what was read, and the input from where the reader then stands. -/
def readTimes : Nat → Bytes → List (Except Fault (Option Json)) × Bytes
  | 0, input => ([], input)
  | count + 1, input => ((read input).1 :: (readTimes count (read input).2).1, (readTimes count (read input).2).2)

def delivered (messages : List Json) : List (Except Fault (Option Json)) := messages.map fun m => .ok (some m)

/-- The line of a frame that gives the length, up to its line feed. -/
def firstLine (message : Json) : Bytes := Utf8.encode (lengthLine (body message).length)

section Frames
variable {message : Json}

theorem encode_eq (message : Json) : encode message = firstLine message ++ 10 :: 13 :: 10 :: body message := by
  have hend : Utf8.encode ['\r', '\n', '\r', '\n'] = [13, 10, 13, 10] := rfl
  have hreturn : Utf8.encode ['\r'] = [13] := rfl
  have hencode : encode message =
      Utf8.encode (lengthName ++ Json.natDigits (body message).length ++ ['\r', '\n', '\r', '\n']) ++ body message := rfl
  simp only [hencode, Utf8.encode_append, hend, firstLine, lengthLine, hreturn, List.append_assoc, List.cons_append,
    List.nil_append]

theorem encode_ne_nil (message : Json) : encode message ≠ [] := by
  rw [encode_eq]
  simp

theorem feed_not_mem_firstLine (message : Json) : 10 ∉ firstLine message :=
  Utf8.feed_not_mem_encode (fun _ hc => (lengthLine_ascii hc).1) fun hmem => (lengthLine_ascii hmem).2 rfl

theorem body_ne_nil (h : message.isExact) : body message ≠ [] := by
  obtain ⟨c, s, hs, _⟩ := Json.write_cons (Json.whole_of_exact h)
  exact Utf8.encode_ne_nil (hs ▸ List.cons_ne_nil c s)

theorem trim_lengthLine_ne_nil (n : Nat) {count : Nat} (h : 0 < count) :
    Text.trim ((lengthLine n).take count) ≠ [] := by
  obtain ⟨count, rfl⟩ := Nat.exists_eq_add_one_of_ne_zero (Nat.ne_of_gt h)
  rw [lengthLine, lengthName_eq, List.cons_append, List.take_succ_cons]
  exact Text.trim_ne_nil List.mem_cons_self rfl

theorem headers_firstLine (h : Sendable message) (rest : Bytes) :
    headers false none (firstLine message ++ 10 :: rest) = headers true (some (body message).length) rest := by
  have hline := takeLine_append (feed_not_mem_firstLine message) rest
  have htext : Utf8.parse (firstLine message ++ [10]) = .ok (lengthLine (body message).length ++ ['\n']) := by
    have hfeed : ([10] : Bytes) = Utf8.encode ['\n'] := rfl
    rw [firstLine, hfeed, ← Utf8.encode_append, Utf8.parse_encode]
  have hheader := header_lengthLine (Nat.lt_of_le_of_lt h.short (by decide))
  have hblank : Text.trim (lengthLine (body message).length ++ ['\n']) ≠ [] := by
    rw [lengthLine, lengthName_eq]
    exact Text.trim_ne_nil List.mem_cons_self rfl
  have hne : firstLine message ++ 10 :: rest ≠ [] := by simp
  exact (headers_line hne hline htext hblank).2.1 _ hheader

theorem headers_blankLine (length : Option Nat) (rest : Bytes) :
    headers true length (13 :: 10 :: rest) = (.ok (some length), rest) :=
  headers_blank (List.cons_ne_nil _ _) rfl (Utf8.parse_encode ['\r', '\n']) rfl

theorem decodeBody_body (h : Sendable message) : decodeBody (body message) = .ok message := by
  have hread : (Utf8.decode? (body message)).bind Json.read? = some message := by
    rw [body, Utf8.decode?_encode]
    exact Json.read?_write (Json.whole_of_exact h.integral) h.shallow
  rw [decodeBody, hread]

/-- A frame is read as its message, whatever follows. -/
theorem read_encode (h : Sendable message) (rest : Bytes) :
    read (encode message ++ rest) = (.ok (some message), rest) := by
  have hheaders : headers false none (encode message ++ rest) =
      (.ok (some (some (body message).length)), body message ++ rest) := by
    rw [encode_eq, List.append_assoc]
    exact (headers_firstLine h _).trans (headers_blankLine _ _)
  have hlength : ¬(body message ++ rest).length < (body message).length := by simp
  rw [read, hheaders]
  dsimp only
  rw [if_neg (Nat.not_lt.2 h.short), if_neg hlength, List.take_left, List.drop_left, decodeBody_body h]
  rfl

end Frames

section Streams
variable {messages : List Json}

theorem stream_cons (message : Json) (messages : List Json) :
    stream (message :: messages) = encode message ++ stream messages :=
  List.flatMap_cons

theorem stream_append (first second : List Json) : stream (first ++ second) = stream first ++ stream second :=
  List.flatMap_append

theorem readTimes_stream (h : ∀ m ∈ messages, Sendable m) (rest : Bytes) :
    readTimes messages.length (stream messages ++ rest) = (delivered messages, rest) := by
  induction messages with
  | nil => rfl
  | cons m messages ih =>
    have hm := read_encode (h m List.mem_cons_self) (stream messages ++ rest)
    rw [List.length_cons, stream_cons, List.append_assoc, readTimes, hm, ih fun n hn => h n (List.mem_cons_of_mem m hn)]
    rfl

end Streams

end Frame

namespace Sink

/-- How many of `n` more bytes there is room for. -/
def fits (s : Sink) (n : Nat) : Nat :=
  match s.room with
  | some room => min n (room - s.taken.length)
  | none => n

section Bytes
variable {s : Sink} {bytes : Frame.Bytes}

theorem accepts_le_fits (s : Sink) (n : Nat) : s.accepts n ≤ s.fits n := by
  cases hroom : s.room <;> cases hchunk : s.chunk <;> simp only [accepts, fits, hroom, hchunk] <;> omega

theorem accepts_pos (hchunk : s.chunk ≠ some 0) {n : Nat} (h : 0 < s.fits n) : 0 < s.accepts n := by
  cases hroom : s.room <;> cases hsize : s.chunk <;> simp_all only [accepts, fits, ne_eq, Option.some.injEq] <;> omega

theorem fits_le (s : Sink) (n : Nat) : s.fits n ≤ n := by
  cases hroom : s.room <;> simp only [fits, hroom] <;> omega

theorem fits_drop {n : Nat} (h : n ≤ s.fits bytes.length) :
    { s with taken := s.taken ++ bytes.take n }.fits (bytes.drop n).length = s.fits bytes.length - n := by
  have hn : n ≤ bytes.length := Nat.le_trans h (s.fits_le _)
  cases hroom : s.room with
  | none => simp only [fits, hroom, List.length_drop]
  | some room =>
    simp only [fits, hroom, List.length_drop, List.length_append, List.length_take]
    omega

/-- A sink that takes something from each write takes all that there is room for. -/
theorem writeAll_eq (hchunk : s.chunk ≠ some 0) :
    s.writeAll bytes =
      ({ s with taken := s.taken ++ bytes.take (s.fits bytes.length) },
        decide (bytes.length ≤ s.fits bytes.length)) := by
  fun_induction writeAll s bytes with
  | case1 s bytes hempty =>
    obtain rfl := List.isEmpty_iff.1 hempty
    simp
  | case2 s bytes hempty hnone =>
    have hzero : s.fits bytes.length = 0 := by
      by_contra hne
      exact absurd (accepts_pos hchunk (Nat.pos_of_ne_zero hne)) (by simp [hnone])
    have hlength : ¬bytes.length ≤ 0 := by simpa using hempty
    simp [hzero, hlength]
  | case3 s bytes hempty n hsome ih =>
    have hn : n + 1 ≤ s.fits bytes.length := le_of_eq_of_le hsome.symm (s.accepts_le_fits bytes.length)
    have htake : bytes.take (n + 1) ++ (bytes.drop (n + 1)).take (s.fits bytes.length - (n + 1)) =
        bytes.take (s.fits bytes.length) := by
      rw [← List.take_add, Nat.add_sub_cancel' hn]
    have hdone : (bytes.drop (n + 1)).length ≤ s.fits bytes.length - (n + 1) ↔
        bytes.length ≤ s.fits bytes.length := by
      rw [List.length_drop]
      omega
    rw [ih hchunk, fits_drop hn, List.append_assoc, htake]
    simp only [hdone]

theorem writeAll_done (h : (s.writeAll bytes).2 = true) :
    (s.writeAll bytes).1 = { s with taken := s.taken ++ bytes } := by
  fun_induction writeAll s bytes with
  | case1 s bytes hempty =>
    obtain rfl := List.isEmpty_iff.1 hempty
    simp
  | case2 s bytes hempty hnone => simp at h
  | case3 s bytes hempty n hsome ih =>
    rw [ih h]
    simp

end Bytes

section Messages
variable {s : Sink} {messages : List Json}

theorem send_ok {message : Json} (h : (s.send message).2 = .ok ()) :
    (s.send message).1 = { s with taken := s.taken ++ Frame.encode message } := by
  apply writeAll_done
  by_contra hnot
  simp [send, hnot] at h

theorem sendMany_cons (m : Json) (messages : List Json) :
    s.sendMany (m :: messages) =
      (((s.send m).1.sendMany messages).1, (s.send m).2 :: ((s.send m).1.sendMany messages).2) :=
  rfl

/-- Messages that are all reported as written have been taken, each in its frame. -/
theorem sendMany_ok (h : (s.sendMany messages).2 = List.replicate messages.length (.ok ())) :
    (s.sendMany messages).1 = { s with taken := s.taken ++ Frame.stream messages } := by
  induction messages generalizing s with
  | nil => simp [sendMany, Frame.stream]
  | cons m messages ih =>
    rw [sendMany_cons, List.length_cons, List.replicate_succ, List.cons.injEq] at h
    rw [sendMany_cons, ih h.2, send_ok h.1, Frame.stream_cons, List.append_assoc]

theorem sendMany_endless (hroom : s.room = none) (hchunk : s.chunk ≠ some 0) :
    (s.sendMany messages).2 = List.replicate messages.length (.ok ()) := by
  induction messages generalizing s with
  | nil => rfl
  | cons m messages ih =>
    have hfits : s.fits (Frame.encode m).length = (Frame.encode m).length := by simp only [fits, hroom]
    have hm : s.send m = ({ s with taken := s.taken ++ Frame.encode m }, .ok ()) := by
      simp [send, writeAll_eq hchunk, hfits]
    rw [sendMany_cons, hm, List.length_cons, List.replicate_succ, List.cons.injEq]
    exact ⟨rfl, ih hroom hchunk⟩

end Messages

end Sink

/-- What a sink was given and took is read back from its bytes, message after message, and the reader then stands
at whatever follows them. A sink without end takes everything. -/
theorem round_trip (messages : List Json) (h : ∀ m ∈ messages, Frame.Sendable m) (s : Sink) (rest : Frame.Bytes) :
    (s.room = none → s.chunk ≠ some 0 → (s.sendMany messages).2 = List.replicate messages.length (.ok ())) ∧
    ((s.sendMany messages).2 = List.replicate messages.length (.ok ()) →
      (s.sendMany messages).1.taken = s.taken ++ Frame.stream messages) ∧
    Frame.readTimes messages.length (Frame.stream messages ++ rest) = (Frame.delivered messages, rest) := by
  refine ⟨Sink.sendMany_endless, fun hok => ?_, Frame.readTimes_stream h rest⟩
  rw [Sink.sendMany_ok hok]

/-- A message of all kinds of values, written three bytes at a time, and the beginning of another frame behind it. -/
theorem round_trip_nested :
    let message : Json := .object [("a", .array [.int (-0x8000000000000000), .int 0xFFFFFFFFFFFFFFFF, .null]),
      ("é", .string "\n😀")]
    Frame.Sendable message ∧
    (Sink.sendMany ⟨none, some 3, []⟩ [message, .bool true]).2 = [.ok (), .ok ()] ∧
    (Sink.sendMany ⟨none, some 3, []⟩ [message, .bool true]).1.taken =
      Frame.encode message ++ Frame.encode (.bool true) ∧
    Frame.readTimes 2 (Frame.encode message ++ Frame.encode (.bool true) ++ [67, 111]) =
      ([.ok (some message), .ok (some (.bool true))], [67, 111]) := by
  intro message
  have hmessage : Frame.Sendable message := ⟨by decide, by decide, by decide⟩
  have hall : ∀ m ∈ [message, .bool true], Frame.Sendable m := by
    rintro m (_ | ⟨_, _ | ⟨_, h⟩⟩)
    · exact hmessage
    · exact ⟨rfl, by decide, by decide⟩
    · cases h
  obtain ⟨hendless, htaken, hread⟩ := round_trip [message, .bool true] hall ⟨none, some 3, []⟩ [67, 111]
  have hok := hendless rfl (by decide)
  have hstream : Frame.stream [message, .bool true] = Frame.encode message ++ Frame.encode (.bool true) := by
    rw [Frame.stream_cons, Frame.stream_cons]
    exact congrArg _ (List.append_nil _)
  rw [hstream] at htaken hread
  exact ⟨hmessage, hok, htaken hok, hread⟩

end LanguageHost
