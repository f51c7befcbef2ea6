import LanguageHost.Proofs.Frame.Stream

/-! A stream that was cut anywhere is read as the messages before the cut, and the frame that the cut falls in is
read as an error. -/
namespace LanguageHost

namespace Frame

section Cut
variable {message : Json}

theorem read_take_firstLine (message : Json) {count : Nat} (hpos : 0 < count)
    (h : count ≤ (firstLine message).length) :
    ∃ fault, read ((encode message).take count) = (.error fault, []) := by
  have hascii : ∀ c ∈ lengthLine (body message).length, c.toNat < 128 := fun _ hc => (lengthLine_ascii hc).1
  have hcut : (encode message).take count = Utf8.encode ((lengthLine (body message).length).take count) := by
    rw [encode_eq, List.take_append_of_le_length h, firstLine, Utf8.encode_ascii hascii, ← List.map_take,
      Utf8.encode_ascii fun c hc => hascii c (List.mem_of_mem_take hc)]
  have hfeed : 10 ∉ (encode message).take count := by
    rw [encode_eq, List.take_append_of_le_length h]
    exact fun hmem => feed_not_mem_firstLine message (List.mem_of_mem_take hmem)
  have hne : (encode message).take count ≠ [] := by
    simp [encode_ne_nil, Nat.ne_of_gt hpos]
  have hblank : ∀ text, Utf8.parse ((encode message).take count) = .ok text → Text.trim text ≠ [] := by
    intro text htext
    rw [hcut, Utf8.parse_encode, Except.ok.injEq] at htext
    exact htext ▸ trim_lengthLine_ne_nil _ hpos
  obtain ⟨fault, hfault⟩ : ∃ fault, headers false none ((encode message).take count) = (.error fault, []) :=
    headers_torn hne (takeLine_of_not_mem hfeed) hblank
  exact ⟨fault, by rw [read, hfault]⟩

theorem read_short {input rest : Bytes} {n : Nat} (h : headers false none input = (.ok (some (some n)), rest))
    (hlimit : n ≤ bodyLimit) (hshort : rest.length < n) :
    read input = (.error .endOfInput, []) := by
  rw [read, h]
  dsimp only
  rw [if_neg (Nat.not_lt.2 hlimit), if_pos hshort]

/-- A cut behind the first line cuts off the blank line or a part of the body. -/
theorem read_take_rest (h : Sendable message) {count : Nat} (hcount : count < (body message).length + 2) :
    read (firstLine message ++ 10 :: (13 :: 10 :: body message).take count) = (.error .endOfInput, []) := by
  have hheaders := headers_firstLine h ((13 :: 10 :: body message).take count)
  rcases count with _ | _ | count
  · rw [read, hheaders, List.take_zero, headers, if_pos rfl]
  -- A lone carriage return is a blank line as well, but then the body is missing.
  · have hend : headers true (some (body message).length) [13] = (.ok (some (some (body message).length)), []) :=
      headers_blank (List.cons_ne_nil _ _) rfl (Utf8.parse_encode ['\r']) rfl
    exact read_short (hheaders.trans hend) h.short (List.length_pos_iff.2 (body_ne_nil h.integral))
  · have hend := headers_blankLine (some (body message).length) ((body message).take count)
    refine read_short (hheaders.trans hend) h.short ?_
    rw [List.length_take]
    omega

/-- A frame that is cut anywhere is an error, and nothing is left of it. -/
theorem read_take_encode (h : Sendable message) {count : Nat} (hpos : 0 < count)
    (hcount : count < (encode message).length) :
    ∃ fault, read ((encode message).take count) = (.error fault, []) := by
  by_cases hline : count ≤ (firstLine message).length
  · exact read_take_firstLine message hpos hline
  · obtain ⟨extra, rfl⟩ : ∃ extra, count = (firstLine message).length + (extra + 1) :=
      ⟨count - (firstLine message).length - 1, by omega⟩
    rw [encode_eq, List.length_append, List.length_cons, List.length_cons, List.length_cons] at hcount
    rw [encode_eq, List.take_length_add_append, List.take_succ_cons]
    exact ⟨.endOfInput, read_take_rest h (by omega)⟩

end Cut

section Streams
variable {messages whole : List Json} {tail : Bytes} {last : List (Except Fault (Option Json))}

theorem readMany_nil (count : Nat) : readMany count [] = [.ok none].take count := by
  cases count with
  | zero => rfl
  | succ count => rw [readMany, read, headers]; simp

theorem readMany_fault {fault : Fault} {input : Bytes} (h : read input = (.error fault, [])) (count : Nat) :
    readMany count input = [.error fault, .ok none].take count := by
  cases count with
  | zero => rfl
  | succ count => rw [readMany, h, List.take_succ_cons, ← readMany_nil]

/-- What is read from whole frames goes before what is read from the bytes after them. -/
theorem readMany_stream (h : ∀ m ∈ whole, Sendable m)
    (htail : ∀ count, readMany count tail = last.take count) (count : Nat) :
    readMany count (stream whole ++ tail) = (delivered whole ++ last).take count := by
  induction whole generalizing count with
  | nil => exact htail count
  | cons m whole ih =>
    cases count with
    | zero => rfl
    | succ count =>
      have hm := read_encode (h m List.mem_cons_self) (stream whole ++ tail)
      have hrest := ih (fun n hn => h n (List.mem_cons_of_mem m hn)) count
      rw [stream_cons, List.append_assoc, readMany, hm]
      exact congrArg _ hrest

/-- A cut through a stream: the messages whose frames are whole, the others, and what is left of the first of these. -/
structure Cut (messages whole torn : List Json) (tail : Bytes) : Prop where
  parts : messages = whole ++ torn
  /-- Less than a frame is left over, and nothing where no frame follows. -/
  short : ∃ count, tail = (stream torn).take count ∧ ∀ m ∈ torn.head?, count < (encode m).length

theorem Cut.nil (messages : List Json) : Cut messages [] messages [] := by
  refine ⟨rfl, 0, rfl, fun m _ => List.length_pos_iff.2 (encode_ne_nil m)⟩

theorem Cut.cons {m : Json} {torn : List Json} (h : Cut messages whole torn tail) :
    Cut (m :: messages) (m :: whole) torn tail :=
  ⟨congrArg _ h.parts, h.short⟩

end Streams

end Frame

namespace Sink

variable {s : Sink} {messages : List Json} {room : Nat}

theorem sendMany_full (hroom : s.room = some room) (hfull : room ≤ s.taken.length) (hchunk : s.chunk ≠ some 0) :
    s.sendMany messages = (s, List.replicate messages.length (.error closed)) := by
  induction messages with
  | nil => rfl
  | cons m messages ih =>
    have hfits : s.fits (Frame.encode m).length = 0 := by simp only [fits, hroom]; omega
    have hsend : s.send m = (s, .error closed) := by
      simp [send, writeAll_eq hchunk, hfits, Frame.encode_ne_nil]
    rw [sendMany_cons, hsend, ih, List.length_cons, List.replicate_succ]

/-- Messages are written until one does not fit, and from then on nothing is. -/
theorem sendMany_cut (s : Sink) (messages : List Json) (hroom : s.room = some room) (hchunk : s.chunk ≠ some 0) :
    ∃ whole torn tail, Frame.Cut messages whole torn tail ∧
      Frame.stream whole ++ tail = (Frame.stream messages).take (room - s.taken.length) ∧
      s.sendMany messages =
        ({ s with taken := s.taken ++ (Frame.stream whole ++ tail) },
          List.replicate whole.length (.ok ()) ++ List.replicate torn.length (.error closed)) := by
  induction messages generalizing s with
  | nil => exact ⟨[], [], [], .nil [], by simp [Frame.stream], by simp [sendMany, Frame.stream]⟩
  | cons m messages ih =>
    have hfits : s.fits (Frame.encode m).length = min (Frame.encode m).length (room - s.taken.length) := by
      simp only [fits, hroom]
    -- The first frame that there is no room for fills the sink, and no later one gets anything.
    by_cases hwhole : (Frame.encode m).length ≤ room - s.taken.length
    · have hm : s.send m = ({ s with taken := s.taken ++ Frame.encode m }, .ok ()) := by
        simp [send, writeAll_eq hchunk, hfits, hwhole]
      obtain ⟨whole, torn, tail, hcut, htake, hmany⟩ :=
        ih { s with taken := s.taken ++ Frame.encode m } hroom hchunk
      refine ⟨m :: whole, torn, tail, hcut.cons, ?_, ?_⟩
      · have hroom' : room - s.taken.length =
            (Frame.encode m).length + (room - (s.taken ++ Frame.encode m).length) := by
          rw [List.length_append]
          omega
        rw [Frame.stream_cons, Frame.stream_cons, List.append_assoc, htake, hroom', List.take_length_add_append]
      · rw [sendMany_cons, hm, hmany, Frame.stream_cons]
        simp [List.replicate_succ]
    · have hm : s.send m =
          ({ s with taken := s.taken ++ (Frame.encode m).take (room - s.taken.length) }, .error closed) := by
        have hmin : min (Frame.encode m).length (room - s.taken.length) = room - s.taken.length := by omega
        simp [send, writeAll_eq hchunk, hfits, hmin, hwhole]
      have htail : (Frame.encode m).take (room - s.taken.length) =
          (Frame.stream (m :: messages)).take (room - s.taken.length) := by
        rw [Frame.stream_cons, List.take_append_of_le_length (by omega)]
      refine ⟨[], m :: messages, _, ⟨rfl, _, htail, ?_⟩, htail, ?_⟩
      · simpa using hwhole
      · have hlength : room ≤ (s.taken ++ (Frame.encode m).take (room - s.taken.length)).length := by
          rw [List.length_append, List.length_take]
          omega
        have hfull : sendMany { s with taken := s.taken ++ (Frame.encode m).take (room - s.taken.length) } messages =
            (_, _) :=
          sendMany_full hroom hlength hchunk
        rw [sendMany_cons, hm, hfull]
        rfl

end Sink

namespace Frame

/-- What comes of messages that are written to a sink that fails once it took `room` bytes, and of reading what it
took: the first `whole` messages pass. -/
structure Torn (messages : List Json) (room : Nat) (taken : Bytes) (outcomes : List (Except Error Unit)) (whole : Nat) :
    Prop where
  taken_eq : taken = (stream messages).take (min room (stream messages).length)
  outcomes_eq : whole ≤ messages.length ∧
    outcomes = List.replicate whole (.ok ()) ++ List.replicate (messages.length - whole) (.error Sink.closed)
  whole_iff (i : Nat) (h : i < messages.length) : i < whole ↔ (stream (messages.take (i + 1))).length ≤ taken.length
  /-- Where the last frame is whole the reader finds the end behind it. -/
  boundary (h : ∃ i, taken = stream (messages.take i)) (count : Nat) :
    readMany count taken = (delivered (messages.take whole) ++ [Except.ok none]).take count
  /-- Where it is not, the reader finds an error and then the end. -/
  inside (h : ¬∃ i, taken = stream (messages.take i)) :
    ∃ fault, ∀ count,
      readMany count taken = (delivered (messages.take whole) ++ [Except.error fault, Except.ok none]).take count

section Cut
variable {messages whole torn : List Json} {tail : Bytes}

theorem stream_take_le (messages : List Json) (i : Nat) :
    (stream (messages.take i)).length ≤ (stream messages).length := by
  conv_rhs => rw [← List.take_append_drop i messages, stream_append, List.length_append]
  exact Nat.le_add_right _ _

namespace Cut

theorem tail_short (h : Cut messages whole torn tail) :
    (torn = [] ∧ tail = []) ∨
      ∃ m rest, torn = m :: rest ∧ tail.length < (encode m).length ∧ tail = (encode m).take tail.length := by
  obtain ⟨count, htail, hcount⟩ := h.short
  cases torn with
  | nil => exact .inl ⟨rfl, htail.trans (List.take_nil)⟩
  | cons m rest =>
    have hlt : count < (encode m).length := hcount m rfl
    rw [stream_cons, List.take_append_of_le_length (Nat.le_of_lt hlt)] at htail
    have hlength : tail.length = count := by
      rw [htail, List.length_take]
      omega
    exact .inr ⟨m, rest, rfl, by omega, by rw [hlength, htail]⟩

theorem whole_iff (h : Cut messages whole torn tail) {i : Nat} (hi : i < messages.length) :
    i < whole.length ↔ (stream (messages.take (i + 1))).length ≤ (stream whole ++ tail).length := by
  have hparts := h.parts
  subst hparts
  rw [List.length_append] at hi
  rw [List.length_append]
  by_cases hlt : i < whole.length
  · have hle := stream_take_le whole (i + 1)
    rw [List.take_append_of_le_length (by omega)]
    exact ⟨fun _ => by omega, fun _ => hlt⟩
  · obtain ⟨rfl, rfl⟩ | ⟨m, rest, rfl, hshort, _⟩ := h.tail_short
    · exact absurd hi (by simpa using hlt)
    · obtain ⟨j, rfl⟩ : ∃ j, i = whole.length + j := ⟨i - whole.length, by omega⟩
      rw [Nat.add_assoc, List.take_length_add_append, List.take_succ_cons,
        stream_append, stream_cons, List.length_append, List.length_append]
      exact ⟨fun hlt' => by omega, fun hle => by omega⟩

theorem tail_eq_nil_iff (h : Cut messages whole torn tail) :
    tail = [] ↔ ∃ i, stream whole ++ tail = stream (messages.take i) := by
  constructor
  · rintro rfl
    exact ⟨whole.length, by rw [List.append_nil, h.parts, List.take_left]⟩
  · rintro ⟨i, hi⟩
    by_contra hne
    have hpos : 0 < tail.length := List.length_pos_iff.2 hne
    have hlength := congrArg List.length hi
    rw [List.take_eq_take_min] at hlength
    -- A stream that ends with frame `j` has that frame whole, and then nothing is left over behind the whole ones.
    rcases hj : min i messages.length with _ | j
    · have hnil : (stream []).length = 0 := rfl
      rw [hj, List.take_zero, List.length_append] at hlength
      omega
    · rw [hj] at hlength
      have hbefore : j < whole.length := (h.whole_iff (by omega)).2 (by omega)
      have hle := stream_take_le whole (j + 1)
      rw [h.parts, List.take_append_of_le_length (by omega), List.length_append] at hlength
      omega

theorem readMany_boundary (h : Cut messages whole torn []) (hsend : ∀ m ∈ messages, Sendable m) (count : Nat) :
    readMany count (stream whole ++ []) = (delivered whole ++ [Except.ok none]).take count :=
  readMany_stream (fun m hm => hsend m (h.parts ▸ List.mem_append_left _ hm)) readMany_nil count

theorem readMany_inside (h : Cut messages whole torn tail) (htail : tail ≠ [])
    (hsend : ∀ m ∈ messages, Sendable m) :
    ∃ fault, ∀ count,
      readMany count (stream whole ++ tail) = (delivered whole ++ [Except.error fault, Except.ok none]).take count := by
  obtain ⟨_, rfl⟩ | ⟨m, rest, rfl, hshort, htake⟩ := h.tail_short
  · exact absurd rfl htail
  · have hm : Sendable m := hsend m (h.parts ▸ by simp)
    obtain ⟨fault, hfault⟩ := read_take_encode hm (List.length_pos_iff.2 htail) hshort
    rw [← htake] at hfault
    exact ⟨fault, readMany_stream
      (fun n hn => hsend n (h.parts ▸ List.mem_append_left _ hn)) (readMany_fault hfault)⟩

end Cut

end Cut

end Frame

/-- Messages written to a sink that fails at some point, a few bytes at a time: those whose frames were taken whole are
the ones reported as written, and the ones that are read back. -/
theorem torn_stream (messages : List Json) (h : ∀ m ∈ messages, Frame.Sendable m)
    (room chunk : Nat) (hchunk : 0 < chunk) :
    ∃ whole, Frame.Torn messages room (Sink.sendMany ⟨some room, some chunk, []⟩ messages).1.taken
      (Sink.sendMany ⟨some room, some chunk, []⟩ messages).2 whole := by
  have hsome : some chunk ≠ some 0 := by simpa using Nat.ne_of_gt hchunk
  obtain ⟨whole, torn, tail, hcut, htake, hmany⟩ :=
    Sink.sendMany_cut ⟨some room, some chunk, []⟩ messages rfl hsome
  rw [hmany]
  refine ⟨whole.length, ?_⟩
  have hwhole : messages.take whole.length = whole := by rw [hcut.parts, List.take_left]
  have htorn : messages.length - whole.length = torn.length := by
    rw [hcut.parts, List.length_append]
    omega
  constructor
  · exact htake.trans List.take_eq_take_min
  · exact ⟨by rw [hcut.parts, List.length_append]; omega, by rw [htorn]⟩
  · exact fun i hi => hcut.whole_iff hi
  · intro hboundary count
    obtain rfl := hcut.tail_eq_nil_iff.2 hboundary
    rw [hwhole]
    exact hcut.readMany_boundary h count
  · intro hinside
    rw [hwhole]
    exact hcut.readMany_inside (mt hcut.tail_eq_nil_iff.1 hinside) h

/-- The second of two messages is cut in the middle of a letter. -/
theorem torn_stream_letter :
    let messages : List Json := [.bool true, .string "é"]
    (∀ m ∈ messages, Frame.Sendable m) ∧ 0 < 2 ∧
    (Sink.sendMany ⟨some 48, some 2, []⟩ messages).2 = [.ok (), .error Sink.closed] ∧
    ∃ fault, ∀ count, Frame.readMany count (Sink.sendMany ⟨some 48, some 2, []⟩ messages).1.taken =
      [Except.ok (some (.bool true)), Except.error fault, Except.ok none].take count := by
  intro messages
  have hall : ∀ m ∈ messages, Frame.Sendable m :=
    List.forall_mem_cons.2 ⟨⟨rfl, by decide, by decide⟩,
      List.forall_mem_singleton.2 ⟨rfl, by decide, by decide⟩⟩
  obtain ⟨whole, htorn⟩ := torn_stream messages hall 48 2 (by decide)
  have hlength : (Sink.sendMany ⟨some 48, some 2, []⟩ messages).1.taken.length = 48 := by
    rw [htorn.taken_eq]
    decide
  have hfirst : 0 < whole := (htorn.whole_iff 0 (by decide)).2 (by rw [hlength]; decide)
  have hsecond : ¬1 < whole := fun h => absurd ((htorn.whole_iff 1 (by decide)).1 h) (by rw [hlength]; decide)
  obtain rfl : whole = 1 := by omega
  refine ⟨hall, by decide, htorn.outcomes_eq.2, htorn.inside ?_⟩
  rintro ⟨i, hi⟩
  have hi' := congrArg List.length hi
  rw [hlength] at hi'
  rcases i with _ | _ | i
  · exact absurd hi' (by decide)
  · exact absurd hi' (by decide)
  · rw [List.take_of_length_le (by simp [messages])] at hi'
    exact absurd hi' (by decide)

end LanguageHost
