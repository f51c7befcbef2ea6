import LanguageHost.Proofs.Frame.Grammar
import LanguageHost.Proofs.Frame.Torn
import LanguageHost.Proofs.Frame.Messages

/-! Reading again and again takes every input to its end, whatever is wrong in it, and what stands in the body of a
frame changes nothing but what that frame is read as. -/
namespace LanguageHost

namespace Frame

/-- The input from where the reader stands after some calls. -/
def left (calls : Nat) (input : Bytes) : Bytes := (readTimes calls input).2

/-- The input is at its end after `calls` calls. -/
structure Drains (input : Bytes) (calls : Nat) : Prop where
  /-- The call that tells the end is at most the one after as many calls as there are bytes. -/
  bound : calls ≤ input.length
  takes (j : Nat) (h : j < calls) :
    (read (left j input)).1 ≠ .ok none ∧ (left (j + 1) input).length < (left j input).length
  ends : (read (left calls input)).1 = .ok none
  /-- Nothing but blank lines is left then. -/
  blank : ∀ line ∈ lines (left calls input), Blank line
  /-- Whoever goes on after errors gets what these calls give and then the end. -/
  many (count : Nat) : readMany count input = ((readTimes calls input).1 ++ [Except.ok none]).take count

/-- The block is a header as it may be spelled before the body: whole lines up to a blank one, and the length that
counts in them is that of the body. -/
structure Framed (block body : Bytes) : Prop where
  fed : Fed block
  heads : Heads block (some body.length) []
  short : body.length ≤ 64 * 1024 * 1024

/-- Frames one after another, each a header and a body. -/
def joined (frames : List (Bytes × Bytes)) : Bytes := frames.flatMap fun frame => frame.1 ++ frame.2

section Draining
variable {input : Bytes} {calls : Nat}

theorem read_end_iff : (read input).1 = .ok none ↔ ∀ line ∈ lines input, Blank line := by
  constructor
  · intro h
    have hreads : Reads input (.ok none) (read input).2 :=
      (read_iff_reads input _ _).1 (congrArg (fun outcome => (outcome.mapError Fault.error, (read input).2)) h)
    generalize (read input).2 = rest at hreads
    cases hreads with
    | ended hbegins =>
      obtain ⟨blanks, header, hlines, hblanks, hsays⟩ := hbegins
      obtain rfl := List.forall₂_nil_right_iff.1 hsays
      rw [hlines, List.append_nil, List.append_nil]
      exact hblanks
    | body _ _ _ hdecodes => cases hdecodes
  · intro h
    have hbegins : Begins input [] [] := ⟨lines input, [], by simp, h, .nil⟩
    rw [read, hbegins.headers.1, List.flatten_nil, headers]
    rfl

theorem read_length_lt (h : input ≠ []) : (read input).2.length < input.length := by
  have hlt := headers_length_lt false none h
  rw [read]
  cases hheaders : headers false none input with | mk outcome rest
  rw [hheaders] at hlt
  rcases outcome with fault | _ | _ | n
  · exact hlt
  · exact hlt
  · exact hlt
  · dsimp only
    split_ifs
    · exact hlt
    · exact List.length_pos_iff.2 h
    · rw [List.length_drop]
      exact Nat.lt_of_le_of_lt (Nat.sub_le _ _) hlt

theorem ne_nil_of_read (h : (read input).1 ≠ .ok none) : input ≠ [] := by
  rintro rfl
  exact h (by rw [read, headers]; rfl)

theorem readMany_end (h : (read input).1 = .ok none) (count : Nat) :
    readMany count input = [Except.ok none].take count := by
  cases count with
  | zero => rfl
  | succ count =>
    have hread : read input = (.ok none, (read input).2) := Prod.ext h rfl
    rw [readMany, hread, List.take_succ_cons, List.take_nil]

theorem readMany_more (h : (read input).1 ≠ .ok none) (count : Nat) :
    readMany (count + 1) input = (read input).1 :: readMany count (read input).2 := by
  rw [readMany]
  split
  · rename_i hread
    exact absurd (congrArg Prod.fst hread) h
  · rename_i hread
    rw [hread]

theorem Drains.cons (h : (read input).1 ≠ .ok none) (hrest : Drains (read input).2 calls) :
    Drains input (calls + 1) := by
  have hlt := read_length_lt (ne_nil_of_read h)
  constructor
  · exact Nat.le_trans (Nat.succ_le_succ hrest.bound) hlt
  · intro j hj
    cases j with
    | zero => exact ⟨h, hlt⟩
    | succ j => exact hrest.takes j (Nat.lt_of_succ_lt_succ hj)
  · exact hrest.ends
  · exact hrest.blank
  · intro count
    cases count with
    | zero => rfl
    | succ count =>
      rw [readMany_more h, hrest.many]
      rfl

theorem exists_drains (input : Bytes) : ∃ calls, Drains input calls := by
  by_cases h : (read input).1 = .ok none
  · exact ⟨0, Nat.zero_le _, fun j hj => absurd hj (Nat.not_lt_zero j), h, read_end_iff.1 h, readMany_end h⟩
  · have hlt := read_length_lt (ne_nil_of_read h)
    obtain ⟨calls, hcalls⟩ := exists_drains (read input).2
    exact ⟨calls + 1, hcalls.cons h⟩
termination_by input.length

end Draining

section Bodies
variable {block body : Bytes} {frames : List (Bytes × Bytes)}

theorem decodes_decodeBody (body : Bytes) : Decodes body (((decodeBody body).map some).mapError Fault.error) := by
  obtain ⟨outcome, h⟩ := exists_decodes body
  rwa [h.decodeBody]

theorem Framed.read (h : Framed block body) (rest : Bytes) :
    Frame.read (block ++ body ++ rest) = ((decodeBody body).map some, rest) := by
  have hheaders : headers false none (block ++ (body ++ rest)) = (.ok (some (some body.length)), body ++ rest) := by
    rw [headers_append false none h.fed (by simp [h.heads.headers]) (by simp [h.heads.headers]), h.heads.headers]
    rfl
  rw [Frame.read, List.append_assoc, hheaders]
  dsimp only
  rw [bodyLimit, if_neg (Nat.not_lt.2 h.short), if_neg (by simp), List.take_left, List.drop_left]

theorem readMany_joined (h : ∀ frame ∈ frames, Framed frame.1 frame.2) (count : Nat) :
    readMany count (joined frames) =
      (frames.map (fun (frame : Bytes × Bytes) => (decodeBody frame.2).map some) ++ [Except.ok none]).take count := by
  induction frames generalizing count with
  | nil => exact readMany_nil count
  | cons frame frames ih =>
    have hread : read (joined (frame :: frames)) = ((decodeBody frame.2).map some, joined frames) :=
      (h frame List.mem_cons_self).read (joined frames)
    have hmore : (read (joined (frame :: frames))).1 ≠ .ok none := by
      rw [hread]
      cases decodeBody frame.2 <;> simp [Except.map]
    cases count with
    | zero => rfl
    | succ count =>
      rw [readMany_more hmore, hread, ih fun f hf => h f (List.mem_cons_of_mem frame hf)]
      rfl

end Bodies

end Frame

/-- Every input is read to its end, and of frames one after another each gives what its own body decodes to, in whatever
way their headers are spelled and whatever the bodies are. -/
theorem reads_drain (input : Frame.Bytes) (frames : List (Frame.Bytes × Frame.Bytes))
    (h : ∀ frame ∈ frames, Frame.Framed frame.1 frame.2) :
    (∃ calls, Frame.Drains input calls) ∧
    ∃ outcomes, List.Forall₂ (fun frame outcome => Frame.Decodes frame.2 outcome) frames outcomes ∧
      ∀ count, (Frame.readMany count (Frame.joined frames)).map (·.mapError Frame.Fault.error) =
        (outcomes ++ [Except.ok none]).take count := by
  refine ⟨Frame.exists_drains input,
    frames.map fun frame => ((Frame.decodeBody frame.2).map some).mapError Frame.Fault.error, ?_, ?_⟩
  · rw [List.forall₂_map_right_iff, List.forall₂_same]
    exact fun frame _ => Frame.decodes_decodeBody frame.2
  · intro count
    rw [Frame.readMany_joined h, List.map_take, List.map_append, List.map_map]
    rfl

/-- A body that is no value and looks like the header of a longer one, before a frame whose header is spelled in an odd
way. -/
theorem reads_drain_odd_frames :
    let first : Frame.Bytes × Frame.Bytes :=
      (Utf8.encode "Content-Length: 19\n\n".toList, Utf8.encode "Content-Length: 9\n\n".toList)
    let second : Frame.Bytes × Frame.Bytes :=
      (Utf8.encode "\r\nA\nCONTENT-length:+02\r\n \n".toList, Utf8.encode "[]".toList)
    (∀ frame ∈ [first, second], Frame.Framed frame.1 frame.2) ∧
    (Frame.readMany 3 (Frame.joined [first, second])).map (·.mapError Frame.Fault.error) =
      [.error (.json "no JSON value"), .ok (some (.array [])), .ok none] := by
  intro first second
  have hfirst : Frame.Framed first.1 first.2 := by
    have hsays : Frame.Says (Utf8.encode "Content-Length: 19\n".toList) (some 19) :=
      .length ⟨"Content-Length".toList, " 19\n".toList, rfl, by decide, rfl, rfl⟩
        ⟨['1', '9'], .inl rfl, by decide, List.all_eq_true.1 rfl, rfl, by decide⟩
    have hbegins : Frame.Begins first.1 [some 19] [Utf8.encode "\n".toList] :=
      ⟨[], [_], by decide, List.forall_mem_nil _, .cons hsays .nil⟩
    exact ⟨by rintro b ⟨⟩; rfl, ⟨_, _, [], hbegins, by simp, ⟨"\n".toList, rfl, rfl⟩, rfl, rfl⟩, by decide⟩
  have hsecond : Frame.Framed second.1 second.2 := by
    have hother : Frame.Says (Utf8.encode "A\n".toList) none := by
      refine .other (by decide) ?_
      rintro value ⟨name, rest, htext, -⟩
      have hcolon : ':' ∈ "A\n".toList := htext ▸ by simp
      exact absurd hcolon (by decide)
    have hlength : Frame.Says (Utf8.encode "CONTENT-length:+02\r\n".toList) (some 2) :=
      .length ⟨"CONTENT-length".toList, "+02\r\n".toList, rfl, by decide, rfl, rfl⟩
        ⟨['0', '2'], .inr rfl, by decide, List.all_eq_true.1 rfl, rfl, by decide⟩
    have hbegins : Frame.Begins second.1 [none, some 2] [Utf8.encode " \n".toList] :=
      ⟨[Utf8.encode "\r\n".toList], [_, _], by decide, List.forall_mem_singleton.2 ⟨"\r\n".toList, rfl, rfl⟩,
        .cons hother (.cons hlength .nil)⟩
    exact ⟨by rintro b ⟨⟩; rfl, ⟨_, _, [], hbegins, by simp, ⟨" \n".toList, rfl, rfl⟩, rfl, rfl⟩, by decide⟩
  have hall : ∀ frame ∈ [first, second], Frame.Framed frame.1 frame.2 :=
    List.forall_mem_cons.2 ⟨hfirst, List.forall_mem_singleton.2 hsecond⟩
  obtain ⟨-, outcomes, hdecodes, hmany⟩ := reads_drain [] [first, second] hall
  refine ⟨hall, ?_⟩
  rw [hmany]
  obtain _ | ⟨h₁, _ | ⟨h₂, _ | _⟩⟩ := hdecodes
  rw [← h₁.decodeBody, ← h₂.decodeBody, Frame.decodeBody, Frame.decodeBody, Utf8.decode?_encode, Utf8.decode?_encode]
  rfl

end LanguageHost
