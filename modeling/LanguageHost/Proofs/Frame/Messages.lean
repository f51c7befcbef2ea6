import LanguageHost.Proofs.Frame.Stream

/-! What a reader gets out of an input before something in it is no message. -/
namespace LanguageHost.Frame

section Progress
variable {input rest : Bytes} {message : Json}

theorem takeLine_suffix (input : Bytes) : (takeLine input).2 <:+ input := by
  induction input with
  | nil => exact List.suffix_rfl
  | cons b s ih =>
    rw [takeLine]
    split_ifs
    · exact List.suffix_cons b s
    · exact ih.trans (List.suffix_cons b s)

theorem headers_suffix (seen : Bool) (length : Option Nat) (input : Bytes) :
    (headers seen length input).2 <:+ input := by
  fun_induction headers seen length input with
  | case1 => exact List.suffix_rfl
  | case2 | case3 | case7 => exact takeLine_suffix _
  | case4 _ _ _ _ _ _ _ _ _ ih | case5 _ _ _ _ _ _ _ _ _ ih | case6 _ _ _ _ _ _ _ _ _ _ ih =>
    exact ih.trans (takeLine_suffix _)

theorem headers_length_lt (seen : Bool) (length : Option Nat) (h : input ≠ []) :
    (headers seen length input).2.length < input.length := by
  fun_cases headers seen length input with
  | case1 => exact absurd rfl h
  | case2 b s | case3 b s | case7 b s => exact takeLine_length b s
  | case4 b s | case5 b s | case6 b s => exact Nat.lt_of_le_of_lt (headers_suffix ..).length_le (takeLine_length b s)

/-- A message stands between a header that gives its length and where the reader stands afterwards. -/
theorem read_some (h : read input = (.ok (some message), rest)) :
    ∃ n behind, headers false none input = (.ok (some (some n)), behind) ∧ n ≤ behind.length ∧
      decodeBody (behind.take n) = .ok message ∧ rest = behind.drop n := by
  rw [read] at h
  cases hheaders : headers false none input with | mk outcome behind
  rw [hheaders] at h
  rcases outcome with fault | _ | _ | n
  · simp at h
  · simp at h
  · simp at h
  · dsimp only at h
    split_ifs at h with hlimit hshort
    · simp at h
    · simp at h
    · obtain ⟨hmap, hrest⟩ := Prod.mk.inj h
      cases hbody : decodeBody (behind.take n) with
      | error fault => simp [hbody, Except.map] at hmap
      | ok v =>
        simp only [hbody, Except.map, Except.ok.injEq, Option.some.injEq] at hmap
        exact ⟨n, behind, rfl, Nat.not_lt.1 hshort, by rw [hbody, hmap], hrest.symm⟩

theorem read_progress (h : read input = (.ok (some message), rest)) : rest.length < input.length := by
  obtain ⟨n, behind, hheaders, -, -, rfl⟩ := read_some h
  have hne : input ≠ [] := by
    rintro rfl
    simp [headers] at hheaders
  have hlt := headers_length_lt false none hne
  rw [hheaders] at hlt
  rw [List.length_drop]
  exact Nat.lt_of_le_of_lt (Nat.sub_le _ _) hlt

end Progress

/-- The messages of an input up to its end or the first thing in it that is no message. -/
def messages (input : Bytes) : List Json :=
  match _hread : read input with
  | (.ok (some message), rest) => message :: messages rest
  | _ => []
termination_by input.length
decreasing_by exact read_progress _hread

theorem messages_of_read {input rest : Bytes} {message : Json} (h : read input = (.ok (some message), rest)) :
    messages input = message :: messages rest := by
  rw [messages]
  split <;> simp_all

theorem messages_of_not {input : Bytes} (h : ∀ message rest, read input ≠ (.ok (some message), rest)) :
    messages input = [] := by
  rw [messages]
  split
  · rename_i heq
    exact absurd heq (h _ _)
  · rfl

theorem messages_stream {sent : List Json} (h : ∀ m ∈ sent, Sendable m) (rest : Bytes) :
    messages (stream sent ++ rest) = sent ++ messages rest := by
  induction sent with
  | nil => rfl
  | cons m sent ih =>
    have hm := read_encode (h m List.mem_cons_self) (stream sent ++ rest)
    rw [stream_cons, List.append_assoc, messages_of_read hm, ih fun n hn => h n (List.mem_cons_of_mem m hn)]
    rfl

section Growing
variable {input rest : Bytes}

/-- Every line of the input ends with its line feed. -/
def Fed (input : Bytes) : Prop := ∀ b ∈ input.getLast?, b = 10

theorem wholeLines_append (input : Bytes) : ∃ tail, input = wholeLines input ++ tail :=
  ⟨(input.reverse.takeWhile (· != 10)).reverse, by
    rw [wholeLines, ← List.reverse_append, List.takeWhile_append_dropWhile, List.reverse_reverse]⟩

theorem wholeLines_fed (input : Bytes) : Fed (wholeLines input) := by
  intro b hb
  rw [wholeLines, List.getLast?_reverse] at hb
  have hhead := List.head?_dropWhile_not (· != 10) input.reverse
  rw [Option.mem_def.1 hb] at hhead
  simpa using hhead

theorem Fed.takeLine {b : UInt8} {s : Bytes} (h : Fed (b :: s)) (more : Bytes) :
    takeLine (b :: s ++ more) = ((takeLine (b :: s)).1, (takeLine (b :: s)).2 ++ more) ∧
      Fed (Frame.takeLine (b :: s)).2 := by
  have hmem : 10 ∈ b :: s := by
    have hlast : (b :: s).getLast (List.cons_ne_nil b s) = 10 := h _ (List.getLast?_eq_getLast_of_ne_nil _)
    exact hlast ▸ List.getLast_mem _
  obtain ⟨line, rest, hsplit, hline⟩ := List.eq_append_cons_of_mem hmem
  rw [hsplit] at h ⊢
  rw [List.append_assoc, List.cons_append, takeLine_append hline, takeLine_append hline]
  refine ⟨rfl, fun c hc => h c ?_⟩
  simp [List.getLast?_append, List.getLast?_cons, Option.mem_def.1 hc]

/-- The header of an input of whole lines is not changed by what comes later, once it is decided. -/
theorem headers_append (seen : Bool) (length : Option Nat) (h : Fed input)
    (hend : (headers seen length input).1 ≠ .error .endOfInput)
    (hnone : (headers seen length input).1 ≠ .ok none) (more : Bytes) :
    headers seen length (input ++ more) = ((headers seen length input).1, (headers seen length input).2 ++ more) := by
  have hne {b : UInt8} {s : Bytes} : b :: s ++ more ≠ [] := List.cons_ne_nil b (s ++ more)
  fun_induction headers seen length input with
  | case1 seen length => cases seen <;> simp at hend hnone
  | case2 seen length b s defect htext => exact headers_notText hne (h.takeLine more).1 htext
  | case3 length b s text htext line hblank =>
    exact headers_blank hne (h.takeLine more).1 htext (List.isEmpty_iff.1 hblank)
  | case4 seen length b s text htext line hblank hseen ih =>
    obtain ⟨hline, hfed⟩ := h.takeLine more
    rw [← ih hfed hend hnone, Bool.eq_false_of_not_eq_true hseen]
    exact headers_leading hne hline htext (List.isEmpty_iff.1 hblank)
  | case5 seen length b s text htext line hblank hheader ih =>
    obtain ⟨hline, hfed⟩ := h.takeLine more
    rw [← ih hfed hend hnone]
    exact (headers_line hne hline htext (mt List.isEmpty_iff.2 hblank)).1 hheader
  | case6 seen length b s text htext line hblank n hheader ih =>
    obtain ⟨hline, hfed⟩ := h.takeLine more
    rw [← ih hfed hend hnone]
    exact (headers_line hne hline htext (mt List.isEmpty_iff.2 hblank)).2.1 n hheader
  | case7 seen length b s text htext line hblank value hheader =>
    exact (headers_line hne (h.takeLine more).1 htext (mt List.isEmpty_iff.2 hblank)).2.2 value hheader

/-- What is read from a growing input, and where the reader then stands, is read from the whole input. -/
theorem read_of_next? {outcome : Except Fault Json} (h : next? input = some (outcome, rest)) (more : Bytes) :
    read (input ++ more) = (outcome.map some, rest ++ more) := by
  obtain ⟨tail, htail⟩ := wholeLines_append input
  obtain ⟨before, hbefore⟩ := headers_suffix false none (wholeLines input)
  have happend := headers_append false none (wholeLines_fed input)
  cases hheaders : headers false none (wholeLines input) with | mk result left
  rw [hheaders] at hbefore happend
  -- The header is told from whole lines, and none of these changes when more comes.
  have hwhole (more : Bytes) (hend : result ≠ .error .endOfInput) (hnone : result ≠ .ok none) :
      headers false none (input ++ more) = (result, left ++ tail ++ more) := by
    rw [htail, List.append_assoc, happend hend hnone, List.append_assoc]
  have hleft : input.drop ((wholeLines input).length - left.length) = left ++ tail := by
    have hlength : (wholeLines input).length - left.length = before.length := by
      rw [← hbefore, List.length_append, Nat.add_sub_cancel]
    rw [hlength, htail, ← hbefore, List.append_assoc, List.drop_left]
  unfold next? at h
  simp only [hheaders, hleft] at h
  split at h
  · cases h
  · cases h
  next fault hfault =>
    obtain ⟨rfl, rfl⟩ := Prod.mk.inj (Option.some.inj h)
    rw [read, hwhole more (by simpa using hfault) (by simp)]
    rfl
  · obtain ⟨rfl, rfl⟩ := Prod.mk.inj (Option.some.inj h)
    rw [read, hwhole more (by simp) (by simp)]
    rfl
  next n =>
    rw [read, hwhole more (by simp) (by simp)]
    dsimp only
    by_cases hlimit : bodyLimit < n
    · rw [if_pos hlimit] at h ⊢
      obtain ⟨rfl, rfl⟩ := Prod.mk.inj (Option.some.inj h)
      rfl
    · rw [if_neg hlimit] at h ⊢
      by_cases hshort : (left ++ tail).length < n
      · rw [if_pos hshort] at h
        cases h
      · have hn : n ≤ (left ++ tail).length := Nat.not_lt.1 hshort
        have hlong : ¬(left ++ tail ++ more).length < n := by
          rw [List.length_append]
          omega
        rw [if_neg hshort] at h
        rw [if_neg hlong, List.take_append_of_le_length hn, List.drop_append_of_le_length hn]
        obtain ⟨rfl, rfl⟩ := Prod.mk.inj (Option.some.inj h)
        rfl

theorem messages_of_next? {message : Json} (h : next? input = some (.ok message, rest)) (more : Bytes) :
    messages (input ++ more) = message :: messages (rest ++ more) :=
  messages_of_read (read_of_next? h more)

theorem messages_of_next?_error {fault : Fault} (h : next? input = some (.error fault, rest)) (more : Bytes) :
    messages (input ++ more) = [] := by
  refine messages_of_not fun message behind hread => ?_
  rw [read_of_next? h more] at hread
  cases hread

end Growing

end LanguageHost.Frame
