import HavokMud.Input.Lines

/-!
# Input in chunks

What arrives is handed to `InputThread` in chunks that may end anywhere.  As long as no NUL stands
inside of a line, the lines do not depend on the chunks.  A NUL inside of a line hides its newline
for good.
-/

namespace HavokMud.Input

open Buffer Sequence

/-! ## Events -/

/-- What `CONN_INPUT_AVAIL` reads and writes of a player. -/
structure Player where
  flush : Bool
  inBuffer : BufferObject
  inRemain : Option (List UInt8)

/-- `CONN_INPUT_AVAIL`, with the lines that are enqueued.  The text is assembled in memory that has
these bytes around it. -/
def inputAvail (before after : List UInt8) (player : Player) : Player × List (List UInt8) :=
  if player.flush then ({ player with inRemain := none }, [])
  else
    match takeInput player.inBuffer with
    | none => (player, [])
    | some (bytes, buffer) =>
        let text := player.inRemain.getD [] ++ bytes
        let result := splitLines (before.length + text.length) text.length
          (before ++ (text ++ after)) before.length
        ({ player with
          inBuffer := buffer
          inRemain := result.2 }, result.1)

/-- What an event finds. -/
structure Arrival where
  flush : Bool
  inBuffer : BufferObject
  before : List UInt8
  after : List UInt8

/-- The bytes in the buffer. -/
def Arrival.chunk (arrival : Arrival) : List UInt8 :=
  ((takeInput arrival.inBuffer).map Prod.fst).getD []

/-- One event, with the remainder before and after it. -/
def arrive (inRemain : Option (List UInt8)) (arrival : Arrival) :
    Option (List UInt8) × List (List UInt8) :=
  let result := inputAvail arrival.before arrival.after
    ⟨arrival.flush, arrival.inBuffer, inRemain⟩
  (result.1.inRemain, result.2)

/-- The events of a player. -/
def arriveAll : Option (List UInt8) → List Arrival → Option (List UInt8) × List (List UInt8)
  | inRemain, [] => (inRemain, [])
  | inRemain, arrival :: rest =>
      let result := arrive inRemain arrival
      ((arriveAll result.1 rest).1, result.2 ++ (arriveAll result.1 rest).2)

/-! ## One event -/

/-- What is kept of an unfinished piece. -/
def keep (piece : List UInt8) : Option (List UInt8) :=
  if piece.dropWhile isControl = [] then none else some (piece.dropWhile isControl)

section Events

variable {inRemain : Option (List UInt8)} {arrival : Arrival}

theorem arrive_flush (hflush : arrival.flush = true) : arrive inRemain arrival = (none, []) := by
  unfold arrive inputAvail
  dsimp only
  rw [if_pos hflush]

theorem arrive_none (hflush : arrival.flush = false) (hnone : takeInput arrival.inBuffer = none) :
    arrive inRemain arrival = (inRemain, []) := by
  unfold arrive inputAvail
  dsimp only
  rw [if_neg (Bool.eq_false_iff.mp hflush), hnone]

theorem chunk_none (hnone : takeInput arrival.inBuffer = none) : arrival.chunk = [] := by
  unfold Arrival.chunk
  rw [hnone]
  rfl

theorem arrive_some (hflush : arrival.flush = false) (hsome : takeInput arrival.inBuffer ≠ none) :
    arrive inRemain arrival =
      ((splitLines (arrival.before.length + (inRemain.getD [] ++ arrival.chunk).length)
        (inRemain.getD [] ++ arrival.chunk).length
        (arrival.before ++ ((inRemain.getD [] ++ arrival.chunk) ++ arrival.after))
        arrival.before.length).2,
      (splitLines (arrival.before.length + (inRemain.getD [] ++ arrival.chunk).length)
        (inRemain.getD [] ++ arrival.chunk).length
        (arrival.before ++ ((inRemain.getD [] ++ arrival.chunk) ++ arrival.after))
        arrival.before.length).1) := by
  obtain ⟨⟨bytes, buffer⟩, htake⟩ := Option.ne_none_iff_exists'.mp hsome
  have hchunk : arrival.chunk = bytes := by
    unfold Arrival.chunk
    rw [htake]
    rfl
  unfold arrive inputAvail
  dsimp only
  rw [if_neg (Bool.eq_false_iff.mp hflush), htake, hchunk]

theorem length_eq_cut (text : List UInt8) :
    text.length = (joined (cut 10 text).1).length + (cut 10 text).2.length := by
  rw [← List.length_append]
  exact congrArg List.length (join_cut text).symm

theorem append_eq_cut (text after : List UInt8) :
    text ++ after = joined (cut 10 text).1 ++ ((cut 10 text).2 ++ after) := by
  rw [← List.append_assoc]
  exact congrArg (· ++ after) (join_cut text).symm

/-- If all pieces are whole, they become lines. -/
theorem arrive_whole (hflush : arrival.flush = false) (hsome : takeInput arrival.inBuffer ≠ none)
    (hwhole : ∀ piece ∈ (cut 10 (inRemain.getD [] ++ arrival.chunk)).1, Whole piece) : ∃ extra,
    (arrive inRemain arrival).2 =
      (cut 10 (inRemain.getD [] ++ arrival.chunk)).1.map clean ++ extra ∧
    (∀ remain ∈ (arrive inRemain arrival).1, 10 ∉ remain) ∧
    (byteAt arrival.after 0 = 0 → extra = [] ∧
      (arrive inRemain arrival).1 = keep (cut 10 (inRemain.getD [] ++ arrival.chunk)).2) := by
  rw [arrive_some hflush hsome]
  set text := inRemain.getD [] ++ arrival.chunk
  have hlength := length_eq_cut text
  have hsplit := append_eq_cut text arrival.after
  obtain ⟨pre', turns', hend, hturns, hlines⟩ := splitLines_pieces arrival.after hwhole
    (congrArg (arrival.before.length + ·) hlength) hlength.ge
  obtain ⟨hremain, hquiet⟩ := splitLines_rest arrival.after (not_mem_cut text).2 hend hturns
  rw [hsplit, hlines]
  refine ⟨_, rfl, hremain, ?_⟩
  intro hafter
  rw [hquiet hafter]
  exact ⟨rfl, rfl⟩

/-- If a piece is not whole, a newline is kept. -/
theorem arrive_not_whole (hflush : arrival.flush = false)
    (hsome : takeInput arrival.inBuffer ≠ none)
    (hbad : ∃ piece ∈ (cut 10 (inRemain.getD [] ++ arrival.chunk)).1, ¬ Whole piece) :
    ∃ remain ∈ (arrive inRemain arrival).1, 10 ∈ remain := by
  rw [arrive_some hflush hsome]
  set text := inRemain.getD [] ++ arrival.chunk
  have hlength := length_eq_cut text
  have hsplit := append_eq_cut text arrival.after
  rw [hsplit]
  exact splitLines_not_whole arrival.after (not_mem_cut text).1 hbad
    (congrArg (arrival.before.length + ·) hlength) hlength.ge

end Events

/-! ## Chunks -/

theorem dropWhile_append_dropWhile (xs ys : List UInt8) :
    (xs.dropWhile isControl ++ ys).dropWhile isControl = (xs ++ ys).dropWhile isControl := by
  induction xs with
  | nil => rfl
  | cons x xs ih =>
      by_cases hx : isControl x = true
      · rw [List.dropWhile_cons_of_pos hx, List.cons_append, List.dropWhile_cons_of_pos hx, ih]
      · rw [List.dropWhile_cons_of_neg hx]

theorem getD_keep (piece : List UInt8) : (keep piece).getD [] = piece.dropWhile isControl := by
  unfold keep
  split_ifs with hnil
  · exact hnil.symm
  · rfl

/-- It does not matter whether control characters are skipped before or behind the end of a
chunk. -/
theorem cut_keep {piece : List UInt8} (hpiece : 10 ∉ piece) (chunk : List UInt8) :
    (cut 10 ((keep piece).getD [] ++ chunk)).1.map clean = (cut 10 (piece ++ chunk)).1.map clean ∧
      keep (cut 10 ((keep piece).getD [] ++ chunk)).2 = keep (cut 10 (piece ++ chunk)).2 := by
  have hkept : 10 ∉ piece.dropWhile isControl := fun hmem ↦
    hpiece ((List.dropWhile_suffix _).subset hmem)
  rw [getD_keep, cut_append_of_not_mem hkept, cut_append_of_not_mem hpiece]
  cases (cut 10 chunk).1 with
  | nil =>
      refine ⟨rfl, ?_⟩
      unfold keep
      dsimp only
      rw [dropWhile_append_dropWhile]
  | cons first pieces =>
      refine ⟨?_, rfl⟩
      dsimp only
      rw [List.map_cons, List.map_cons]
      unfold clean
      rw [dropWhile_append_dropWhile]

/-- Bytes without a NUL are cut into whole pieces. -/
theorem whole_of_not_mem {text : List UInt8} (hnul : 0 ∉ text) :
    ∀ piece ∈ (cut 10 text).1, Whole piece := by
  intro piece hpiece
  refine ⟨(not_mem_cut text).1 piece hpiece, fun hmem ↦ hnul ?_⟩
  rw [← join_cut text]
  apply List.mem_append_left
  apply List.mem_flatMap_of_mem hpiece
  exact List.mem_append_left _ ((List.dropWhile_suffix _).subset hmem)

theorem arriveAll_append (inRemain : Option (List UInt8)) (arrivals : List Arrival)
    (arrival : Arrival) : arriveAll inRemain (arrivals ++ [arrival]) =
      ((arrive (arriveAll inRemain arrivals).1 arrival).1,
        (arriveAll inRemain arrivals).2 ++ (arrive (arriveAll inRemain arrivals).1 arrival).2) := by
  induction arrivals generalizing inRemain with
  | nil =>
      change ((arrive inRemain arrival).1, (arrive inRemain arrival).2 ++ []) = _
      rw [List.append_nil]
      rfl
  | cons first arrivals ih =>
      change ((arriveAll _ (arrivals ++ [arrival])).1,
        _ ++ (arriveAll _ (arrivals ++ [arrival])).2) = _
      rw [ih, ← List.append_assoc]
      rfl

/-- However a stream without NULs is cut into chunks, its lines are enqueued, and what is unfinished
is kept. -/
theorem lines_independent_of_chunks {arrivals : List Arrival}
    (hflush : ∀ arrival ∈ arrivals, arrival.flush = false)
    (hafter : ∀ arrival ∈ arrivals, byteAt arrival.after 0 = 0)
    (hnul : ∀ arrival ∈ arrivals, 0 ∉ arrival.chunk) :
    arriveAll none arrivals =
      (keep (cut 10 (arrivals.flatMap Arrival.chunk)).2,
        (cut 10 (arrivals.flatMap Arrival.chunk)).1.map clean) := by
  induction arrivals using List.reverseRecOn with
  | nil => rfl
  | append_singleton arrivals arrival ih =>
      obtain ⟨hflush, hlast⟩ := List.forall_mem_append.mp hflush
      obtain ⟨hafter, hlast'⟩ := List.forall_mem_append.mp hafter
      obtain ⟨hnul, hlast''⟩ := List.forall_mem_append.mp hnul
      rw [List.forall_mem_singleton] at hlast hlast' hlast''
      rw [arriveAll_append, ih hflush hafter hnul, List.flatMap_append, List.flatMap_singleton]
      set stream := arrivals.flatMap Arrival.chunk
      have hstream : 0 ∉ stream := by
        intro hmem
        obtain ⟨a, ha, hzero⟩ := List.mem_flatMap.mp hmem
        exact hnul a ha hzero
      have hrest : 0 ∉ (cut 10 stream).2 := by
        intro hmem
        apply hstream
        rw [← join_cut stream]
        exact List.mem_append_right _ hmem
      rw [cut_append, List.map_append]
      dsimp only
      by_cases hnone : takeInput arrival.inBuffer = none
      · rw [arrive_none hlast hnone, chunk_none hnone, List.append_nil, List.append_nil,
          cut_of_not_mem (not_mem_cut stream).2, List.map_nil, List.append_nil]
      · have htext : 0 ∉ (keep (cut 10 stream).2).getD [] ++ arrival.chunk := by
          rw [getD_keep, List.mem_append]
          rintro (hmem | hmem)
          · exact hrest ((List.dropWhile_suffix _).subset hmem)
          · exact hlast'' hmem
        obtain ⟨extra, hlines, -, hquiet⟩ := arrive_whole hlast hnone (whole_of_not_mem htext)
        obtain ⟨rfl, hkept⟩ := hquiet hlast'
        obtain ⟨hclean, hkeep⟩ := cut_keep (not_mem_cut stream).2 arrival.chunk
        rw [hlines, hkept, hclean, hkeep, List.append_nil]

/-! ## NULs -/

/-- No newline is kept. -/
def Delivered (inRemain : Option (List UInt8)) : Prop :=
  ∀ remain ∈ inRemain, 10 ∉ remain

/-- In no finished piece of what was kept and what has arrived does a NUL follow the first byte that
is not skipped. -/
def Arrival.Meets (inRemain : Option (List UInt8)) (arrival : Arrival) : Prop :=
  arrival.flush = false → ∀ piece ∈ (cut 10 (inRemain.getD [] ++ arrival.chunk)).1,
    0 ∉ piece.dropWhile isControl

section Delivery

variable {inRemain : Option (List UInt8)} {arrival : Arrival}

theorem cut_delivered (h : Delivered inRemain) :
    cut 10 (inRemain.getD []) = ([], inRemain.getD []) := by
  cases inRemain with
  | none => rfl
  | some remain => exact cut_of_not_mem (h remain rfl)

theorem whole_of_meets (hmeets : arrival.Meets inRemain) (hflush : arrival.flush = false) :
    ∀ piece ∈ (cut 10 (inRemain.getD [] ++ arrival.chunk)).1, Whole piece := fun piece hpiece ↦
  ⟨(not_mem_cut _).1 piece hpiece, hmeets hflush piece hpiece⟩

/-- One event. -/
theorem delivered_arrive_iff (h : Delivered inRemain) :
    Delivered (arrive inRemain arrival).1 ↔ arrival.Meets inRemain := by
  cases hflush : arrival.flush with
  | true =>
      rw [arrive_flush hflush]
      refine iff_of_true (fun _ hmem ↦ (by cases hmem)) fun hnot ↦ ?_
      rw [hflush] at hnot
      cases hnot
  | false =>
      by_cases hnone : takeInput arrival.inBuffer = none
      · rw [arrive_none hflush hnone]
        refine iff_of_true h fun _ piece hpiece ↦ ?_
        rw [chunk_none hnone, List.append_nil, cut_delivered h] at hpiece
        cases hpiece
      · constructor
        · intro hdelivered _ piece hpiece hnul
          obtain ⟨remain, hremain, hmem⟩ := arrive_not_whole hflush hnone
            ⟨piece, hpiece, fun hwhole ↦ hwhole.2 hnul⟩
          exact hdelivered remain hremain hmem
        · intro hmeets
          obtain ⟨extra, -, hdelivered, -⟩ :=
            arrive_whole hflush hnone (whole_of_meets hmeets hflush)
          exact hdelivered

/-- The lines of one event. -/
theorem lines_arrive (h : Delivered inRemain) (hmeets : arrival.Meets inRemain)
    (hflush : arrival.flush = false) :
    (cut 10 (inRemain.getD [] ++ arrival.chunk)).1.map clean <+: (arrive inRemain arrival).2 := by
  by_cases hnone : takeInput arrival.inBuffer = none
  · rw [chunk_none hnone, List.append_nil, cut_delivered h]
    exact List.nil_prefix
  · obtain ⟨extra, hlines, -⟩ := arrive_whole hflush hnone (whole_of_meets hmeets hflush)
    rw [hlines]
    exact List.prefix_append ..

end Delivery

/-- All events before one are met. -/
theorem delivered_of_meets {arrivals : List Arrival}
    (h : ∀ pre arrival, pre ++ [arrival] <+: arrivals → arrival.Meets (arriveAll none pre).1) :
    ∀ pre, pre <+: arrivals → Delivered (arriveAll none pre).1 := by
  intro pre hpre
  induction pre using List.reverseRecOn with
  | nil => exact fun _ hmem ↦ (by cases hmem)
  | append_singleton pre arrival ih =>
      rw [arriveAll_append]
      have hdelivered := ih ((List.prefix_append pre [arrival]).trans hpre)
      exact (delivered_arrive_iff hdelivered).mpr (h pre arrival hpre)

/-- Every newline that has arrived ends a line exactly if no NUL hides it. -/
theorem every_line_delivered_iff (arrivals : List Arrival) :
    ((∀ pre, pre <+: arrivals → Delivered (arriveAll none pre).1) ↔
      ∀ pre arrival, pre ++ [arrival] <+: arrivals → arrival.Meets (arriveAll none pre).1) ∧
    ((∀ pre arrival, pre ++ [arrival] <+: arrivals → arrival.Meets (arriveAll none pre).1) →
      ∀ pre arrival, pre ++ [arrival] <+: arrivals → arrival.flush = false →
        (cut 10 ((arriveAll none pre).1.getD [] ++ arrival.chunk)).1.map clean <+:
          (arrive (arriveAll none pre).1 arrival).2) := by
  refine ⟨⟨?_, delivered_of_meets⟩, ?_⟩
  · intro hdelivered pre arrival hpre
    have hbefore := hdelivered pre ((List.prefix_append pre [arrival]).trans hpre)
    have hlast := hdelivered _ hpre
    rw [arriveAll_append] at hlast
    exact (delivered_arrive_iff hbefore).mp hlast
  · intro hmeets pre arrival hpre hflush
    have hbefore := delivered_of_meets hmeets pre ((List.prefix_append pre [arrival]).trans hpre)
    exact lines_arrive hbefore (hmeets pre arrival hpre) hflush

/-- A chunk in a buffer of a connection, with zeroes around the text. -/
def Arrival.ofChunk (chunk : List UInt8) : Arrival where
  flush := false
  inBuffer := {
    size := 8192
    head := 0
    tail := UInt32.ofNat chunk.length
    data := chunk ++ List.replicate (8192 - chunk.length) 0
    full := false
    empty := false }
  before := [0]
  after := [0]

/-- `ab\r` and `\ncd`. -/
theorem lines_independent_of_chunks_two :
    arriveAll none [.ofChunk [97, 98, 13], .ofChunk [10, 99, 100]] =
      (some [99, 100], [[97, 98]]) := by
  have hchunks : (Arrival.ofChunk [97, 98, 13]).chunk = [97, 98, 13] ∧
      (Arrival.ofChunk [10, 99, 100]).chunk = [10, 99, 100] := ⟨rfl, rfl⟩
  have hflush : ∀ arrival ∈ [Arrival.ofChunk [97, 98, 13], .ofChunk [10, 99, 100]],
      arrival.flush = false :=
    List.forall_mem_cons.mpr ⟨rfl, List.forall_mem_singleton.mpr rfl⟩
  have hafter : ∀ arrival ∈ [Arrival.ofChunk [97, 98, 13], .ofChunk [10, 99, 100]],
      byteAt arrival.after 0 = 0 :=
    List.forall_mem_cons.mpr ⟨rfl, List.forall_mem_singleton.mpr rfl⟩
  have hnul : ∀ arrival ∈ [Arrival.ofChunk [97, 98, 13], .ofChunk [10, 99, 100]],
      0 ∉ arrival.chunk := by
    rw [List.forall_mem_cons, List.forall_mem_singleton, hchunks.1, hchunks.2]
    decide
  have hlines := lines_independent_of_chunks hflush hafter hnul
  rw [hlines, List.flatMap_cons, List.flatMap_singleton, hchunks.1, hchunks.2]
  decide

/-- `a`, NUL, `b` and a newline. -/
theorem line_hidden_by_nul :
    ¬ ∀ arrivals pre, pre <+: arrivals → Delivered (arriveAll none pre).1 := by
  intro h
  have hdelivered := h [.ofChunk [97, 0, 98, 10]] _ (List.prefix_refl _)
  obtain ⟨remain, hremain, hmem⟩ :=
    @arrive_not_whole none (.ofChunk [97, 0, 98, 10]) rfl nofun ⟨[97, 0, 98], by
      change [97, 0, 98] ∈ (cut 10 ([] ++ [97, 0, 98, 10])).1
      decide, by
      rintro ⟨-, hnul⟩
      exact hnul (by decide)⟩
  exact hdelivered remain hremain hmem

end HavokMud.Input
