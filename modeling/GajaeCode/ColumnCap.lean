import GajaeCode.UnpairedSurrogates

/-! # The column cap over chunks

`#applyColumnCap` of `packages/coding-agent/src/session/streaming-output.ts` caps the
lines of a stream that comes in chunks.  A chunk ends one line or more of what came
before and begins others, so the stream is a list of lines, each a list of pieces, and
the cap of a line depends on its pieces alone.

A line over the cap is cut in the piece that overflows it, and three bytes are left for
the ellipsis as long as that piece begins with three bytes of room.  Where less is left
the ellipsis comes on top, and the line is too wide.  So the bound holds exactly when no
line over the cap is cut by a chunk boundary within the last three bytes of its room.
-/
namespace GajaeCode
open JsString List
variable {pieces : List JsString} {st : ColumnState}
variable {ls : List (List JsString)} {chunks : List JsString} {p : JsString} {st' : ColumnState}

/-- The pieces of a chunk, before the lines of what follows: its last piece begins the
first of them. -/
def glue : List JsString → List (List JsString) → List (List JsString)
  | [], ls => ls
  | [piece], [] => [[piece]]
  | [piece], first :: rest => (piece :: first) :: rest
  | piece :: next :: more, ls => [piece] :: glue (next :: more) ls

/-- The lines of a stream, each with the pieces that the chunks cut it into. -/
def pieceLines (chunks : List JsString) : List (List JsString) :=
  chunks.foldr (fun chunk ls => glue (lines chunk) ls) [[]]

theorem glue_ne_nil (h : ls ≠ []) : glue pieces ls ≠ [] := by
  rcases pieces with _ | ⟨piece, _ | ⟨next, more⟩⟩
  · exact h
  · rcases ls with _ | ⟨first, rest⟩
    · exact absurd rfl h
    · exact cons_ne_nil _ _
  · exact cons_ne_nil _ _

theorem pieceLines_ne_nil (chunks : List JsString) : pieceLines chunks ≠ [] := by
  induction chunks with
  | nil => exact cons_ne_nil _ _
  | cons chunk chunks ih => exact glue_ne_nil ih

/-- Text without a line feed goes to the front of the first line. -/
theorem lines_append_first {t : JsString} (ht : LF ∉ t) {rest first : JsString}
    {more : List JsString} (hrest : lines rest = first :: more) :
    lines (t ++ rest) = (t ++ first) :: more := by
  have hno : ∀ l ∈ (t ++ first) :: more, LF ∉ l := by
    intro l hl
    have hlines : ∀ l ∈ first :: more, LF ∉ l := fun l hl =>
      LF_not_mem_of_mem_lines (hrest ▸ hl)
    rcases mem_cons.mp hl with rfl | hl
    · rw [mem_append, not_or]
      exact ⟨ht, hlines first mem_cons_self⟩
    · exact hlines l (mem_cons_of_mem _ hl)
  have htext : t ++ rest = unlines ((t ++ first) :: more) := by
    rw [← unlines_lines rest, hrest]
    by_cases hmore : more = []
    · rw [hmore, unlines_singleton, unlines_singleton]
    · rw [unlines_cons_of_ne_nil _ hmore, unlines_cons_of_ne_nil _ hmore, append_assoc]
  rw [htext, lines_unlines (cons_ne_nil _ _) hno]

theorem mem_of_mem_pieceLines (h : pieces ∈ pieceLines chunks) (hp : p ∈ pieces) :
    ∃ chunk ∈ chunks, p ∈ lines chunk := by
  induction chunks generalizing pieces p with
  | nil =>
    obtain rfl := mem_singleton.mp h
    exact absurd hp not_mem_nil
  | cons chunk chunks ih =>
    have hglue : ∀ ls ms, (∀ ps ∈ ms, ∀ q ∈ ps, ∃ c ∈ chunks, q ∈ lines c) →
        ∀ ps ∈ glue ls ms, ∀ q ∈ ps, q ∈ ls ∨ ∃ c ∈ chunks, q ∈ lines c := by
      intro ls ms hms
      induction ls, ms using glue.induct with
      | case1 ms => exact fun ps hps q hq => .inr (hms ps hps q hq)
      | case2 piece =>
        intro ps hps q hq
        obtain rfl := mem_singleton.mp hps
        exact .inl hq
      | case3 piece first rest =>
        intro ps hps q hq
        rcases mem_cons.mp hps with rfl | hps
        · rcases mem_cons.mp hq with rfl | hq
          · exact .inl mem_cons_self
          · exact .inr (hms first mem_cons_self q hq)
        · exact .inr (hms ps (mem_cons_of_mem _ hps) q hq)
      | case4 piece next more ms ih' =>
        intro ps hps q hq
        rcases mem_cons.mp hps with rfl | hps
        · exact .inl (mem_singleton.mp hq ▸ mem_cons_self)
        · exact (ih' hms ps hps q hq).imp (mem_cons_of_mem _) id
    rcases hglue _ _ (fun ps hps q hq => ih hps hq) pieces h p hp with hin | ⟨c, hc, hin⟩
    · exact ⟨chunk, mem_cons_self, hin⟩
    · exact ⟨c, mem_cons_of_mem _ hc, hin⟩

/-- The cap on one piece after another of a line. -/
def capPieces (max : Nat) : ColumnState → List JsString → JsString
  | _, [] => []
  | st, piece :: pieces =>
    (capSegment max st piece).1 ++ capPieces max (capSegment max st piece).2 pieces

/-- The state at the beginning of a line. -/
def freshColumn : ColumnState := ⟨0, false, 0, 0⟩

/-- Two states that agree on the line under way. -/
def SameLine (st st' : ColumnState) : Prop :=
  st.currentLineBytes = st'.currentLineBytes ∧ st.columnEllipsisAdded = st'.columnEllipsisAdded

theorem SameLine.capSegment (h : SameLine st st') (max : Nat) (segment : JsString) :
    (capSegment max st segment).1 = (capSegment max st' segment).1 ∧
      SameLine (capSegment max st segment).2 (capSegment max st' segment).2 := by
  obtain ⟨hbytes, hadded⟩ := h
  simp only [GajaeCode.capSegment, hbytes, hadded]
  split_ifs <;> simp [SameLine, hbytes, hadded]

theorem SameLine.capPieces (h : SameLine st st') (max : Nat) (pieces : List JsString) :
    capPieces max st pieces = capPieces max st' pieces := by
  induction pieces generalizing st st' with
  | nil => rfl
  | cons piece pieces ih =>
    obtain ⟨htext, hnext⟩ := h.capSegment max piece
    rw [GajaeCode.capPieces, GajaeCode.capPieces, htext, ih hnext]

theorem LF_not_mem_capSegment (max : Nat) (st : ColumnState) {segment : JsString}
    (h : LF ∉ segment) (hwf : WellFormed segment) : LF ∉ (capSegment max st segment).1 := by
  obtain ⟨cs, rfl⟩ := exists_ofChars hwf
  have hellipsis : LF ∉ ellipsis := by decide
  simp only [capSegment]
  split_ifs
  · exact not_mem_nil
  · exact not_mem_nil
  · exact h
  · rw [truncateHeadBytes_ofChars, mem_append, not_or]
    refine ⟨fun hmem => h ?_, hellipsis⟩
    rcases fitHead_cases (max - st.currentLineBytes - 3) cs with ⟨hall, -⟩ | ⟨c, rest, hsplit, -⟩
    · rwa [hall] at hmem
    · rw [hsplit, ofChars_append, mem_append]
      exact .inl hmem
  · exact hellipsis

/-- `#applyColumnCap` on one chunk after another: the text it gives. -/
def capChunks (max : Nat) : ColumnState → List JsString → JsString
  | _, [] => []
  | st, chunk :: chunks =>
    (applyColumnCap max st chunk).1 ++ capChunks max (applyColumnCap max st chunk).2 chunks

/-- Lines capped each by itself, the first from the given state. -/
def capPieceLines (max : Nat) (st : ColumnState) : List (List JsString) → List JsString
  | [] => []
  | first :: rest => capPieces max st first :: rest.map (capPieces max freshColumn)

theorem capPieceLines_fresh (max : Nat) (h : SameLine st freshColumn) (ls : List (List JsString)) :
    capPieceLines max st ls = ls.map (capPieces max freshColumn) := by
  cases ls with
  | nil => rfl
  | cons first rest => rw [capPieceLines, h.capPieces, map_cons]

theorem lines_capLines {max : Nat} {out : ColumnState → JsString} (hls : ls ≠ [])
    (hout : ∀ st, lines (out st) = capPieceLines max st ls) (hne : pieces ≠ [])
    (hno : ∀ p ∈ pieces, LF ∉ p) (hwf : ∀ p ∈ pieces, WellFormed p) (st : ColumnState) :
    lines ((capLines max st pieces).1 ++ out (capLines max st pieces).2) =
      capPieceLines max st (glue pieces ls) := by
  induction pieces generalizing st with
  | nil => exact absurd rfl hne
  | cons piece pieces ih =>
    have hpiece := LF_not_mem_capSegment max st (hno piece mem_cons_self)
      (hwf piece mem_cons_self)
    cases pieces with
    | nil =>
      obtain ⟨first, rest, rfl⟩ := exists_cons_of_ne_nil hls
      rw [capLines, lines_append_first hpiece (hout _), glue, capPieceLines, capPieces]
    | cons next more =>
      rw [capLines]
      simp only
      rw [append_assoc, cons_append, lines_append_LF, lines_of_not_mem hpiece,
        ih (cons_ne_nil _ _) (fun p hp => hno p (mem_cons_of_mem _ hp))
          (fun p hp => hwf p (mem_cons_of_mem _ hp)), glue, capPieceLines, capPieces,
        capPieces, append_nil]
      have hfresh : SameLine { (capSegment max st piece).2 with
          currentLineBytes := 0, columnEllipsisAdded := false } freshColumn := ⟨rfl, rfl⟩
      rw [capPieceLines_fresh max hfresh]
      rfl

theorem applyColumnCap_eq (max : Nat) (st : ColumnState) (chunk : JsString) :
    applyColumnCap max st chunk = capLines max st (lines chunk) := by
  rw [applyColumnCap]
  split_ifs with hempty
  · rw [length_eq_zero_iff.mp hempty, lines_of_not_mem not_mem_nil, capLines, capSegment,
      if_pos rfl]
  · rfl

/-- **The lines of the capped stream** are the capped lines of the stream. -/
theorem lines_capChunks (max : Nat) (st : ColumnState)
    (hchunks : ∀ chunk ∈ chunks, WellFormed chunk) :
    lines (capChunks max st chunks) = capPieceLines max st (pieceLines chunks) := by
  induction chunks generalizing st with
  | nil => rfl
  | cons chunk chunks ih =>
    rw [capChunks, applyColumnCap_eq]
    have hwf := hchunks chunk mem_cons_self
    exact lines_capLines (pieceLines_ne_nil chunks)
      (fun st => ih st (fun c hc => hchunks c (mem_cons_of_mem _ hc))) (lines_ne_nil chunk)
      (fun p hp => LF_not_mem_of_mem_lines hp) (fun p hp => wellFormed_of_mem_lines hwf hp) st

/-! ## The width of a line -/

/-- A line over the cap is cut within the last three bytes of its room: more than
`max - 3` and at most `max` bytes of it, the first `start` bytes included, stand before a
boundary. -/
def CutLate (max start : Nat) (pieces : List JsString) : Prop :=
  ∃ before after, pieces = before ++ after ∧ max - 3 < start + byteLength before.flatten ∧
    start + byteLength before.flatten ≤ max ∧ max < start + byteLength pieces.flatten

theorem byteLength_append {s t : JsString} (hs : WellFormed s) (ht : WellFormed t) :
    byteLength (s ++ t) = byteLength s + byteLength t := by
  obtain ⟨cs, rfl⟩ := exists_ofChars hs
  obtain ⟨ds, rfl⟩ := exists_ofChars ht
  rw [← ofChars_append, OutputSink.byteLength_ofChars, OutputSink.byteLength_ofChars,
    OutputSink.byteLength_ofChars, byteSize_append]

theorem wellFormed_flatten (h : ∀ p ∈ pieces, WellFormed p) : WellFormed pieces.flatten := by
  induction pieces with
  | nil => trivial
  | cons p pieces ih =>
    rw [forall_mem_cons] at h
    exact wellFormed_append h.1 (ih h.2)

theorem wellFormed_capPieces (max : Nat) (st : ColumnState) (h : ∀ p ∈ pieces, WellFormed p) :
    WellFormed (capPieces max st pieces) := by
  induction pieces generalizing st with
  | nil => trivial
  | cons p pieces ih =>
    rw [forall_mem_cons] at h
    exact wellFormed_append (OutputSink.wellFormed_capSegment max st h.1) (ih _ h.2)

theorem capPieces_of_added (max : Nat) (h : st.columnEllipsisAdded = true) (pieces : List JsString)
    : capPieces max st pieces = [] := by
  induction pieces generalizing st with
  | nil => rfl
  | cons p pieces ih =>
    have hpiece : (capSegment max st p).1 = [] ∧
        (capSegment max st p).2.columnEllipsisAdded = true := by
      simp only [capSegment, h, if_true]
      split_ifs
      · exact ⟨rfl, h⟩
      · exact ⟨rfl, rfl⟩
    rw [capPieces, hpiece.1, ih hpiece.2]
    rfl

theorem cutLate_cons {max start : Nat} (hp : WellFormed p) (hpieces : ∀ q ∈ pieces, WellFormed q) :
    CutLate max start (p :: pieces) ↔ (max - 3 < start ∧ start ≤ max ∧
        max < start + (byteLength p + byteLength pieces.flatten)) ∨
      CutLate max (start + byteLength p) pieces := by
  have hwhole : byteLength (p :: pieces).flatten = byteLength p + byteLength pieces.flatten :=
    byteLength_append hp (wellFormed_flatten hpieces)
  constructor
  · rintro ⟨before, after, hsplit, hlow, hhigh, hover⟩
    rw [hwhole] at hover
    cases before with
    | nil => exact .inl ⟨hlow, hhigh, hover⟩
    | cons q before =>
      obtain ⟨rfl, rfl⟩ := List.cons.inj hsplit
      have hfront : byteLength (p :: before).flatten = byteLength p + byteLength before.flatten :=
        byteLength_append hp (wellFormed_flatten fun q hq => hpieces q (mem_append_left _ hq))
      rw [hfront] at hlow hhigh
      exact .inr ⟨before, after, rfl, by omega, by omega, by omega⟩
  · rintro (⟨hlow, hhigh, hover⟩ | ⟨before, after, rfl, hlow, hhigh, hover⟩)
    · exact ⟨[], p :: pieces, rfl, hlow, hhigh, by rw [hwhole]; exact hover⟩
    · have hfront : byteLength (p :: before).flatten = byteLength p + byteLength before.flatten :=
        byteLength_append hp (wellFormed_flatten fun q hq => hpieces q (mem_append_left _ hq))
      exact ⟨p :: before, after, rfl, by rw [hfront]; omega, by rw [hfront]; omega,
        by rw [hwhole]; omega⟩

/-- The first piece that overflows takes three bytes for the ellipsis. -/
theorem byteLength_capSegment_overflow {max : Nat} (hp : WellFormed p)
    (hadded : st.columnEllipsisAdded = false) (hover : max - st.currentLineBytes < byteLength p) :
    (capSegment max st p).2.columnEllipsisAdded = true ∧ 3 ≤ byteLength (capSegment max st p).1 ∧
      byteLength (capSegment max st p).1 ≤ 3 + (max - st.currentLineBytes - 3) := by
  obtain ⟨cs, rfl⟩ := exists_ofChars hp
  have hne : ofChars cs ≠ [] := by
    intro hnil
    rw [hnil] at hover
    exact absurd hover (Nat.not_lt_zero _)
  have hellipsis : ellipsis = ofChars ['…'] := by decide
  have hthree : byteSize ['…'] = 3 := by decide
  simp only [capSegment, if_neg hne, hadded, Bool.false_eq_true, if_false,
    if_neg (Nat.not_le.mpr hover)]
  split_ifs with hroom
  · have hfit := byteSize_fitHead_le (max - st.currentLineBytes - 3) cs
    rw [truncateHeadBytes_ofChars, hellipsis, ← ofChars_append, OutputSink.byteLength_ofChars,
      byteSize_append, hthree]
    exact ⟨trivial, by omega, by omega⟩
  · rw [nil_append, hellipsis, OutputSink.byteLength_ofChars, hthree]
    exact ⟨trivial, Nat.le_refl 3, by omega⟩

/-- **The width of a capped line**, `start` bytes of it already written. -/
theorem width_capPieces_iff {max : Nat} (hmax : 3 ≤ max) (hadded : st.columnEllipsisAdded = false)
    (hstart : st.currentLineBytes ≤ max) (hpieces : ∀ p ∈ pieces, WellFormed p) :
    st.currentLineBytes + byteLength (capPieces max st pieces) ≤ max ↔
      ¬ CutLate max st.currentLineBytes pieces := by
  induction pieces generalizing st with
  | nil =>
    refine iff_of_true hstart ?_
    rintro ⟨before, after, -, -, -, hover⟩
    exact absurd hover (Nat.not_lt.mpr hstart)
  | cons p pieces ih =>
    rw [forall_mem_cons] at hpieces
    obtain ⟨hp, hpieces⟩ := hpieces
    have hrest := wellFormed_capPieces max (capSegment max st p).2 hpieces
    rw [capPieces, byteLength_append (OutputSink.wellFormed_capSegment max st hp) hrest,
      cutLate_cons hp hpieces]
    by_cases hfits : byteLength p ≤ max - st.currentLineBytes
    · -- the piece is written as it is
      have hpiece : (capSegment max st p).1 = p ∧
          (capSegment max st p).2.currentLineBytes = st.currentLineBytes + byteLength p ∧
          (capSegment max st p).2.columnEllipsisAdded = false := by
        by_cases hempty : p = []
        · simp [capSegment, hempty, hadded, byteLength, utf8, codePoints]
        · simp [capSegment, hempty, hadded, hfits]
      have hnext := ih hpiece.2.2 (by rw [hpiece.2.1]; omega) hpieces
      rw [hpiece.2.1, Nat.add_assoc] at hnext
      rw [hpiece.1, hnext]
      have hnone : byteLength ([] : List JsString).flatten = 0 := rfl
      constructor
      · rintro hlater (⟨hlow, -, hover⟩ | hcut)
        · exact hlater ⟨[], pieces, rfl, by omega, by omega, by omega⟩
        · exact hlater hcut
      · exact fun hno hcut => hno (.inr hcut)
    · -- the line overflows in this piece
      obtain ⟨hdone, hthree, hroom⟩ := byteLength_capSegment_overflow hp hadded
        (Nat.not_le.mp hfits)
      have hnil : byteLength (capPieces max (capSegment max st p).2 pieces) = 0 := by
        rw [capPieces_of_added max hdone]
        rfl
      rw [hnil]
      constructor
      · rintro hwidth (⟨hlow, -, -⟩ | ⟨before, after, -, -, hhigh, -⟩)
        · omega
        · omega
      · intro hno
        by_contra hwide
        exact hno (.inl ⟨by omega, hstart, by omega⟩)

/-- **The column cap bounds every line exactly where no line over it is cut late.**  For
every cap of at least three bytes and every sequence of well-formed chunks. -/
theorem capChunks_width_iff {max : Nat} (hmax : 3 ≤ max) {chunks : List JsString}
    (hchunks : ∀ chunk ∈ chunks, WellFormed chunk) :
    (∀ line ∈ lines (capChunks max freshColumn chunks), byteLength line ≤ max) ↔
      ∀ pieces ∈ pieceLines chunks, ¬ CutLate max 0 pieces := by
  rw [lines_capChunks max freshColumn hchunks, capPieceLines_fresh max ⟨rfl, rfl⟩, forall_mem_map]
  refine forall₂_congr fun pieces hpieces => ?_
  have hwf : ∀ p ∈ pieces, WellFormed p := by
    intro p hp
    obtain ⟨chunk, hchunk, hline⟩ := mem_of_mem_pieceLines hpieces hp
    exact wellFormed_of_mem_lines (hchunks chunk hchunk) hline
  have h := width_capPieces_iff hmax (rfl : freshColumn.columnEllipsisAdded = false)
    (Nat.zero_le max) hwf
  rw [show freshColumn.currentLineBytes = 0 from rfl, Nat.zero_add] at h
  exact h

/-- A cap of eight: `abcdefghij` in two pieces of five. -/
theorem capChunks_width_eight :
    pieceLines [js "ab\nabcde", js "fghij"] = [[js "ab"], [js "abcde", js "fghij"]] ∧
      ∀ line ∈ lines (capChunks 8 freshColumn [js "ab\nabcde", js "fghij"]),
        byteLength line ≤ 8 := by
  have hlines : pieceLines [js "ab\nabcde", js "fghij"] =
      [[js "ab"], [js "abcde", js "fghij"]] := by
    decide
  have hchars : ∀ chunk ∈ [js "ab\nabcde", js "fghij"], chunk = ofChars (codePoints chunk) := by
    decide
  have hwf : ∀ chunk ∈ [js "ab\nabcde", js "fghij"], WellFormed chunk := fun chunk hchunk =>
    hchars chunk hchunk ▸ wellFormed_ofChars _
  refine ⟨hlines, (capChunks_width_iff (by decide) hwf).mpr ?_⟩
  rw [hlines]
  -- no boundary stands before the sixth, seventh or eighth byte
  have hbytes : ∀ pieces ∈ [[js "ab"], [js "abcde", js "fghij"]], ∀ n ≤ pieces.length,
      ¬ (5 < byteLength (pieces.take n).flatten ∧ byteLength (pieces.take n).flatten ≤ 8) := by
    decide
  rintro pieces hpieces ⟨before, after, rfl, hlow, hhigh, -⟩
  refine hbytes _ hpieces before.length (by rw [length_append]; omega) ?_
  rw [take_left]
  exact ⟨by omega, by omega⟩

/-- A cap of three: `abc` takes all of it, and `d` brings the ellipsis on top. -/
theorem capChunks_too_wide : capChunks 3 freshColumn [js "abc", js "d"] = js "abc…" ∧
      ¬ ∀ line ∈ lines (capChunks 3 freshColumn [js "abc", js "d"]), byteLength line ≤ 3 := by
  decide

end GajaeCode
