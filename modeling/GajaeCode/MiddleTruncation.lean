import GajaeCode.LineTruncation

/-! # Truncation in the middle

`truncateMiddle` of `packages/coding-agent/src/session/streaming-output.ts`.  It takes a window
of whole lines at the head and one at the tail, each within its part of the budgets, with a
marker between them.  Where the windows have as many lines as the content it returns the
content as it is.

That test counts lines only.  The window at the tail has a line also when it holds only the end
of it, and two windows leave out the line feed where they meet.  So a content over the budget
of bytes comes back whole when its lines split into some that fit the head window and a rest
that fits the tail window, or is a single line of any length.
-/
namespace GajaeCode
open JsString List
variable {content : JsString} {r : TruncationResult} {windowBytes windowLines : Nat}

variable (host : SinkHost)

/-- The windows that the options ask for. -/
structure MiddleWindows where
  maxBytes : Nat
  maxLines : Nat
  headBytes : Int
  headLines : Int
  deriving DecidableEq

namespace MiddleWindows

def tailBytes (w : MiddleWindows) : Nat := (w.maxBytes - w.headBytes).toNat

def tailLines (w : MiddleWindows) : Nat := (w.maxLines - w.headLines).toNat

end MiddleWindows

/-- The options with their defaults. -/
def TruncationOptions.windows (options : TruncationOptions) : MiddleWindows :=
  let maxBytes := options.maxBytes.getD defaultMaxBytes
  let maxLines := options.maxLines.getD defaultMaxLines
  { maxBytes
    maxLines
    headBytes := options.maxHeadBytes.getD ((maxBytes / 2 : Nat) : Int)
    headLines := options.maxHeadLines.getD ((max 1 (maxLines / 2) : Nat) : Int) }

/-- `truncateHead(content, { maxBytes: headBytes, maxLines: headLines })`. -/
def headWindow (content : JsString) (w : MiddleWindows) : TruncationResult :=
  truncateHead content { maxBytes := some w.headBytes.toNat, maxLines := some w.headLines.toNat }

/-- `truncateTail(content, { maxBytes: tailBytes, maxLines: tailLines })`. -/
def tailWindow (content : JsString) (w : MiddleWindows) : TruncationResult :=
  truncateTail content { maxBytes := some w.tailBytes, maxLines := some w.tailLines }

/-- The one window at the tail when there is none at the head:
`truncateTail(content, { maxBytes: tailBytes || maxBytes, maxLines: tailLines || maxLines })`. -/
def soleTailWindow (content : JsString) (w : MiddleWindows) : TruncationResult :=
  truncateTail content
    { maxBytes := some (if w.tailBytes = 0 then w.maxBytes else w.tailBytes)
      maxLines := some (if w.tailLines = 0 then w.maxLines else w.tailLines) }

def truncateMiddle (content : JsString) (options : TruncationOptions) : TruncationResult :=
  let w := options.windows
  let totalBytes := byteLength content
  let totalLines := countNewlines content + 1
  if totalBytes ≤ w.maxBytes ∧ totalLines ≤ w.maxLines then
    noTruncResult content totalLines totalBytes
  else if w.headBytes ≤ 0 ∨ w.headLines ≤ 0 then soleTailWindow content w
  else if w.tailBytes = 0 ∨ w.tailLines = 0 then headWindow content w
  else
    let head := headWindow content w
    let tail := tailWindow content w
    let headLinesKept := head.outputLines.getD 0
    let tailLinesKept := tail.outputLines.getD 0
    let headBytesKept := head.outputBytes.getD (byteLength head.content)
    let tailBytesKept := tail.outputBytes.getD (byteLength tail.content)
    if headLinesKept = 0 ∨ head.firstLineExceedsLimit = some true then tail
    else if tailLinesKept = 0 then head
    else if totalLines ≤ headLinesKept + tailLinesKept then
      -- the windows overlap
      noTruncResult content totalLines totalBytes
    else
      let elidedLines := totalLines - headLinesKept - tailLinesKept
      let elidedBytes := totalBytes - headBytesKept - tailBytesKept
      let marker := OutputSink.formatMiddleElisionMarker host elidedLines elidedBytes
      { content := head.content ++ LF :: (marker ++ LF :: tail.content)
        truncated := some true
        truncatedBy := some .middle
        totalLines
        totalBytes
        outputLines := some (headLinesKept + tailLinesKept + 1)
        outputBytes := some (headBytesKept + tailBytesKept + byteLength marker + 2)
        elidedLines := some elidedLines
        elidedBytes := some elidedBytes
        lastLinePartial := tail.lastLinePartial
        firstLineExceedsLimit := some false }

/-- Apart from a marker and its two separators, a result has at most so many bytes and
lines. -/
def WithinBudget (maxBytes maxLines : Nat) (r : TruncationResult) : Prop :=
  match r.elidedLines with
  | none => byteLength r.content ≤ maxBytes ∧ countNewlines r.content + 1 ≤ maxLines
  | some elidedLines => ∃ head tail,
      r.content = head ++ LF :: (OutputSink.formatMiddleElisionMarker host elidedLines
        (r.elidedBytes.getD 0) ++ LF :: tail) ∧
      byteLength head + byteLength tail ≤ maxBytes ∧
      (countNewlines head + 1) + (countNewlines tail + 1) ≤ maxLines

/-- Every run of first lines within the budgets of a window is within the given ones. -/
def HeadStaysWithin (content : JsString) (windowBytes windowLines maxBytes maxLines : Nat) :
    Prop :=
  ∀ i ≤ (lines content).length, i ≤ windowLines →
    joinedBytes ((lines content).take i) ≤ windowBytes →
      joinedBytes ((lines content).take i) ≤ maxBytes ∧ i ≤ maxLines

/-- Every run of last lines within the budgets of a window is within the given ones, and,
where the last line alone is too long for the window, so is every end of it that fits. -/
def EndStaysWithin (content : JsString) (windowBytes windowLines maxBytes maxLines : Nat) :
    Prop :=
  (∀ i ≤ (lines content).length, i ≤ windowLines →
    joinedBytes ((lines content).drop ((lines content).length - i)) ≤ windowBytes →
      joinedBytes ((lines content).drop ((lines content).length - i)) ≤ maxBytes ∧
        i ≤ maxLines) ∧
  (windowBytes < byteLength (lastLine content) →
    ∀ t, IsCharSuffix t (toWellFormed (lastLine content)) → byteLength t ≤ windowBytes →
      byteLength t ≤ maxBytes)

/-- The lines split, between two of them, into some that fit the head window and a rest
that fits the tail window or is a single line. -/
def WindowsMeet (content : JsString) (w : MiddleWindows) : Prop :=
  ∃ i, 1 ≤ i ∧ i < (lines content).length ∧ (i : Int) ≤ w.headLines ∧
    (lines content).length - i ≤ w.tailLines ∧
    (joinedBytes ((lines content).take i) : Int) ≤ w.headBytes ∧
    (i + 1 = (lines content).length ∨ joinedBytes ((lines content).drop i) ≤ w.tailBytes)

/-- When `truncateMiddle` keeps its budget: the content fits; or there is one window, and
what fits it fits the budget (where a head window is neither negative nor larger than the
whole budget, it always does); or the windows do not meet. -/
def MiddleKeeps (content : JsString) (w : MiddleWindows) : Prop :=
  if byteLength content ≤ w.maxBytes ∧ countNewlines content + 1 ≤ w.maxLines then True
  else if w.headBytes ≤ 0 ∨ w.headLines ≤ 0 then
    EndStaysWithin content (if w.tailBytes = 0 then w.maxBytes else w.tailBytes)
      (if w.tailLines = 0 then w.maxLines else w.tailLines) w.maxBytes w.maxLines
  else if w.tailBytes = 0 ∨ w.tailLines = 0 then
    HeadStaysWithin content w.headBytes.toNat w.headLines.toNat w.maxBytes w.maxLines
  else ¬ WindowsMeet content w

theorem joinedBytes_le_append_left (ls ls' : List JsString) :
    joinedBytes ls ≤ joinedBytes (ls ++ ls') := by
  rw [joinedBytes_append]
  omega

theorem joinedBytes_le_append_right (ls ls' : List JsString) :
    joinedBytes ls' ≤ joinedBytes (ls ++ ls') := by
  rw [joinedBytes_append]
  omega

/-- A run of `i` first lines is part of the longest one exactly when it fits. -/
theorem IsLongestHead.le_length_iff {maxLines maxBytes : Nat} {all kept : List JsString}
    (h : IsLongestHead maxLines maxBytes all kept) {i : Nat} (hi : i ≤ all.length) :
    i ≤ kept.length ↔ i ≤ maxLines ∧ joinedBytes (all.take i) ≤ maxBytes := by
  have hbytes := h.bytes
  rw [byteLength_unlines] at hbytes
  constructor
  · intro hle
    refine ⟨hle.trans h.lines, ?_⟩
    obtain ⟨rest, rfl⟩ := h.run
    rw [take_append_of_le_length hle]
    have := joinedBytes_le_append_left (kept.take i) (kept.drop i)
    rw [take_append_drop] at this
    omega
  · rintro ⟨hlines, hfits⟩
    have hlen : (all.take i).length = i := by simp [hi]
    have := h.longest (all.take i) (List.take_prefix i all) (by omega) (by rwa [byteLength_unlines])
    omega

/-- A run of `i` last lines is part of the longest one exactly when it fits. -/
theorem IsLongestEnd.le_length_iff {maxLines maxBytes : Nat} {all kept : List JsString}
    (h : IsLongestEnd maxLines maxBytes all kept) {i : Nat} (hi : i ≤ all.length) :
    i ≤ kept.length ↔ i ≤ maxLines ∧ joinedBytes (all.drop (all.length - i)) ≤ maxBytes := by
  have hbytes := h.bytes
  rw [byteLength_unlines] at hbytes
  constructor
  · intro hle
    refine ⟨hle.trans h.lines, ?_⟩
    obtain ⟨rest, rfl⟩ := h.run
    have hdrop : (rest ++ kept).drop ((rest ++ kept).length - i) = kept.drop (kept.length - i) := by
      have hcut : (rest ++ kept).length - i = rest.length + (kept.length - i) := by
        rw [length_append]
        omega
      rw [hcut, drop_append]
      simp
    have := joinedBytes_le_append_right (kept.take (kept.length - i)) (kept.drop (kept.length - i))
    rw [take_append_drop] at this
    rw [hdrop]
    omega
  · rintro ⟨hlines, hfits⟩
    have hlen : (all.drop (all.length - i)).length = i := by
      rw [length_drop]
      omega
    have := h.longest _ (drop_suffix (all.length - i) all) (by omega) (by rwa [byteLength_unlines])
    omega

theorem countNewlines_of_run {kept : List JsString} (hne : kept ≠ [])
    (hkept : ∀ l ∈ kept, l ∈ lines content) : countNewlines (unlines kept) + 1 = kept.length :=
  countNewlines_unlines hne (fun l hl => LF_not_mem_of_mem_lines (hkept l hl))

theorem LF_mem_units {c : Char} (h : LF ∈ units c) : c = '\n' := by
  have hc := toNat_lt_or c
  apply char_eq_of_toNat
  rw [units] at h
  split_ifs at h with hsmall
  · have hat := congrArg UInt16.toNat (mem_singleton.mp h)
    rw [toNat_ofNat_unit hsmall] at hat
    exact hat.symm
  · exfalso
    simp only [mem_cons, not_mem_nil, or_false] at h
    rcases h with h | h
    · have hat := congrArg UInt16.toNat h
      rw [toNat_ofNat_unit (by omega)] at hat
      have : LF.toNat = 10 := rfl
      omega
    · have hat := congrArg UInt16.toNat h
      rw [toNat_ofNat_unit (by omega)] at hat
      have : LF.toNat = 10 := rfl
      omega

theorem LF_mem_of_newline_mem {s : JsString} (h : '\n' ∈ codePoints s) : LF ∈ s := by
  have hunit : ∀ u : CodeUnit, unitChar u = '\n' → u = LF := by
    intro u hu
    by_cases hscalar : IsScalarUnit u
    · have := units_unitChar hscalar
      rw [hu] at this
      exact (List.cons.inj this).1.symm
    · have := utf8Size_unitChar hscalar
      rw [hu] at this
      exact absurd this (by decide)
  induction s using codePoints.induct with
  | case1 => exact absurd h not_mem_nil
  | case2 u =>
    have hu : '\n' = unitChar u := mem_singleton.mp h
    rw [hunit u hu.symm]
    exact mem_cons_self
  | case3 u v rest hpair ih =>
    rw [codePoints, if_pos hpair] at h
    rw [Bool.and_eq_true] at hpair
    rcases mem_cons.mp h with hc | h
    · have := utf8Size_pairChar hpair.1 hpair.2
      rw [← hc] at this
      exact absurd this (by decide)
    · exact mem_cons_of_mem _ (mem_cons_of_mem _ (ih h))
  | case4 u v rest hpair ih =>
    rw [codePoints, if_neg hpair] at h
    rcases mem_cons.mp h with hc | h
    · rw [hunit u hc.symm]
      exact mem_cons_self
    · exact mem_cons_of_mem _ (ih h)

theorem LF_not_mem_toWellFormed {s : JsString} (h : LF ∉ s) : LF ∉ toWellFormed s := by
  intro hmem
  obtain ⟨c, hc, hunit⟩ := mem_flatMap.mp hmem
  rw [LF_mem_units hunit] at hc
  exact h (LF_mem_of_newline_mem hc)

theorem LF_not_mem_lastLine (content : JsString) : LF ∉ lastLine content := by
  rw [lastLine]
  rcases hlast : (lines content).getLast? with _ | l
  · exact not_mem_nil
  · exact LF_not_mem_of_mem_lines (mem_of_getLast? hlast)

theorem countNewlines_of_isCharSuffix {t : JsString}
    (h : IsCharSuffix t (toWellFormed (lastLine content))) : countNewlines t + 1 = 1 := by
  obtain ⟨front, rest, hline, rfl⟩ := h
  have hno := LF_not_mem_toWellFormed (LF_not_mem_lastLine content)
  rw [hline, ofChars_append, mem_append, not_or] at hno
  rw [countNewlines, count_eq_zero.mpr hno.2]

/-- The longest end that fits also has the most bytes of those that do. -/
theorem JsString.IsLongestTail.byteLength_le {n : Nat} {s t t' : JsString} (h : IsLongestTail n s t)
    (ht : IsCharSuffix t' s) (hfits : byteLength t' ≤ n) : byteLength t' ≤ byteLength t := by
  have hle := h.longest t' ht hfits
  obtain ⟨front, rest, hline, rfl⟩ := h.suffix
  obtain ⟨front', rest', hline', rfl⟩ := ht
  have hsame := ofChars_injective (hline.symm.trans hline')
  rw [OutputSink.byteLength_ofChars, OutputSink.byteLength_ofChars]
  rcases suffix_or_suffix_of_suffix (suffix_append front' rest')
    (hsame ▸ suffix_append front rest) with ⟨before, rfl⟩ | ⟨before, rfl⟩
  · rw [byteSize_append]
    exact Nat.le_add_left _ _
  · -- the other is no longer, so nothing stands before it
    rw [ofChars_append, length_append] at hle
    obtain rfl : before = [] := by
      cases before with
      | nil => rfl
      | cons c before =>
        rw [ofChars_cons, length_append, length_units] at hle
        split_ifs at hle <;> omega
    exact Nat.le_refl _

theorem KeepsHeadLines.within_iff (h : KeepsHeadLines windowLines windowBytes content r)
    (maxBytes : Nat) {maxLines : Nat} (hpos : 1 ≤ maxLines) :
    (byteLength r.content ≤ maxBytes ∧ countNewlines r.content + 1 ≤ maxLines) ↔
      HeadStaysWithin content windowBytes windowLines maxBytes maxLines := by
  obtain ⟨kept, hlongest, hcontent, -, -⟩ := h.kept
  have hsize : byteLength r.content = joinedBytes kept := by rw [hcontent, byteLength_unlines]
  have hlines : countNewlines r.content + 1 ≤ maxLines ↔ kept.length ≤ maxLines := by
    by_cases hne : kept = []
    · rw [hcontent, hne]
      exact ⟨fun _ => Nat.zero_le _, fun _ => hpos⟩
    · rw [hcontent, countNewlines_of_run hne (fun l hl => hlongest.run.subset hl)]
  rw [hsize, hlines]
  constructor
  · rintro ⟨hbytes, hfew⟩ i hi hiLines hiBytes
    have hle := (hlongest.le_length_iff hi).mpr ⟨hiLines, hiBytes⟩
    refine ⟨?_, hle.trans hfew⟩
    obtain ⟨rest, hrest⟩ := hlongest.run
    rw [← hrest, take_append_of_le_length hle]
    have := joinedBytes_le_append_left (kept.take i) (kept.drop i)
    rw [take_append_drop] at this
    omega
  · intro hstays
    have hsmall := hlongest.bytes
    rw [byteLength_unlines] at hsmall
    obtain ⟨rest, hrest⟩ := hlongest.run
    have htake : (lines content).take kept.length = kept := by rw [← hrest, take_left]
    have := hstays kept.length hlongest.run.length_le hlongest.lines (by rwa [htake])
    rwa [htake] at this

theorem KeepsTailLines.within_iff (h : KeepsTailLines windowLines windowBytes content r)
    (hwindow : 1 ≤ windowLines) (maxBytes : Nat) {maxLines : Nat} (hpos : 1 ≤ maxLines) :
    (byteLength r.content ≤ maxBytes ∧ countNewlines r.content + 1 ≤ maxLines) ↔
      EndStaysWithin content windowBytes windowLines maxBytes maxLines := by
  have hone : lastLine content = unlines [lastLine content] := (unlines_singleton _).symm
  by_cases hlarge : windowBytes < byteLength (lastLine content)
  · -- the result is an end of the last line
    obtain ⟨htail, -, -⟩ := h.partOfLine (h.exceeds.mpr hlarge)
    rw [countNewlines_of_isCharSuffix htail.suffix]
    constructor
    · rintro ⟨hbytes, -⟩
      refine ⟨fun i hi hiLines hiBytes => ?_, fun _ t ht htfits => ?_⟩
      · rcases Nat.eq_zero_or_pos i with rfl | hipos
        · rw [Nat.sub_zero, drop_length]
          exact ⟨Nat.zero_le _, Nat.zero_le _⟩
        · have hne : (lines content).drop ((lines content).length - i) ≠ [] := by
            rw [Ne, drop_eq_nil_iff]
            omega
          have := byteLength_lastLine_le (drop_suffix _ _) hne
          omega
      · exact (htail.byteLength_le ht htfits).trans hbytes
    · exact fun hstays => ⟨hstays.2 hlarge _ htail.suffix htail.fits, hpos⟩
  · obtain ⟨kept, hlongest, hcontent, -, -⟩ := h.kept (Nat.not_lt.mp hlarge)
    have hlast : [lastLine content] <:+ lines content := by
      obtain ⟨front, l, hl⟩ : ∃ front l, lines content = front ++ [l] :=
        ⟨_, _, (dropLast_append_getLast (lines_ne_nil content)).symm⟩
      rw [lastLine, hl, getLast?_concat]
      exact suffix_append front [l]
    have hne : kept ≠ [] := by
      rintro rfl
      have := hlongest.longest _ hlast hwindow (by rw [← hone]; omega)
      exact absurd this (by simp)
    have hsize : byteLength r.content = joinedBytes kept := by rw [hcontent, byteLength_unlines]
    have hlines : countNewlines r.content + 1 = kept.length := by
      rw [hcontent, countNewlines_of_run hne (fun l hl => hlongest.run.subset hl)]
    rw [hsize, hlines]
    constructor
    · rintro ⟨hbytes, hfew⟩
      refine ⟨fun i hi hiLines hiBytes => ?_, fun hover => absurd hover hlarge⟩
      have hle := (hlongest.le_length_iff hi).mpr ⟨hiLines, hiBytes⟩
      refine ⟨?_, hle.trans hfew⟩
      have hrun : (lines content).drop ((lines content).length - i) <:+ kept := by
        apply suffix_of_suffix_length_le (drop_suffix _ _) hlongest.run
        rw [length_drop]
        omega
      obtain ⟨before, rfl⟩ := hrun
      have := joinedBytes_le_append_right before ((lines content).drop ((lines content).length - i))
      omega
    · rintro ⟨hstays, -⟩
      have hsmall := hlongest.bytes
      rw [byteLength_unlines] at hsmall
      obtain ⟨rest, hrest⟩ := hlongest.run
      have hdrop : (lines content).drop ((lines content).length - kept.length) = kept := by
        rw [← hrest, length_append, Nat.add_sub_cancel, drop_left]
      have := hstays kept.length hlongest.run.length_le hlongest.lines (by rwa [hdrop])
      rwa [hdrop] at this

/-! ## Two windows -/

theorem KeepsHeadLines.count (h : KeepsHeadLines windowLines windowBytes content r)
    (hbig : ¬ (byteLength content ≤ windowBytes ∧ countNewlines content + 1 ≤ windowLines)) :
    ∃ count, r.outputLines = some count ∧ count ≤ windowLines ∧
      (r.firstLineExceedsLimit = some true → count = 0) ∧
      (count ≠ 0 → countNewlines r.content + 1 = count) ∧ byteLength r.content ≤ windowBytes ∧
      ∀ i ≤ (lines content).length, i ≤ count ↔
        i ≤ windowLines ∧ joinedBytes ((lines content).take i) ≤ windowBytes := by
  obtain ⟨kept, hlongest, hcontent, hcounts, hwhole⟩ := h.kept
  have hsmall := hlongest.bytes
  have htruncated : r.truncated = some true := by
    by_contra hno
    have hall := hwhole hno
    apply hbig
    rw [hall, unlines_lines] at hsmall
    refine ⟨hsmall, ?_⟩
    rw [countNewlines_add_one, ← hall]
    exact hlongest.lines
  refine ⟨kept.length, (hcounts htruncated).1, hlongest.lines, fun hexceeds => ?_,
    fun hne => ?_, ?_, fun i hi => hlongest.le_length_iff hi⟩
  · by_contra hne
    have := byteLength_firstLine_le hlongest.run (fun hnil => hne (by rw [hnil]; rfl))
    have hlarge := h.exceeds.mp hexceeds
    rw [byteLength_unlines] at hsmall
    omega
  · rw [hcontent]
    exact countNewlines_of_run (fun hnil => hne (by rw [hnil]; rfl))
      (fun l hl => hlongest.run.subset hl)
  · rwa [hcontent]

/-- The number of lines that the tail window keeps of a content that does not fit it: one
at least, if only an end of the last. -/
theorem KeepsTailLines.count (h : KeepsTailLines windowLines windowBytes content r)
    (hwindow : 1 ≤ windowLines)
    (hbig : ¬ (byteLength content ≤ windowBytes ∧ countNewlines content + 1 ≤ windowLines)) :
    ∃ count, r.outputLines = some count ∧ 1 ≤ count ∧ count ≤ windowLines ∧
      countNewlines r.content + 1 = count ∧ byteLength r.content ≤ windowBytes ∧
      ∀ i, 1 ≤ i → i ≤ (lines content).length → (i ≤ count ↔ i ≤ windowLines ∧ (i = 1 ∨
        joinedBytes ((lines content).drop ((lines content).length - i)) ≤ windowBytes)) := by
  have hrunNe : ∀ i, 1 ≤ i → i ≤ (lines content).length →
      (lines content).drop ((lines content).length - i) ≠ [] := by
    intro i hi hle
    rw [Ne, drop_eq_nil_iff]
    omega
  by_cases hlarge : windowBytes < byteLength (lastLine content)
  · obtain ⟨htail, hcount, -⟩ := h.partOfLine (h.exceeds.mpr hlarge)
    refine ⟨1, hcount, Nat.le_refl 1, hwindow, countNewlines_of_isCharSuffix htail.suffix,
      htail.fits, fun i hi hle => ⟨fun hone => ⟨by omega, .inl (by omega)⟩, ?_⟩⟩
    rintro ⟨-, rfl | hfits⟩
    · exact Nat.le_refl 1
    · have := byteLength_lastLine_le (drop_suffix _ _) (hrunNe i hi hle)
      omega
  · obtain ⟨kept, hlongest, hcontent, hcounts, hwhole⟩ := h.kept (Nat.not_lt.mp hlarge)
    have hsmall := hlongest.bytes
    have htruncated : r.truncated = some true := by
      by_contra hno
      have hall := hwhole hno
      apply hbig
      rw [hall, unlines_lines] at hsmall
      refine ⟨hsmall, ?_⟩
      rw [countNewlines_add_one, ← hall]
      exact hlongest.lines
    obtain ⟨front, l, hl⟩ : ∃ front l, lines content = front ++ [l] :=
      ⟨_, _, (dropLast_append_getLast (lines_ne_nil content)).symm⟩
    have hlastLine : lastLine content = l := by
      rw [lastLine, hl, getLast?_concat]
      rfl
    have hone : (lines content).drop ((lines content).length - 1) = [l] := by
      rw [hl, length_append, length_singleton, Nat.add_sub_cancel, drop_left]
    have hlen : 1 ≤ (lines content).length := length_pos_iff.mpr (lines_ne_nil content)
    have hpos : 1 ≤ kept.length := by
      rw [hlongest.le_length_iff hlen, hone, joinedBytes_singleton, ← hlastLine]
      exact ⟨hwindow, Nat.not_lt.mp hlarge⟩
    refine ⟨kept.length, (hcounts htruncated).1, hpos, hlongest.lines, ?_, by rwa [hcontent],
      fun i hi hle => ?_⟩
    · rw [hcontent]
      exact countNewlines_of_run (fun hnil => by rw [hnil] at hpos; exact absurd hpos (by decide))
        (fun l hl => hlongest.run.subset hl)
    · rw [hlongest.le_length_iff hle]
      constructor
      · exact And.imp_right .inr
      · rintro ⟨hlines, rfl | hfits⟩
        · rw [hone, joinedBytes_singleton, ← hlastLine]
          exact ⟨hlines, Nat.not_lt.mp hlarge⟩
        · exact ⟨hlines, hfits⟩

/-- Two windows with lines in them share or touch exactly when they meet. -/
theorem windowsMeet_iff {w : MiddleWindows} {headCount tailCount : Nat}
    (hhead : ∀ i ≤ (lines content).length, (i ≤ headCount ↔ i ≤ w.headLines.toNat ∧ joinedBytes
      ((lines content).take i) ≤ w.headBytes.toNat))
    (htail : ∀ i, 1 ≤ i → i ≤ (lines content).length → (i ≤ tailCount ↔ i ≤ w.tailLines ∧ (i = 1 ∨
      joinedBytes ((lines content).drop ((lines content).length - i)) ≤ w.tailBytes)))
    (htailPos : 1 ≤ tailCount) (hmany : 2 ≤ (lines content).length) (hbytes : 0 < w.headBytes)
    (hlines : 0 < w.headLines) : WindowsMeet content w ↔
      headCount ≠ 0 ∧ (lines content).length ≤ headCount + tailCount := by
  constructor
  · rintro ⟨i, hi, hilt, hiLines, hrest, hiBytes, hor⟩
    have hin := (hhead i hilt.le).mpr ⟨by omega, by omega⟩
    have hrestIn := (htail ((lines content).length - i) (by omega) (by omega)).mpr ⟨hrest, by
      rcases hor with hone | hfits
      · exact .inl (by omega)
      · right
        rwa [Nat.sub_sub_self hilt.le]⟩
    exact ⟨by omega, by omega⟩
  · rintro ⟨hne, hmeet⟩
    obtain ⟨i, hidef⟩ : ∃ i, i = max 1 ((lines content).length - tailCount) := ⟨_, rfl⟩
    have hin := (hhead i (by omega)).mp (by omega)
    have hrestIn := (htail ((lines content).length - i) (by omega) (by omega)).mp (by omega)
    refine ⟨i, by omega, by omega, by omega, hrestIn.1, by omega, ?_⟩
    rcases hrestIn.2 with hone | hfits
    · exact .inl (by omega)
    · right
      rwa [Nat.sub_sub_self (by omega)] at hfits

/-! ## The budget -/

theorem truncateHead_elidedLines (content : JsString) (options : TruncationOptions) :
    (truncateHead content options).elidedLines = none := by
  simp only [truncateHead]
  split
  · rfl
  · split <;> rfl

theorem truncateTail_elidedLines (content : JsString) (options : TruncationOptions) :
    (truncateTail content options).elidedLines = none := by
  simp only [truncateTail]
  split
  · rfl
  · split <;> rfl

variable {host}

theorem withinBudget_of_not_elided {maxBytes maxLines : Nat} (h : r.elidedLines = none) :
    WithinBudget host maxBytes maxLines r ↔
      byteLength r.content ≤ maxBytes ∧ countNewlines r.content + 1 ≤ maxLines := by
  rw [WithinBudget, h]

/-- **`truncateMiddle` keeps its budget exactly where the windows do not meet.**  For every
content and all options with at least two lines. -/
theorem truncateMiddle_within_iff (content : JsString) {options : TruncationOptions}
    (hlines : 2 ≤ options.windows.maxLines) :
    WithinBudget host options.windows.maxBytes options.windows.maxLines
        (truncateMiddle host content options) ↔ MiddleKeeps content options.windows := by
  generalize hw : options.windows = w at hlines ⊢
  simp only [truncateMiddle, hw, MiddleKeeps]
  by_cases hfits : byteLength content ≤ w.maxBytes ∧ countNewlines content + 1 ≤ w.maxLines
  · rw [if_pos hfits, if_pos hfits, withinBudget_of_not_elided rfl]
    exact iff_true_intro hfits
  rw [if_neg hfits, if_neg hfits]
  by_cases hnoHead : w.headBytes ≤ 0 ∨ w.headLines ≤ 0
  · have helided : (soleTailWindow content w).elidedLines = none := truncateTail_elidedLines _ _
    rw [if_pos hnoHead, if_pos hnoHead, withinBudget_of_not_elided helided]
    have hwindow : 1 ≤ if w.tailLines = 0 then w.maxLines else w.tailLines := by
      split_ifs <;> omega
    have hkeeps : KeepsTailLines _ _ content (soleTailWindow content w) :=
      truncateTail_keepsTailLines content _ rfl rfl hwindow
    exact hkeeps.within_iff hwindow _ (by omega)
  rw [if_neg hnoHead, if_neg hnoHead]
  obtain ⟨hheadBytesPos, hheadLinesPos⟩ : 0 < w.headBytes ∧ 0 < w.headLines := by omega
  have hheadElided : (headWindow content w).elidedLines = none := truncateHead_elidedLines _ _
  have htailElided : (tailWindow content w).elidedLines = none := truncateTail_elidedLines _ _
  have hhead : KeepsHeadLines w.headLines.toNat w.headBytes.toNat content (headWindow content w) :=
    truncateHead_keepsHeadLines content _ rfl rfl (by omega)
  by_cases hnoTail : w.tailBytes = 0 ∨ w.tailLines = 0
  · rw [if_pos hnoTail, if_pos hnoTail, withinBudget_of_not_elided hheadElided]
    exact hhead.within_iff _ (by omega)
  rw [if_neg hnoTail, if_neg hnoTail]
  rw [not_or] at hnoTail
  have htail : KeepsTailLines w.tailLines w.tailBytes content (tailWindow content w) :=
    truncateTail_keepsTailLines content _ rfl rfl (by omega)
  -- the two windows share the budget
  have hsumBytes : w.headBytes.toNat + w.tailBytes = w.maxBytes := by
    rw [MiddleWindows.tailBytes] at hnoTail ⊢
    omega
  have hsumLines : w.headLines.toNat + w.tailLines = w.maxLines := by
    rw [MiddleWindows.tailLines] at hnoTail ⊢
    omega
  obtain ⟨headCount, hheadCount, hheadWindow, hexceeds, hheadLines, hheadBytes, hheadIff⟩ :=
    hhead.count (by omega)
  obtain ⟨tailCount, htailCount, htailPos, htailWindow, htailLines, htailBytes, htailIff⟩ :=
    htail.count (by omega) (by omega)
  have hlen := countNewlines_add_one content
  simp only [hheadCount, htailCount, Option.getD_some]
  generalize headWindow content w = head at *
  generalize tailWindow content w = tail at *
  have hmany : headCount ≠ 0 → 2 ≤ (lines content).length := by
    intro hne
    by_contra hfew
    have hall := (hheadIff (lines content).length (Nat.le_refl _)).mp (by omega)
    rw [take_length, joinedBytes_lines] at hall
    omega
  by_cases hnone : headCount = 0
  · -- the first line does not fit its window: the tail alone
    rw [if_pos (.inl hnone), withinBudget_of_not_elided htailElided]
    refine iff_of_true ⟨by omega, by omega⟩ ?_
    rintro ⟨i, hi, hilt, hiLines, -, hiBytes, -⟩
    have := (hheadIff i hilt.le).mpr ⟨by omega, by omega⟩
    omega
  have hmeet := windowsMeet_iff hheadIff htailIff htailPos (hmany hnone) hheadBytesPos hheadLinesPos
  rw [if_neg (not_or.mpr ⟨hnone, fun h => hnone (hexceeds h)⟩), if_neg (by omega), hmeet]
  by_cases hoverlap : countNewlines content + 1 ≤ headCount + tailCount
  · rw [if_pos hoverlap, withinBudget_of_not_elided rfl]
    exact iff_of_false hfits (fun hno => hno ⟨hnone, by omega⟩)
  · rw [if_neg hoverlap]
    have hheadSize := hheadLines hnone
    refine iff_of_true ⟨head.content, tail.content, rfl, by omega, by omega⟩ ?_
    exact fun hmeets => hoverlap (by omega)

/-- Two lines in four bytes: the second line is too long, and the end of it is kept. -/
theorem truncateMiddle_within_three_lines : WithinBudget TracedSink.plainHost 4 4
      (truncateMiddle TracedSink.plainHost (js "a\nb\ncccccc")
        { maxBytes := some 4, maxLines := some 4 }) := by
  have hkeeps : MiddleKeeps (js "a\nb\ncccccc")
      ({ maxBytes := some 4, maxLines := some 4 } : TruncationOptions).windows := by
    rw [MiddleKeeps, if_neg (by decide), if_neg (by decide), if_neg (by decide)]
    rintro ⟨i, hi, hilt, -, -, hmeets⟩
    have hlen : (lines (js "a\nb\ncccccc")).length = 3 := by decide
    obtain rfl | rfl : i = 1 ∨ i = 2 := by omega
    · exact absurd hmeets (by decide)
    · exact absurd hmeets (by decide)
  exact (truncateMiddle_within_iff (js "a\nb\ncccccc") (by decide)).mpr hkeeps

/-- A short line and one of eight bytes, with a budget of four: the windows have a line
each, as many as there are, and all ten bytes come back. -/
theorem truncateMiddle_returns_long_line : (truncateMiddle TracedSink.plainHost (js "a\ncccccccc")
        { maxBytes := some 4, maxLines := some 4 }).content = js "a\ncccccccc" ∧
      ¬ WithinBudget TracedSink.plainHost 4 4
        (truncateMiddle TracedSink.plainHost (js "a\ncccccccc")
          { maxBytes := some 4, maxLines := some 4 }) := by
  have hcontent : (truncateMiddle TracedSink.plainHost (js "a\ncccccccc")
      { maxBytes := some 4, maxLines := some 4 }).content = js "a\ncccccccc" := by
    decide
  refine ⟨hcontent, fun hwithin => ?_⟩
  rw [withinBudget_of_not_elided (by decide), hcontent] at hwithin
  exact absurd hwithin.1 (by decide)

end GajaeCode
