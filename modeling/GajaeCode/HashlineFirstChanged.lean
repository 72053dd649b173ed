import GajaeCode.HashlineSurvivors

/-! # The first changed line of a batch

`applyHashlineEdits` reports the least line it changed.  It is a running minimum of
numbers in two coordinate systems: the buckets count lines of the file as it was,
the insert at the end counts lines of the file as it has become.  What both kinds
of numbers have in common is that the lines below them are still the first lines
of the file (`KeptBelow`), and a smaller number keeps this.
-/
namespace GajaeCode
open JsString Splices List

section KeptBelow
variable {fileLines xs ls : List JsString} {first : Option Nat} {line : Nat}

/-- The lines below the first one changed are those of the file; without one, all
of them are. -/
def KeptBelow (fileLines output : List JsString) : Option Nat → Prop
  | none => output = fileLines
  | some k => 1 ≤ k ∧ k ≤ fileLines.length + 1 ∧ output.take (k - 1) = fileLines.take (k - 1)

/-- Every number the reported one may stand for is sound. -/
theorem KeptBelow.of_le {k m : Nat} (h : KeptBelow fileLines xs (some m)) (hk : 1 ≤ k)
    (hkm : k ≤ m) : KeptBelow fileLines xs (some k) := by
  obtain ⟨_, hm, htake⟩ := h
  refine ⟨hk, by omega, ?_⟩
  have hmin : min (k - 1) (m - 1) = k - 1 := by omega
  have := congrArg (take (k - 1)) htake
  rwa [take_take, take_take, hmin] at this

theorem KeptBelow.at {k : Nat} (h : KeptBelow fileLines xs first) (hk : 1 ≤ k)
    (hlength : k ≤ fileLines.length + 1) (hfirst : ∀ m, first = some m → k ≤ m) :
    KeptBelow fileLines xs (some k) := by
  cases first with
  | none => exact ⟨hk, hlength, congrArg (take (k - 1)) h⟩
  | some m => exact h.of_le hk (hfirst m rfl)

theorem KeptBelow.le_length {k : Nat} (h : KeptBelow fileLines xs (some k)) :
    k - 1 ≤ xs.length := by
  obtain ⟨_, hk, htake⟩ := h
  have := congrArg length htake
  rw [length_take, length_take] at this
  omega

/-- What matters is the part of the output below the number. -/
theorem KeptBelow.of_take {ys : List JsString} {k : Nat} (h : KeptBelow fileLines xs (some k))
    (htake : ys.take (k - 1) = xs.take (k - 1)) : KeptBelow fileLines ys (some k) :=
  ⟨h.1, h.2.1, htake.trans h.2.2⟩

theorem trackFirstChanged_eq (first : Option Nat) (line : Nat) :
    ∃ k, trackFirstChanged first line = some k ∧ k ≤ line ∧ (k = line ∨ first = some k) ∧
      ∀ m, first = some m → k ≤ m := by
  cases first with
  | none => exact ⟨line, rfl, le_rfl, Or.inl rfl, by rintro m ⟨⟩⟩
  | some m =>
    by_cases hlt : line < m
    · refine ⟨line, by simp [trackFirstChanged, hlt], le_rfl, Or.inl rfl, ?_⟩
      rintro m' ⟨⟩
      exact hlt.le
    · refine ⟨m, by simp [trackFirstChanged, hlt], by omega, Or.inr rfl, ?_⟩
      rintro m' ⟨⟩
      exact le_rfl

theorem KeptBelow.splice (h : KeptBelow fileLines xs first) (hpos : 1 ≤ line)
    (hlength : line ≤ fileLines.length) (hfirst : ∀ m, first = some m → line ≤ m) :
    KeptBelow fileLines (splice xs (line - 1) ls) (trackFirstChanged first line) := by
  have hline := h.at hpos (by omega) hfirst
  obtain ⟨k, hk, hle, hcases, -⟩ := trackFirstChanged_eq first line
  obtain rfl : k = line := by
    rcases hcases with rfl | hm
    · rfl
    · exact le_antisymm hle (hfirst k hm)
  rw [hk]
  refine hline.of_take ?_
  rw [Splices.splice, append_assoc,
    take_append_of_le_length (by rw [length_take]; have := hline.le_length; omega),
    take_take, min_self]

end KeptBelow

section Buckets
variable {fileLines : List JsString} {edits : List HashlineEdit}

theorem KeptBelow.applyBucket {byLine : List (Nat × List IndexedEdit)} {s : ApplyState}
    {line : Nat} (h : KeptBelow fileLines s.fileLines s.firstChangedLine) (hpos : 1 ≤ line)
    (hlength : line ≤ fileLines.length) (hfirst : ∀ m, s.firstChangedLine = some m → line ≤ m) :
    KeptBelow fileLines (applyBucket byLine s line).fileLines
        (applyBucket byLine s line).firstChangedLine ∧
      ∀ m, (applyBucket byLine s line).firstChangedLine = some m → line ≤ m := by
  rw [GajaeCode.applyBucket]
  split
  · exact ⟨h, hfirst⟩
  · dsimp only
    split
    · exact ⟨h, hfirst⟩
    · refine ⟨h.splice hpos hlength hfirst, ?_⟩
      intro m hm
      obtain ⟨k, hk, -, hcases, -⟩ := trackFirstChanged_eq s.firstChangedLine line
      obtain rfl : k = m := some.inj (hk.symm.trans hm)
      rcases hcases with rfl | hm
      · exact le_rfl
      · exact hfirst k hm

/-- The buckets from the bottom up: each is at or above the last one changed. -/
theorem KeptBelow.foldl_applyBucket {byLine : List (Nat × List IndexedEdit)} {keys : List Nat}
    (hkeys : keys.Pairwise (· ≥ ·)) (hrange : ∀ line ∈ keys, 1 ≤ line ∧ line ≤ fileLines.length)
    {s : ApplyState} (h : KeptBelow fileLines s.fileLines s.firstChangedLine)
    (hfirst : ∀ line ∈ keys, ∀ m, s.firstChangedLine = some m → line ≤ m) :
    KeptBelow fileLines (keys.foldl (GajaeCode.applyBucket byLine) s).fileLines
      (keys.foldl (GajaeCode.applyBucket byLine) s).firstChangedLine := by
  induction keys generalizing s with
  | nil => exact h
  | cons line keys ih =>
    obtain ⟨hbelow, hkeys⟩ := pairwise_cons.mp hkeys
    obtain ⟨hpos, hlength⟩ := hrange line mem_cons_self
    obtain ⟨hstep, hleast⟩ := @KeptBelow.applyBucket _ byLine _ _ h hpos hlength
      (hfirst line mem_cons_self)
    rw [foldl_cons]
    refine ih hkeys (fun l hl => hrange l (mem_cons_of_mem _ hl)) hstep ?_
    intro l hl m hm
    exact (hbelow l hl).trans (hleast m hm)

theorem keptBelow_applyAnchored (hin : InFile fileLines edits) :
    KeptBelow fileLines (applyAnchored fileLines edits).fileLines
      (applyAnchored fileLines edits).firstChangedLine := by
  refine KeptBelow.foldl_applyBucket (pairwise_insertionSort _ _) ?_ rfl ?_
  · intro line hline
    rw [mem_insertionSort] at hline
    obtain ⟨⟨edit, idx⟩, hentry, rfl⟩ := ((bucketAnchorEditsByLine_spec _).2.1 line).mp hline
    obtain ⟨hzip, hanchor⟩ := mem_filter.mp hentry
    exact hin edit (fst_mem_of_mem_zipIdx hzip) hanchor
  · rintro line - m ⟨⟩

end Buckets

section Ends
variable {fileLines : List JsString} {edits : List HashlineEdit}

/-- Where the lines at the end go, and the line reported for it. -/
theorem insertAtEnd_cases (xs ls : List JsString) : (ls = [] ∧ insertAtEnd xs ls = (xs, none)) ∨
      (insertAtEnd xs ls).2 = some 1 ∨
      ∃ i ≤ xs.length, insertAtEnd xs ls = (xs.take i ++ ls ++ xs.drop i, some (i + 1)) := by
  unfold insertAtEnd
  by_cases hls : ls.length = 0
  · exact Or.inl ⟨length_eq_zero_iff.mp hls, if_pos hls⟩
  · rw [if_neg hls]
    by_cases hxs : xs = [[]]
    · exact Or.inr (Or.inl (by rw [if_pos hxs]))
    · rw [if_neg hxs]
      refine Or.inr (Or.inr ⟨_, ?_, rfl⟩)
      split <;> omega

theorem keptBelow_one (fileLines xs : List JsString) : KeptBelow fileLines xs (some 1) :=
  ⟨le_rfl, by omega, by simp⟩

section
variable {xs : List JsString} {first : Option Nat} (h : KeptBelow fileLines xs first)
include h

theorem KeptBelow.trackFirstChanged_one : trackFirstChanged first 1 = some 1 := by
  obtain ⟨k, hk, hle, hcases, -⟩ := trackFirstChanged_eq first 1
  rcases hcases with rfl | rfl
  · exact hk
  · rw [hk, le_antisymm hle h.1]

/-- The end is where the edited file ends: below it are edited lines, and of these
the ones below the least bucket are lines of the file. -/
theorem KeptBelow.insertAtEnd {i : Nat} (hi : i ≤ xs.length) (ls : List JsString) :
    KeptBelow fileLines (xs.take i ++ ls ++ xs.drop i) (trackFirstChanged first (i + 1)) := by
  obtain ⟨k, hk, hle, hcases, hleast⟩ := trackFirstChanged_eq first (i + 1)
  rw [hk]
  have hpos : 1 ≤ k := by
    rcases hcases with rfl | rfl
    · omega
    · exact h.1
  have hlength : k ≤ fileLines.length + 1 := by
    cases first with
    | none =>
      obtain rfl : xs = fileLines := h
      omega
    | some m => exact (hleast m rfl).trans h.2.1
  refine (h.at hpos hlength hleast).of_take ?_
  have hki : k - 1 ≤ i := by omega
  rw [append_assoc, take_append_of_le_length (by rw [length_take]; omega),
    take_take, min_eq_left hki]

end

theorem keptBelow_applyNormalized (hin : InFile fileLines edits) :
    KeptBelow fileLines (applyNormalized fileLines edits).fileLines
      (applyNormalized fileLines edits).firstChangedLine := by
  have hanchored := keptBelow_applyAnchored hin
  unfold applyNormalized
  dsimp only
  generalize applyAnchored fileLines edits = anchored at hanchored
  have hstarted : KeptBelow fileLines (insertAtStart anchored.fileLines (edits.filterMap bofText?))
      (if (edits.filterMap bofText?).length > 0 then trackFirstChanged anchored.firstChangedLine 1
        else anchored.firstChangedLine) := by
    by_cases hbof : (edits.filterMap bofText?).length > 0
    · rw [if_pos hbof]
      rw [hanchored.trackFirstChanged_one]
      exact keptBelow_one _ _
    · rw [if_neg hbof, insertAtStart, if_pos (by omega)]
      exact hanchored
  generalize insertAtStart anchored.fileLines (edits.filterMap bofText?) = started at hstarted ⊢
  generalize (if (edits.filterMap bofText?).length > 0 then
    trackFirstChanged anchored.firstChangedLine 1 else anchored.firstChangedLine) = first at *
  rcases insertAtEnd_cases started (edits.filterMap eofText?) with ⟨-, hend⟩ | hend | ⟨i, hi, hend⟩
  · rw [hend]
    exact hstarted
  · rw [hend]
    dsimp only
    rw [hstarted.trackFirstChanged_one]
    exact keptBelow_one _ _
  · rw [hend]
    exact hstarted.insertAtEnd hi _

end Ends

/-- Joining and splitting again gives back the lines before any line with a
separator in it. -/
theorem take_lines_unlines {ls : List JsString} {n : Nat} (hn : n ≤ ls.length)
    (hfree : ∀ l ∈ ls.take n, LF ∉ l) : (lines (unlines ls)).take n = ls.take n := by
  rcases eq_or_ne ls [] with rfl | hne
  · obtain rfl : n = 0 := by simpa using hn
    rfl
  · have hsplit : (ls.take n).flatMap lines = ls.take n := by
      rw [← flatMap_singleton' (ls.take n), flatMap_assoc]
      refine flatMap_congr fun l hl => ?_
      simpa using lines_of_not_mem (hfree l hl)
    rw [lines_unlines_flatMap hne]
    conv_lhs => rw [← take_append_drop n ls, flatMap_append, hsplit]
    rw [take_append_of_le_length (by rw [length_take]; omega), take_take, min_self]

theorem KeptBelow.of_lines {text : JsString} {xs : List JsString} {first : Option Nat}
    (h : KeptBelow (lines text) xs first) : KeptBelow (lines text) (lines (unlines xs)) first := by
  cases first with
  | none =>
    obtain rfl : xs = lines text := h
    exact congrArg lines (unlines_lines text)
  | some k =>
    refine h.of_take (take_lines_unlines h.le_length fun l hl => ?_)
    rw [h.2.2] at hl
    exact LF_not_mem_of_mem_lines (mem_of_mem_take hl)

/-- **The first changed line is sound.**  When a batch is applied, whatever its mix
of inserts, deletes and absorbed boundary lines: if line `k` is reported then the
lines below `k` of the output are those of the input, and if no line is reported
the output is the input. -/
theorem applyHashlineEdits_firstChangedLine (xxHash32 : List UInt8 → UInt32) (text : JsString)
    (edits : List HashlineEdit) (options : HashlineApplyOptions) (result : HashlineApplyResult)
    (hresult : applyHashlineEdits xxHash32 text edits options = .ok result) :
    (∀ k, result.firstChangedLine = some k → 1 ≤ k ∧ k - 1 ≤ (lines text).length ∧
        (lines result.lines).take (k - 1) = (lines text).take (k - 1)) ∧
      (result.firstChangedLine = none → result.lines = text) := by
  rcases eq_or_ne edits [] with rfl | hne
  · obtain rfl : (⟨text, none, []⟩ : HashlineApplyResult) = result := Except.ok.inj hresult
    exact ⟨by rintro k ⟨⟩, fun _ => rfl⟩
  have hvalid : validateHashlineAnchors xxHash32 edits (lines text) = .ok [] := by
    unfold applyHashlineEdits at hresult
    rw [if_neg (by simpa using hne)] at hresult
    dsimp only at hresult
    split at hresult
    · cases hresult
    · cases hresult
    · assumption
  obtain rfl := Except.ok.inj ((applyHashlineEdits_of_valid options hvalid hne).symm.trans hresult)
  have hin : InFile (lines text) (normalizedEdits xxHash32 edits (lines text) options) :=
    inFile_normalizeCursor
      (anchorValid_absorbed options (validateHashlineAnchors_eq_ok_nil.mp hvalid))
  have hkept := (keptBelow_applyNormalized hin).of_lines
  dsimp only
  constructor
  · intro k hk
    rw [hk] at hkept
    obtain ⟨hpos, hlength, htake⟩ := hkept
    exact ⟨hpos, by omega, htake⟩
  · intro hnone
    rw [hnone] at hkept
    have := congrArg unlines (show lines _ = lines text from hkept)
    rwa [unlines_lines, unlines_lines] at this

/-- On `a`, `b`, `c` the insert after line 1 and the edits of line 2 are reported at
line 2. -/
theorem applyHashlineEdits_firstChangedLine_sample :
    ∃ result, applyHashlineEdits Xxh32.xxh32 (js "a\nb\nc") sampleEdits ⟨false⟩ = .ok result ∧
      result.firstChangedLine = some 2 ∧
      (lines result.lines).take 1 = [js "a"] := by
  have hresult : ∃ result,
      applyHashlineEdits Xxh32.xxh32 (js "a\nb\nc") sampleEdits ⟨false⟩ = .ok result ∧
        result.firstChangedLine = some 2 := ⟨⟨js "a\nY\nX\nc", some 2, []⟩, by decide +kernel, rfl⟩
  obtain ⟨result, hresult, hfirst⟩ := hresult
  refine ⟨result, hresult, hfirst, ?_⟩
  exact (applyHashlineEdits_firstChangedLine Xxh32.xxh32 (js "a\nb\nc") sampleEdits ⟨false⟩ result
    hresult).1 2 hfirst |>.2.2

end GajaeCode
