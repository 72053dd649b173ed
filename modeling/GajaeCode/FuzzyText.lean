import GajaeCode.JsString

/-! # The text fuzzy matching compares

Fuzzy edit matching exists in TypeScript (`edit/normalize.ts`, `edit/modes/replace.ts`) and in
the native addon (`crates/pi-natives/src/edit_fuzzy.rs`).  Both trim a line, fold typographic
quotes and dashes, collapse blanks and compare the results; both put `depth|` before a line
when indentation counts.

`normalizeForFuzzy` is a chain of replacements; `normalizeLine` is one pass with a pending
blank.  The pass writes no blank behind the `|` of a prefix, but no caller has a prefix in its
buffer: the check only drops blanks behind a `|` of the line itself, and the two agree exactly
on the lines without one (`normalizeLine_eq_iff`).
-/
namespace GajaeCode.FuzzyText
open JsString List
variable {u : CodeUnit}

def SPACE : CodeUnit := 0x0020

def TAB : CodeUnit := 0x0009

def PIPE : CodeUnit := 0x007c

/-- The class `[ \t]`. -/
def isBlank (u : CodeUnit) : Bool := u == SPACE || u == TAB

/-! ## The TypeScript side: `normalizeForFuzzy` -/

/-- `s.replace(/[cls]/g, replacement)` for a class and a replacement of one unit. -/
def replaceClass (cls : List CodeUnit) (replacement : CodeUnit) (s : JsString) : JsString :=
  s.map fun u => if u ∈ cls then replacement else u

/-- `s.replace(/[ \t]+/g, " ")`; `inRun` says that the run of blanks before the
rest of the string has been replaced already. -/
def collapseBlanks : Bool → JsString → JsString
  | _, [] => []
  | inRun, u :: rest =>
      if isBlank u then
        if inRun then collapseBlanks true rest else SPACE :: collapseBlanks true rest
      else u :: collapseBlanks false rest

/-- The first class of `normalizeForFuzzy`: both `"` are ASCII. -/
def doubleQuotes : List CodeUnit := [0x0022, 0x0022, 0x201e, 0x201f, 0x00ab, 0x00bb]

/-- The second class: both `'` are ASCII. -/
def singleQuotes : List CodeUnit := [0x0027, 0x0027, 0x201a, 0x201b, 0x0060, 0x00b4]

/-- The third class. -/
def dashes : List CodeUnit := [0x2010, 0x2011, 0x2012, 0x2013, 0x2014, 0x2212]

def normalizeForFuzzy (line : JsString) : JsString :=
  let trimmed := trim line
  if trimmed.length = 0 then []
  else
    collapseBlanks false
      (replaceClass dashes 0x002d
        (replaceClass singleQuotes 0x0027 (replaceClass doubleQuotes 0x0022 trimmed)))

/-! ## The native side: `normalize_line` -/

def isJsTrimWhitespace (unit : UInt16) : Bool :=
  unit == 0x0009 || unit == 0x000a || unit == 0x000b || unit == 0x000c || unit == 0x000d ||
  unit == 0x0020 || unit == 0x00a0 || unit == 0x1680 || (0x2000 ≤ unit && unit ≤ 0x200a) ||
  unit == 0x2028 || unit == 0x2029 || unit == 0x202f || unit == 0x205f || unit == 0x3000 ||
  unit == 0xfeff

/-- `Line`: a slice of the units of a text. -/
abbrev Line := List UInt16

/-- `line.units[start..end]` for `(start, end) = line.trimmed_bounds()`. -/
def trimmedUnits (line : Line) : Line :=
  (line.dropWhile isJsTrimWhitespace).rdropWhile isJsTrimWhitespace

def isEmptyTrim (line : Line) : Bool := (trimmedUnits line).isEmpty

/-- `Line::leading_indent`; `countLeadingWhitespace` of `edit/normalize.ts` is
the same loop. -/
def leadingIndent (line : Line) : Nat := (line.takeWhile isBlank).length

def pushDepthPrefix (out : List UInt16) (depth : Nat) (includeDepth : Bool) : List UInt16 :=
  (if includeDepth then
      if depth = 0 then out ++ [0x0030] else out ++ JsString.ofNat depth
    else out) ++ [PIPE]

/-- The `match` on a unit in `normalize_line`. -/
def mapUnit (unit : UInt16) : UInt16 :=
  if unit ∈ [0x201e, 0x201f, 0x00ab, 0x00bb] then 0x0022
  else if unit ∈ [0x201a, 0x201b, 0x0060, 0x00b4] then 0x0027
  else if unit ∈ [0x2010, 0x2011, 0x2012, 0x2013, 0x2014, 0x2212] then 0x002d
  else unit

/-- The loop variables of `normalize_line`. -/
structure Scan where
  out : List UInt16
  pendingSpace : Bool

def scanUnit (s : Scan) (unit : UInt16) : Scan :=
  if isBlank unit then { s with pendingSpace := true }
  else
    let out :=
      if s.pendingSpace && !s.out.isEmpty && s.out.getLast? != some PIPE then s.out ++ [SPACE]
      else s.out
    { out := out ++ [mapUnit unit], pendingSpace := false }

def normalizeLine (line : Line) (prefixDepth : Option Nat) : List UInt16 :=
  let out :=
    match prefixDepth with
    | some depth => pushDepthPrefix [] depth true
    | none => []
  ((trimmedUnits line).foldl scanUnit ⟨out, false⟩).out

/-! ## Where the two agree -/

/-- A `|` with a blank right after it. -/
def PipeThenBlank (s : JsString) : Prop := [PIPE, SPACE] <:+: s ∨ [PIPE, TAB] <:+: s

instance (s : JsString) : Decidable (PipeThenBlank s) := inferInstanceAs (Decidable (_ ∨ _))

theorem PipeThenBlank.mem {s : JsString} (h : PipeThenBlank s) : PIPE ∈ s :=
  h.elim (fun h => h.subset mem_cons_self) fun h => h.subset mem_cons_self

theorem not_pipeThenBlank_nil : ¬ PipeThenBlank [] := by decide

theorem pipeThenBlank_cons (u : CodeUnit) (s : JsString) :
    PipeThenBlank (u :: s) ↔ (u = PIPE ∧ ∃ b ∈ s.head?, isBlank b = true) ∨ PipeThenBlank s := by
  have hhead : ∀ b, [PIPE, b] <+: u :: s ↔ u = PIPE ∧ s.head? = some b := by
    intro b
    rw [cons_prefix_cons]
    cases s with
    | nil => simp
    | cons c s => simp [cons_prefix_cons, eq_comm]
  unfold PipeThenBlank
  rw [infix_cons_iff, infix_cons_iff, hhead, hhead]
  cases s with
  | nil => simp
  | cons c s =>
    simp only [head?_cons, Option.some.injEq, Option.mem_some_iff, exists_eq_left', isBlank,
      Bool.or_eq_true, beq_iff_eq]
    tauto

theorem trimmedUnits_eq_trim (line : Line) : trimmedUnits line = trim line := rfl

theorem isBlank_of_not_isWhitespace (h : isWhitespace u = false) : isBlank u = false := by
  cases hu : isBlank u with
  | false => rfl
  | true =>
    simp only [isBlank, Bool.or_eq_true, beq_iff_eq] at hu
    rcases hu with rfl | rfl
    · exact absurd h (by decide)
    · exact absurd h (by decide)

/-- The three replacements of a unit are the native map: a replacement's result
is in no later class, and an ASCII quote is replaced by itself. -/
theorem mapUnit_eq (u : CodeUnit) : mapUnit u =
      let u := if u ∈ doubleQuotes then 0x0022 else u
      let u := if u ∈ singleQuotes then 0x0027 else u
      if u ∈ dashes then 0x002d else u := by
  by_cases hd : u ∈ doubleQuotes
  · simp only [doubleQuotes, mem_cons, not_mem_nil, or_false] at hd
    rcases hd with rfl | rfl | rfl | rfl | rfl | rfl <;> decide
  by_cases hs : u ∈ singleQuotes
  · simp only [singleQuotes, mem_cons, not_mem_nil, or_false] at hs
    rcases hs with rfl | rfl | rfl | rfl | rfl | rfl <;> decide
  simp only [if_neg hd, if_neg hs]
  have hd' : u ∉ [0x201e, 0x201f, 0x00ab, 0x00bb] :=
    fun h => hd (mem_cons_of_mem _ (mem_cons_of_mem _ h))
  have hs' : u ∉ [0x201a, 0x201b, 0x0060, 0x00b4] :=
    fun h => hs (mem_cons_of_mem _ (mem_cons_of_mem _ h))
  rw [mapUnit, if_neg hd', if_neg hs', dashes]

theorem replaceClass_eq_map (s : JsString) : replaceClass dashes 0x002d
        (replaceClass singleQuotes 0x0027 (replaceClass doubleQuotes 0x0022 s)) =
      s.map mapUnit := by
  simp only [replaceClass, map_map]
  refine map_congr_left fun u _ => ?_
  exact (mapUnit_eq u).symm

theorem mapUnit_eq_PIPE (u : CodeUnit) : mapUnit u = PIPE ↔ u = PIPE := by
  constructor
  · unfold mapUnit
    intro h
    split_ifs at h
    · exact absurd h (by decide)
    · exact absurd h (by decide)
    · exact absurd h (by decide)
    · exact h
  · rintro rfl
    decide

theorem isBlank_mapUnit (u : CodeUnit) : isBlank (mapUnit u) = isBlank u := by
  unfold mapUnit
  split_ifs with h₁ h₂ h₃
  · simp only [mem_cons, not_mem_nil, or_false] at h₁
    rcases h₁ with rfl | rfl | rfl | rfl <;> decide
  · simp only [mem_cons, not_mem_nil, or_false] at h₂
    rcases h₂ with rfl | rfl | rfl | rfl <;> decide
  · simp only [mem_cons, not_mem_nil, or_false] at h₃
    rcases h₃ with rfl | rfl | rfl | rfl | rfl | rfl <;> decide
  · rfl

/-- What the replacements still write when a run of blanks is pending: the run's
blank has been written or is to be written now. -/
def collapsed (pending : Bool) (us : JsString) : JsString :=
  if pending then SPACE :: collapseBlanks true (us.map mapUnit)
  else collapseBlanks false (us.map mapUnit)

theorem collapsed_blank (hu : isBlank u = true) (pending : Bool) (us : JsString) :
    collapsed pending (u :: us) = collapsed true us := by
  cases pending <;> simp [collapsed, collapseBlanks, isBlank_mapUnit, hu]

theorem collapsed_unit (hu : isBlank u = false) (pending : Bool) (us : JsString) :
    collapsed pending (u :: us) =
      (if pending then [SPACE] else []) ++ mapUnit u :: collapsed false us := by
  cases pending <;> simp [collapsed, collapseBlanks, isBlank_mapUnit, hu]

/-- The pass still has a blank to drop: a `|` was written last and a blank is
pending, or a blank follows a `|` in the rest. -/
def Drops (pending : Bool) (last : CodeUnit) (us : JsString) : Prop :=
  if pending then last = PIPE ∨ PipeThenBlank us else PipeThenBlank (last :: us)

theorem drops_blank (hu : isBlank u = true) (pending : Bool) (last : CodeUnit) (us : JsString) :
    Drops pending last (u :: us) ↔ Drops true last us := by
  have hne : u ≠ PIPE := by
    rintro rfl
    exact absurd hu (by decide)
  cases pending <;> simp [Drops, pipeThenBlank_cons, hu, hne]

theorem drops_unit (hu : isBlank u = false) (pending : Bool) (last : CodeUnit) (us : JsString) :
    Drops pending last (u :: us) ↔ (pending = true ∧ last = PIPE) ∨ Drops false u us := by
  cases pending <;> simp [Drops, pipeThenBlank_cons, hu]

theorem drops_mapUnit (u : CodeUnit) (us : JsString) :
    Drops false (mapUnit u) us ↔ Drops false u us := by
  simp [Drops, pipeThenBlank_cons, mapUnit_eq_PIPE]

theorem forall_getLast?_of_cons {p : CodeUnit → Prop} {us : JsString}
    (h : ∀ v ∈ (u :: us).getLast?, p v) : ∀ v ∈ us.getLast?, p v := by
  intro v hv
  refine h v ?_
  rw [Option.mem_def] at hv ⊢
  rw [getLast?_cons, hv]
  rfl

/-- **The pass against the replacements.**  On the rest `us` of a trimmed line the
pass writes what the replacements write, less one blank for every `|` before a
blank. -/
theorem foldl_scanUnit (us : JsString) (out : List UInt16) (last : CodeUnit) (pending : Bool)
    (hlast : ∀ u ∈ us.getLast?, isBlank u = false) (hend : us = [] → pending = false) :
    ∃ written, (us.foldl scanUnit ⟨out ++ [last], pending⟩).out = out ++ [last] ++ written ∧
      (Drops pending last us → written.length < (collapsed pending us).length) ∧
      (¬ Drops pending last us → written = collapsed pending us) := by
  induction us generalizing out last pending with
  | nil =>
    rw [hend rfl]
    refine ⟨[], by simp, ?_, ?_⟩
    · intro h
      exact absurd h (by simp [Drops, pipeThenBlank_cons, not_pipeThenBlank_nil])
    · intro _
      rfl
  | cons u us ih =>
    have hlast' := forall_getLast?_of_cons hlast
    cases hu : isBlank u with
    | true =>
      have hne : us ≠ [] := by
        rintro rfl
        have := hlast u rfl
        simp [hu] at this
      obtain ⟨written, hout, hdrop, hsame⟩ := ih out last true hlast' (fun h => absurd h hne)
      refine ⟨written, ?_, ?_, ?_⟩
      · rw [foldl_cons, scanUnit, if_pos hu]
        exact hout
      · rw [drops_blank hu, collapsed_blank hu]
        exact hdrop
      · rw [drops_blank hu, collapsed_blank hu]
        exact hsame
    | false =>
      -- the blank the pass writes before `u`, if any
      obtain ⟨blank, hblank, hscan⟩ : ∃ blank : List UInt16,
          blank = (if pending && decide (last ≠ PIPE) then [SPACE] else []) ∧
          scanUnit ⟨out ++ [last], pending⟩ u = ⟨(out ++ [last] ++ blank) ++ [mapUnit u], false⟩ := by
        refine ⟨_, rfl, ?_⟩
        unfold scanUnit
        by_cases hpipe : last = PIPE <;> cases pending <;> simp [hu, hpipe]
      obtain ⟨written, hout, hdrop, hsame⟩ :=
        ih (out ++ [last] ++ blank) (mapUnit u) false hlast' (fun _ => rfl)
      rw [drops_mapUnit] at hdrop hsame
      refine ⟨blank ++ mapUnit u :: written, ?_, ?_, ?_⟩
      · rw [foldl_cons, hscan, hout]
        simp
      · rw [drops_unit hu, collapsed_unit hu]
        have hle : written.length ≤ (collapsed false us).length := by
          by_cases h : Drops false u us
          · exact (hdrop h).le
          · rw [hsame h]
        rintro (⟨rfl, rfl⟩ | h)
        · simp [hblank]
          omega
        · have := hdrop h
          have hb : blank.length ≤ (if pending then [SPACE] else []).length := by
            rw [hblank]
            cases pending <;> simp
            split <;> simp
          simp
          omega
      · rw [drops_unit hu, collapsed_unit hu]
        intro h
        rw [not_or] at h
        rw [hsame h.2, hblank]
        cases pending with
        | false => rfl
        | true =>
          have hpipe : last ≠ PIPE := fun hp => h.1 ⟨rfl, hp⟩
          simp [hpipe]

/-- **The native pass and the replacements agree exactly on the lines in which no
blank follows a `|`.** -/
theorem normalizeLine_eq_iff (line : JsString) :
    normalizeLine line none = normalizeForFuzzy line ↔ ¬ PipeThenBlank (trim line) := by
  have hfirst : ∀ u ∈ (trim line).head?, isBlank u = false :=
    fun u hu => isBlank_of_not_isWhitespace (not_isWhitespace_head?_trim hu)
  have hlast : ∀ u ∈ (trim line).getLast?, isBlank u = false :=
    fun u hu => isBlank_of_not_isWhitespace (not_isWhitespace_getLast?_trim hu)
  unfold normalizeLine normalizeForFuzzy
  dsimp only
  rw [trimmedUnits_eq_trim, replaceClass_eq_map]
  generalize htrim : trim line = us at *
  cases us with
  | nil => simp [not_pipeThenBlank_nil]
  | cons u us =>
    have hu := hfirst u rfl
    have hlast' := forall_getLast?_of_cons hlast
    obtain ⟨written, hout, hdrop, hsame⟩ :=
      foldl_scanUnit us [] (mapUnit u) false hlast' (fun _ => rfl)
    have hscan : scanUnit ⟨[], false⟩ u = ⟨[mapUnit u], false⟩ := by
      simp [scanUnit, hu]
    rw [drops_mapUnit] at hdrop hsame
    have hts : collapseBlanks false ((u :: us).map mapUnit) = mapUnit u :: collapsed false us := by
      simpa [collapsed] using collapsed_unit hu false us
    rw [foldl_cons, hscan, if_neg (by simp), hts]
    simp only [nil_append, singleton_append] at hout
    rw [hout, cons.injEq]
    change _ ↔ ¬ Drops false u us
    constructor
    · rintro ⟨_, rfl⟩ h
      exact absurd (hdrop h) (lt_irrefl _)
    · intro h
      exact ⟨rfl, hsame h⟩

/-! ## Indentation depths -/

/-- `Math.round(a / b)`, and `((a as f64) / (b as f64)).round() as i32`, for
natural numbers: both round half up, and the quotient of two indentations is far
from the limits of either type. -/
def roundRatio (a b : Nat) : Nat := (2 * a + b) / (2 * b)

/-- `computeRelativeIndentDepths`.  A step is taken of non-empty lines only, so
the subtractions do not go below zero. -/
def computeRelativeIndentDepths (lines : List JsString) : List Nat :=
  let indents := lines.map leadingIndent
  let nonEmptyIndents := (lines.filter fun line => 0 < (trim line).length).map leadingIndent
  let minIndent := nonEmptyIndents.min?.getD 0
  let indentSteps := (nonEmptyIndents.map (· - minIndent)).filter (0 < ·)
  let indentUnit := indentSteps.min?.getD 1
  (lines.zip indents).map fun (line, indent) =>
    if (trim line).length = 0 then 0
    else if indentUnit ≤ 0 then 0
    else roundRatio (indent - minIndent) indentUnit

/-- One step of the search for `indent_unit`; `none` is its start value
`usize::MAX`, which no step reaches. -/
def smallerStep (minIndent : Nat) (indentUnit : Option Nat) (indent : Nat) : Option Nat :=
  let step := indent - minIndent
  if 0 < step && indentUnit.all (step < ·) then some step else indentUnit

def relativeIndentDepths (lines : List Line) : List Nat :=
  let indents := lines.map leadingIndent
  let nonEmpty := (lines.filter fun line => !isEmptyTrim line).map leadingIndent
  let minIndent := nonEmpty.min?.getD 0
  let indentUnit := (nonEmpty.foldl (smallerStep minIndent) none).getD 1
  (lines.zip indents).map fun (line, indent) =>
    if isEmptyTrim line || indentUnit == 0 then 0
    else roundRatio (indent - minIndent) indentUnit

/-- The native search finds the smallest positive step. -/
theorem foldl_smallerStep (minIndent : Nat) (indents : List Nat) :
    indents.foldl (smallerStep minIndent) none =
      ((indents.map (· - minIndent)).filter (0 < ·)).min? := by
  have hsome : ∀ (indents : List Nat) (unit : Nat),
      indents.foldl (smallerStep minIndent) (some unit) =
        some (((indents.map (· - minIndent)).filter (0 < ·)).foldl min unit) := by
    intro indents
    induction indents with
    | nil => intro unit; rfl
    | cons indent indents ih =>
      intro unit
      rw [foldl_cons, map_cons]
      by_cases hpos : 0 < indent - minIndent
      · rw [filter_cons_of_pos (by simpa using hpos), foldl_cons]
        have hmin : smallerStep minIndent (some unit) indent =
            some (min unit (indent - minIndent)) := by
          unfold smallerStep
          by_cases hlt : indent - minIndent < unit
          · simp [hpos, hlt, Nat.min_eq_right hlt.le]
          · simp [hlt, Nat.min_eq_left (Nat.le_of_not_lt hlt)]
        rw [hmin, ih]
      · rw [filter_cons_of_neg (by simpa using hpos)]
        have hskip : smallerStep minIndent (some unit) indent = some unit := by
          simp [smallerStep, hpos]
        rw [hskip, ih]
  induction indents with
  | nil => rfl
  | cons indent indents ih =>
    rw [foldl_cons, map_cons]
    by_cases hpos : 0 < indent - minIndent
    · rw [filter_cons_of_pos (by simpa using hpos), min?_cons']
      have hfirst : smallerStep minIndent none indent = some (indent - minIndent) := by
        simp [smallerStep, hpos]
      rw [hfirst, hsome]
    · rw [filter_cons_of_neg (by simpa using hpos), ← ih]
      have hskip : smallerStep minIndent none indent = none := by
        simp [smallerStep, hpos]
      rw [hskip]

theorem isEmptyTrim_eq (line : Line) : isEmptyTrim line = decide ((trim line).length = 0) := by
  rw [isEmptyTrim, trimmedUnits_eq_trim]
  cases trim line <;> simp

theorem relativeIndentDepths_eq (lines : List JsString) :
    relativeIndentDepths lines = computeRelativeIndentDepths lines := by
  have hfilter : (lines.filter fun line => !isEmptyTrim line) =
      lines.filter fun line => 0 < (trim line).length := by
    refine filter_congr fun line _ => ?_
    rw [isEmptyTrim_eq]
    simp [Nat.pos_iff_ne_zero]
  unfold relativeIndentDepths computeRelativeIndentDepths
  simp only [hfilter, foldl_smallerStep]
  refine map_congr_left fun p _ => ?_
  simp only [isEmptyTrim_eq, Bool.or_eq_true, decide_eq_true_eq, beq_iff_eq, Nat.le_zero]
  split_ifs <;> first | rfl | tauto

def normalizeLines (lines : List JsString) (includeDepth : Bool) : List JsString :=
  let indentDepths := if includeDepth then some (computeRelativeIndentDepths lines) else none
  lines.zipIdx.map fun (line, index) =>
    let trimmed := trim line
    let pre :=
      match indentDepths with
      | some depths => JsString.ofNat (depths.getD index 0) ++ [PIPE]
      | none => [PIPE]
    if trimmed.length = 0 then pre else pre ++ normalizeForFuzzy trimmed

def normalizeBlockLines (lines : List Line) (includeDepth : Bool) : List (List UInt16) :=
  let depths := if includeDepth then some (relativeIndentDepths lines) else none
  lines.zipIdx.map fun (line, idx) =>
    let out :=
      if includeDepth then pushDepthPrefix [] ((depths.getD []).getD idx 0) true else [PIPE]
    out ++ normalizeLine line none

/-- A line in which no blank follows a `|` once it is trimmed. -/
def Plain (line : JsString) : Prop := ¬ PipeThenBlank (trim line)

theorem normalizeForFuzzy_trim (line : JsString) :
    normalizeForFuzzy (trim line) = normalizeForFuzzy line := by
  unfold normalizeForFuzzy
  rw [trim_trim]

theorem pushDepthPrefix_eq (depth : Nat) :
    pushDepthPrefix [] depth true = JsString.ofNat depth ++ [PIPE] := by
  by_cases h : depth = 0
  · subst h
    decide
  · simp [pushDepthPrefix, h]

theorem normalizeForFuzzy_of_empty {line : JsString} (h : (trim line).length = 0) :
    normalizeForFuzzy line = [] := by
  unfold normalizeForFuzzy
  exact if_pos h

theorem normalizeBlockLines_eq {lines : List JsString} (hplain : ∀ line ∈ lines, Plain line)
    (includeDepth : Bool) :
    normalizeBlockLines lines includeDepth = normalizeLines lines includeDepth := by
  unfold normalizeBlockLines normalizeLines
  refine map_congr_left fun p hp => ?_
  obtain ⟨line, idx⟩ := p
  have hline : normalizeLine line none = normalizeForFuzzy line :=
    (normalizeLine_eq_iff line).mpr (hplain line (fst_mem_of_mem_zipIdx hp))
  have hbody : ∀ pre : JsString, pre ++ normalizeForFuzzy line =
      if (trim line).length = 0 then pre else pre ++ normalizeForFuzzy (trim line) := by
    intro pre
    rw [normalizeForFuzzy_trim]
    split
    case isTrue h => rw [normalizeForFuzzy_of_empty h, append_nil]
    case isFalse => rfl
  cases includeDepth with
  | false => simpa [hline] using hbody [PIPE]
  | true =>
    simpa [hline, pushDepthPrefix_eq, relativeIndentDepths_eq] using
      hbody (JsString.ofNat ((computeRelativeIndentDepths lines).getD idx 0) ++ [PIPE])

end GajaeCode.FuzzyText
