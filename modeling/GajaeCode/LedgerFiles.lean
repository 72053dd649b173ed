import GajaeCode.RowReadback

/-! # Files of rows

What writing does to the rows of a file: a line feed that ends a torn tail adds none, a row
adds itself, and a snapshot is its rows.  A replay goes through if the file, its lines and
their number are within the limits and no line is of a newer version; what it sets aside
depends on the rows only (`refusedRows`), whatever the clock says.
-/
namespace GajaeCode
open JsString JsValue JsonParse List

namespace LifecycleLedger
variable {N : Type}
variable {events : List (Option (LifecycleLedgerEntry N))} {scan scan' : Scan N} {line : List UInt8}

theorem isTorn_eq_false {file : List UInt8} :
    isTorn file = false ↔ file = [] ∨ ∃ front, file = front ++ [0x0a] := by
  unfold isTorn
  rcases eq_nil_or_concat file with rfl | ⟨front, b, rfl⟩
  · simp
  · simp [concat_eq_append]

theorem rows_append_LF (front rest : List UInt8) :
    rows (front ++ 0x0a :: rest) = rows front ++ rows rest := by
  rw [rows, splitOn_append_cons_self, filter_append]
  rfl

@[simp] theorem rows_nil : rows [] = [] := by decide

theorem rows_seal (file : List UInt8) : rows (file ++ [0x0a]) = rows file := by
  rw [rows_append_LF, rows_nil, append_nil]

/-- **Rows are added at the end of a sealed file.** -/
theorem rows_append {file : List UInt8} (h : isTorn file = false) (rest : List UInt8) :
    rows (file ++ rest) = rows file ++ rows rest := by
  rcases isTorn_eq_false.mp h with rfl | ⟨front, rfl⟩
  · rfl
  · rw [append_assoc, singleton_append, rows_append_LF, rows_seal]

theorem isTorn_append_LF (file : List UInt8) : isTorn (file ++ [0x0a]) = false :=
  isTorn_eq_false.mpr (.inr ⟨file, rfl⟩)

theorem isTorn_append {file rest : List UInt8} (h : isTorn file = false)
    (h' : isTorn rest = false) : isTorn (file ++ rest) = false := by
  rcases isTorn_eq_false.mp h' with rfl | ⟨front, rfl⟩
  · rwa [append_nil]
  · rw [← append_assoc]
    exact isTorn_append_LF _

variable [JsNumber N]

theorem rows_rowLine (e : LifecycleLedgerEntry N) : rows (rowLine e) = [jsonBytes e.toValue] := by
  have hne : jsonBytes e.toValue ≠ [] := by
    intro hnil
    have hparse := parse_row e
    rw [hnil] at hparse
    cases hparse
  rw [rowLine, rows_seal, rows, splitOn_eq_singleton (LF_not_mem_jsonBytes _),
    filter_cons_of_pos (by simpa using hne), filter_nil]

theorem isTorn_rowLine (e : LifecycleLedgerEntry N) : isTorn (rowLine e) = false :=
  isTorn_append_LF _

theorem isTorn_flatMap (es : List (LifecycleLedgerEntry N)) :
    isTorn (es.flatMap rowLine) = false := by
  induction es with
  | nil => rfl
  | cons e es ih =>
    rw [flatMap_cons]
    exact isTorn_append (isTorn_rowLine e) ih

theorem rows_flatMap (es : List (LifecycleLedgerEntry N)) :
    rows (es.flatMap rowLine) = es.map fun e => jsonBytes e.toValue := by
  induction es with
  | nil => exact rows_nil
  | cons e es ih =>
    rw [flatMap_cons, rows_append (isTorn_rowLine e), rows_rowLine, ih, map_cons, singleton_append]

variable [DecidableEq N]

theorem rowEvent_row {e : LifecycleLedgerEntry N} (h : IsRow e.asJson) :
    rowEvent (jsonBytes e.toValue) = some e.asJson := by
  rw [rowEvent, readRow_row h]

/-! ## A replay that goes through -/

/-- The limits a replay asks of a file, besides its length. -/
structure Replayable (limits : LifecycleLedgerLimits) (N : Type) [JsNumber N] [DecidableEq N]
    (lines : List (List UInt8)) : Prop where
  count : lines.length ≤ limits.maxRows
  short : ∀ line ∈ lines, line.length ≤ limits.maxLineBytes
  supported : ∀ line ∈ lines, ∀ version : N, readRow line ≠ .unsupported version

omit [DecidableEq N] in
@[simp] theorem entry_rowCount (scan : Scan N) (clock : JsString → Timestamp N)
    (line : List UInt8) (e : LifecycleLedgerEntry N) :
    (scan.entry clock line e).rowCount = scan.rowCount := by
  simp only [Scan.entry]
  split_ifs <;> rfl

section
variable {limits : LifecycleLedgerLimits} {clock : JsString → Timestamp N}
    (h : Scan.row limits clock scan line = .ok scan')
include h

/-- **What one line of a replay can do**, where it is within the limits. -/
theorem row_cases : scan.rowCount + 1 ≤ limits.maxRows ∧ line.length ≤ limits.maxLineBytes ∧
      ((readRow line = (.corrupt : LedgerRow N) ∧
          scan' = { scan with rowCount := scan.rowCount + 1 }.corrupt line) ∨
        ∃ e, readRow line = .entry e ∧
          scan' = { scan with rowCount := scan.rowCount + 1 }.entry clock line e) := by
  unfold Scan.row at h
  split_ifs at h with hcount hlong
  refine ⟨not_lt.mp hcount, not_lt.mp hlong, ?_⟩
  cases hread : (readRow line : LedgerRow N) with
  | corrupt =>
    simp only [hread, Except.ok.injEq] at h
    exact .inl ⟨rfl, h.symm⟩
  | unsupported version => simp [hread] at h
  | entry e =>
    simp only [hread, Except.ok.injEq] at h
    exact .inr ⟨e, rfl, h.symm⟩

theorem row_rowCount : scan'.rowCount = scan.rowCount + 1 := by
  obtain ⟨-, -, ⟨-, rfl⟩ | ⟨e, -, rfl⟩⟩ := row_cases h
  · rfl
  · rw [entry_rowCount]

end

variable {limits : LifecycleLedgerLimits}

/-- A line within the limits that is of no newer version goes through. -/
theorem row_isOk (clock : JsString → Timestamp N) (scan : Scan N)
    (hcount : scan.rowCount + 1 ≤ limits.maxRows) (hshort : line.length ≤ limits.maxLineBytes)
    (hsupported : ∀ version : N, readRow line ≠ .unsupported version) :
    ∃ scan', Scan.row limits clock scan line = .ok scan' := by
  unfold Scan.row
  rw [if_neg (not_lt.mpr hcount), if_neg (not_lt.mpr hshort)]
  cases hread : (readRow line : LedgerRow N) with
  | corrupt => exact ⟨_, rfl⟩
  | unsupported version => exact absurd hread (hsupported version)
  | entry e => exact ⟨_, rfl⟩

theorem rows_isOk (clock : JsString → Timestamp N)
    {lines : List (List UInt8)} (hcount : scan.rowCount + lines.length ≤ limits.maxRows)
    (hshort : ∀ line ∈ lines, line.length ≤ limits.maxLineBytes)
    (hsupported : ∀ line ∈ lines, ∀ version : N, readRow line ≠ .unsupported version) :
    ∃ scan', lines.foldlM (Scan.row limits clock) scan = .ok scan' := by
  induction lines generalizing scan with
  | nil => exact ⟨scan, rfl⟩
  | cons line lines ih =>
    rw [length_cons] at hcount
    obtain ⟨hline, hlines⟩ := forall_mem_cons.mp hshort
    obtain ⟨hversion, hversions⟩ := forall_mem_cons.mp hsupported
    obtain ⟨scan₁, hrow⟩ := row_isOk clock scan (by omega) hline hversion
    have hroom : scan₁.rowCount + lines.length ≤ limits.maxRows := by
      rw [row_rowCount hrow]
      omega
    obtain ⟨scan', hrows⟩ := ih hroom hlines hversions
    refine ⟨scan', ?_⟩
    rw [foldlM_cons, hrow]
    exact hrows

variable {clock : JsString → Timestamp N}

theorem rows_replayable {lines : List (List UInt8)}
    (h : lines.foldlM (Scan.row limits clock) scan = .ok scan') :
    scan'.rowCount = scan.rowCount + lines.length ∧
      (scan.rowCount ≤ limits.maxRows → scan'.rowCount ≤ limits.maxRows) ∧
      (∀ line ∈ lines, line.length ≤ limits.maxLineBytes) ∧
      ∀ line ∈ lines, ∀ version : N, readRow line ≠ .unsupported version := by
  induction lines generalizing scan with
  | nil =>
    cases h
    exact ⟨rfl, fun hle => hle, by simp, by simp⟩
  | cons line lines ih =>
    rw [foldlM_cons] at h
    cases hrow : Scan.row limits clock scan line with
    | error e => rw [hrow] at h; cases h
    | ok scan₁ =>
      rw [hrow] at h
      obtain ⟨hcount, hle, hshort, hsupported⟩ := ih h
      obtain ⟨hrowle, hline, hcases⟩ := row_cases hrow
      rw [row_rowCount hrow] at hcount hle
      refine ⟨by rw [hcount, length_cons]; omega, fun _ => hle hrowle,
        forall_mem_cons.mpr ⟨hline, hshort⟩, forall_mem_cons.mpr ⟨?_, hsupported⟩⟩
      rintro version hread
      rcases hcases with ⟨hcorrupt, -⟩ | ⟨e, hentry, -⟩
      · rw [hread] at hcorrupt
        cases hcorrupt
      · rw [hread] at hentry
        cases hentry

/-- **A replay goes through exactly where the rows are within the limits.** -/
theorem scanFile_isOk_iff {file : List UInt8} :
    (∃ scan, scanFile limits clock file = .ok scan) ↔ Replayable limits N (rows file) := by
  constructor
  · rintro ⟨scan, h⟩
    obtain ⟨hcount, hle, hshort, hsupported⟩ := rows_replayable h
    have hrows := hle (Nat.zero_le _)
    rw [hcount] at hrows
    exact ⟨by simpa [Scan.start] using hrows, hshort, hsupported⟩
  · intro h
    exact rows_isOk clock (by simpa [Scan.start] using h.count) h.short h.supported

theorem rowCount_scanFile {file : List UInt8} (h : scanFile limits clock file = .ok scan) :
    scan.rowCount = (rows file).length := by
  simpa [Scan.start] using (rows_replayable h).1

/-- Whether a line is no entry, or one that cannot follow. -/
def refuses (events : List (Option (LifecycleLedgerEntry N))) (line : List UInt8) : Bool :=
  match (rowEvent line : Option (LifecycleLedgerEntry N)) with
  | none => true
  | some e => (ledgerRules.track e.identity events).unclean ||
      !ledgerRules.accepts (ledgerRules.track e.identity events).latest e

/-- The lines a replay sets aside, after the events so far. -/
def refusedRows (events : List (Option (LifecycleLedgerEntry N))) :
    List (List UInt8) → List (List UInt8)
  | [] => []
  | line :: lines =>
    (if refuses events line then [line] else []) ++ refusedRows (events ++ [rowEvent line]) lines

theorem refusedRows_append (events : List (Option (LifecycleLedgerEntry N)))
    (lines lines' : List (List UInt8)) : refusedRows events (lines ++ lines') =
      refusedRows events lines ++ refusedRows (events ++ lines.map rowEvent) lines' := by
  induction lines generalizing events with
  | nil => rw [map_nil, append_nil]; rfl
  | cons line lines ih =>
    have hevents : events ++ (line :: lines).map rowEvent =
        events ++ [rowEvent line] ++ lines.map rowEvent := by
      rw [map_cons, append_cons]
    rw [cons_append, refusedRows, ih, refusedRows, hevents]
    exact (append_assoc _ _ _).symm

section
variable {clock : JsString → Timestamp N} (h : scan.Follows clock events)
include h

theorem Scan.Follows.quarantined_row {limits : LifecycleLedgerLimits}
    (hrow : Scan.row limits clock scan line = .ok scan') :
    scan'.quarantined = scan.quarantined ++ if refuses events line then [line] else [] := by
  obtain ⟨-, -, ⟨hread, rfl⟩ | ⟨e, hread, rfl⟩⟩ := row_cases hrow
  · rw [refuses, rowEvent, hread]
    rfl
  · have hinvalid : _ ↔ refuses events line = true := (h.refused_iff e).trans <| by
      rw [refuses, rowEvent, hread]
      simp only [ledgerRules, Bool.or_eq_true, Bool.not_eq_true', Bool.and_eq_false_iff]
    simp only [Scan.entry, hinvalid]
    by_cases hrefuses : refuses events line = true
    · rw [if_pos hrefuses, if_pos hrefuses]
    · rw [if_neg hrefuses, if_neg hrefuses, append_nil]

theorem Scan.Follows.quarantined_rows {limits : LifecycleLedgerLimits} {lines : List (List UInt8)}
    (hrows : lines.foldlM (Scan.row limits clock) scan = .ok scan') :
    scan'.quarantined = scan.quarantined ++ refusedRows events lines := by
  induction lines generalizing scan events with
  | nil =>
    cases hrows
    rw [refusedRows, append_nil]
  | cons line lines ih =>
    rw [foldlM_cons] at hrows
    cases hrow : Scan.row limits clock scan line with
    | error e => rw [hrow] at hrows; cases hrows
    | ok scan₁ =>
      rw [hrow] at hrows
      rw [ih (h.row hrow) hrows, h.quarantined_row hrow, refusedRows, append_assoc]

end

/-- **What a replay sets aside depends on the rows only.** -/
theorem quarantined_scanFile {file : List UInt8} (h : scanFile limits clock file = .ok scan) :
    scan.quarantined = refusedRows (N := N) [] (rows file) := by
  rw [(Scan.follows_start clock).quarantined_rows h]
  rfl

/-- Nothing is set aside if every line is an entry of an identity that ends up clean. -/
theorem refusedRows_eq_nil {lines : List (List UInt8)}
    (h : ∀ line ∈ lines, ∃ e : LifecycleLedgerEntry N, rowEvent line = some e ∧ (ledgerRules.track
      e.identity (events ++ lines.map rowEvent)).unclean = false) :
    refusedRows events lines = [] := by
  induction lines generalizing events with
  | nil => rfl
  | cons line lines ih =>
    have hrest : events ++ (line :: lines).map rowEvent =
        events ++ [rowEvent line] ++ lines.map (rowEvent (N := N)) := by
      rw [map_cons, append_cons]
    rw [hrest] at h
    obtain ⟨⟨e, hevent, hclean⟩, hlines⟩ := forall_mem_cons.mp h
    have hnot : refuses events line = false := by
      rw [← Bool.not_eq_true]
      intro hrefuses
      rw [refuses, hevent] at hrefuses
      have hspoilt : (ledgerRules.track e.identity (events ++ [rowEvent line])).unclean = true := by
        rw [hevent, LogRules.track_append_singleton]
        have hstep := ledgerRules.step_refuse (e := e) (t := ledgerRules.track e.identity events)
          (by simpa using hrefuses)
        exact congrArg Track.unclean hstep
      rw [ledgerRules.track_append_of_unclean hspoilt, hspoilt] at hclean
      cases hclean
    rw [refusedRows, hnot, if_neg Bool.false_ne_true, nil_append]
    exact ih hlines

end LifecycleLedger
end GajaeCode
