import GajaeCode.KeyedLog
import GajaeCode.LifecycleLedger

/-! # What replaying the ledger finds

The lines of the file are a log of rows by identity (`ledgerRules`), in which a line that
is no entry is a row that was lost.  The loop of `open` keeps a map and two sets;
`Scan.Follows` says that together they are the track of every identity, and what the
entries are that the loop makes up for identities it has to give up.
-/
namespace GajaeCode
open JsString JsValue JsonParse List

namespace LifecycleLedger
variable {N : Type} [JsNumber N]

/-- How the ledger takes its rows. -/
def ledgerRules : LogRules JsString (LifecycleLedgerEntry N) where
  key e := e.identity
  final e := e.state.final
  accepts prior e := hasValidTerminalDigests e && isValidHistoryContinuation prior e
  accepts_final prior e h := by
    simp only [isValidHistoryContinuation, h, or_true, if_true, Bool.and_false]

omit [JsNumber N] in
theorem mem_foldl_addFirst {es : List (JsString × LifecycleLedgerEntry N)} {ids : List JsString}
    {id : JsString} : id ∈ es.foldl (fun ids e => addFirst ids e.1) ids ↔
      id ∈ ids ∨ ∃ e ∈ es, e.1 = id := by
  induction es generalizing ids with
  | nil => simp
  | cons e es ih =>
    rw [foldl_cons, ih, mem_addFirst, exists_mem_cons_iff, or_assoc, eq_comm (a := id)]

def rowEvent [DecidableEq N] (line : List UInt8) : Option (LifecycleLedgerEntry N) :=
  match readRow line with
  | .entry e => some e
  | _ => none

theorem rowEvent_eq_some [DecidableEq N] {line : List UInt8} {e : LifecycleLedgerEntry N} :
    rowEvent line = some e ↔ readRow line = .entry e := by
  rw [rowEvent]
  cases (readRow line : LedgerRow N) <;> simp

def fileEvents [DecidableEq N] (file : List UInt8) : List (Option (LifecycleLedgerEntry N)) :=
  (rows file).map rowEvent

def fileTrack [DecidableEq N] (file : List UInt8) (identity : JsString) :
    Track (LifecycleLedgerEntry N) :=
  ledgerRules.track identity (fileEvents file)

namespace Scan
variable {e : LifecycleLedgerEntry N}

/-- **The loop of `open` keeps the tracks of all identities.** -/
structure Follows (clock : JsString → Timestamp N) (scan : Scan N)
    (events : List (Option (LifecycleLedgerEntry N))) : Prop where
  latest : ∀ id, scan.byIdentity.get id = (ledgerRules.track id events).latest
  unclean : ∀ id, (ledgerRules.track id events).unclean = true ↔
    id ∈ scan.invalidIdentities ∨ id ∈ scan.uncertainAfterCorruption
  unfinished : ∀ id ∈ scan.uncertainAfterCorruption, ∃ e, scan.byIdentity.get id = some e ∧
    e.state.final = false
  synthetic_isSome : ∀ id,
    (scan.syntheticUncertain.get id).isSome = true ↔ id ∈ scan.invalidIdentities
  /-- the made-up entry goes on from the last row that counted, if there was one -/
  synthetic : ∀ id u, scan.syntheticUncertain.get id = some u →
    (∃ e, scan.byIdentity.get id = some e ∧ u = uncertainFrom e true (clock id)) ∨
    (scan.byIdentity.get id = none ∧ ∃ e, some e ∈ events ∧ e.identity = id ∧
      u = uncertainFrom e false (clock id))
  entries : ∀ e ∈ scan.entries, some e ∈ events ∧ hasValidTerminalDigests e = true

theorem follows_start (clock : JsString → Timestamp N) : Follows clock start [] where
  latest _ := rfl
  unclean id := by simp [start, LogRules.track]
  unfinished id h := absurd h not_mem_nil
  synthetic_isSome id := by simp [start]
  synthetic id u h := by cases h
  entries e h := absurd h not_mem_nil

variable {clock : JsString → Timestamp N} {scan : Scan N}
  {events : List (Option (LifecycleLedgerEntry N))}

theorem Follows.keyed (h : Follows clock scan events) {id : JsString}
    (he : scan.byIdentity.get id = some e) : e.identity = id :=
  (ledgerRules.latest_track ((h.latest id).symm.trans he)).1

theorem Follows.corrupt (h : Follows clock scan events) (line : List UInt8) :
    Follows clock (scan.corrupt line) (events ++ [none]) := by
  have hlatest : ∀ id, (ledgerRules.track id (events ++ [none])).latest =
      (ledgerRules.track id events).latest := fun id => by
    rw [LogRules.track_append_singleton]
    rfl
  have hmem : ∀ id, id ∈ (scan.corrupt line).uncertainAfterCorruption ↔
      id ∈ scan.uncertainAfterCorruption ∨
        ledgerRules.unfinished (ledgerRules.track id events).latest = true := by
    intro id
    rw [Scan.corrupt, mem_foldl_addFirst, ← h.latest id]
    apply or_congr_right
    constructor
    · rintro ⟨e, he, rfl⟩
      obtain ⟨hentry, hfinal⟩ := mem_filter.mp he
      rw [InsertionMap.get_of_mem_entries hentry]
      exact hfinal
    · intro hopen
      cases hget : scan.byIdentity.get id with
      | none => rw [hget] at hopen; cases hopen
      | some e =>
        rw [hget] at hopen
        exact ⟨(id, e), mem_filter.mpr ⟨InsertionMap.mem_entries_iff.mpr hget, hopen⟩, rfl⟩
  refine ⟨fun id => (h.latest id).trans (hlatest id).symm, fun id => ?_, fun id hid => ?_,
    h.synthetic_isSome, fun id u hu => ?_, fun e he => ?_⟩
  · have hbefore : (ledgerRules.track id events).unclean = true ↔
        id ∈ (scan.corrupt line).invalidIdentities ∨ id ∈ scan.uncertainAfterCorruption :=
      h.unclean id
    rw [hmem, ← or_assoc, ← hbefore, LogRules.track_append_singleton, LogRules.step,
      Bool.or_eq_true]
  · rcases (hmem id).mp hid with hid | hid
    · exact h.unfinished id hid
    · rw [← h.latest id] at hid
      cases hget : scan.byIdentity.get id with
      | none => rw [hget] at hid; cases hid
      | some e =>
        rw [hget] at hid
        exact ⟨e, hget, by simpa [LogRules.unfinished, ledgerRules] using hid⟩
  · rcases h.synthetic id u hu with hsome | ⟨hnone, e, he, hu⟩
    · exact .inl hsome
    · exact .inr ⟨hnone, e, mem_append_left _ he, hu⟩
  · exact ⟨mem_append_left _ (h.entries e he).1, (h.entries e he).2⟩

theorem track_append_other {id : JsString} (hid : e.identity ≠ id)
    (events : List (Option (LifecycleLedgerEntry N))) :
    ledgerRules.track id (events ++ [some e]) = ledgerRules.track id events := by
  rw [LogRules.track_append_singleton]
  exact ledgerRules.step_other hid _

theorem Follows.accept (h : Follows clock scan events)
    (hclean : (ledgerRules.track e.identity events).unclean = false)
    (haccept : ledgerRules.accepts (ledgerRules.track e.identity events).latest e = true) :
    Follows clock { scan with
      entries := scan.entries ++ [e]
      byIdentity := scan.byIdentity.set e.identity e } (events ++ [some e]) := by
  have hstep : ledgerRules.track e.identity (events ++ [some e]) = ⟨some e, false⟩ := by
    rw [LogRules.track_append_singleton]
    exact ledgerRules.step_accept hclean haccept
  have hnot : ∀ id, id ∈ scan.invalidIdentities ∨ id ∈ scan.uncertainAfterCorruption →
      id ≠ e.identity := by
    rintro id hid rfl
    exact absurd ((h.unclean _).mpr hid) (by simp [hclean])
  refine ⟨fun id => ?_, fun id => ?_, fun id hid => ?_, h.synthetic_isSome, fun id u hu => ?_,
    fun e' he' => ?_⟩
  · rw [InsertionMap.get_set]
    by_cases hid : id = e.identity
    · rw [if_pos hid, hid, hstep]
    · rw [if_neg hid, h.latest id, track_append_other (Ne.symm hid)]
  · by_cases hid : id = e.identity
    · subst hid
      rw [hstep, ← h.unclean, hclean]
    · rw [track_append_other (Ne.symm hid)]
      exact h.unclean id
  · rw [InsertionMap.get_set, if_neg (hnot id (.inr hid))]
    exact h.unfinished id hid
  · have hid := hnot id (.inl ((h.synthetic_isSome id).mp (Option.isSome_of_eq_some hu)))
    rw [InsertionMap.get_set, if_neg hid]
    rcases h.synthetic id u hu with hsome | ⟨hnone, e', he', hu⟩
    · exact .inl hsome
    · exact .inr ⟨hnone, e', mem_append_left _ he', hu⟩
  · rcases mem_append.mp he' with he' | he'
    · exact ⟨mem_append_left _ (h.entries e' he').1, (h.entries e' he').2⟩
    · obtain rfl := mem_singleton.mp he'
      exact ⟨mem_append_right _ (mem_singleton_self _),
        (Bool.and_eq_true_iff.mp haccept).1⟩

theorem Follows.refuse (h : Follows clock scan events) (line : List UInt8)
    (hrefuse : (ledgerRules.track e.identity events).unclean = true ∨ ledgerRules.accepts
      (ledgerRules.track e.identity events).latest e = false) :
    Follows clock { scan with
      quarantined := scan.quarantined ++ [line]
      invalidIdentities := addFirst scan.invalidIdentities e.identity
      syntheticUncertain :=
        if (scan.syntheticUncertain.get e.identity).isSome then scan.syntheticUncertain
        else scan.syntheticUncertain.set e.identity
          (uncertainFrom ((scan.byIdentity.get e.identity).getD e)
            (scan.byIdentity.get e.identity).isSome (clock e.identity)) }
      (events ++ [some e]) := by
  have hstep : ledgerRules.track e.identity (events ++ [some e]) =
      { ledgerRules.track e.identity events with unclean := true } := by
    rw [LogRules.track_append_singleton]
    exact ledgerRules.step_refuse hrefuse
  have hlatest : ∀ id, (ledgerRules.track id (events ++ [some e])).latest =
      (ledgerRules.track id events).latest := by
    intro id
    by_cases hid : e.identity = id
    · rw [← hid, hstep]
    · rw [track_append_other hid]
  have hsynthetic : ∀ id u, scan.syntheticUncertain.get id = some u →
      (∃ e, scan.byIdentity.get id = some e ∧ u = uncertainFrom e true (clock id)) ∨
      (scan.byIdentity.get id = none ∧ ∃ e', some e' ∈ events ++ [some e] ∧ e'.identity = id ∧
        u = uncertainFrom e' false (clock id)) := by
    intro id u hu
    rcases h.synthetic id u hu with hsome | ⟨hnone, e', he', hu⟩
    · exact .inl hsome
    · exact .inr ⟨hnone, e', mem_append_left _ he', hu⟩
  refine ⟨fun id => (h.latest id).trans (hlatest id).symm, fun id => ?_, h.unfinished,
    fun id => ?_, fun id u hu => ?_, fun e' he' => ?_⟩
  · rw [mem_addFirst]
    by_cases hid : id = e.identity
    · rw [hid, hstep]
      simp
    · rw [track_append_other (Ne.symm hid), h.unclean id]
      simp [hid]
  · rw [mem_addFirst, ← h.synthetic_isSome]
    split_ifs with hsome
    · exact ⟨.inl, fun hid => hid.elim (fun hsome => hsome) fun hid => hid ▸ hsome⟩
    · rw [InsertionMap.get_set]
      by_cases hid : id = e.identity
      · simp [hid]
      · simp [hid]
  · simp only at hu
    split_ifs at hu with hsome
    · exact hsynthetic id u hu
    · rw [InsertionMap.get_set] at hu
      split_ifs at hu with hid
      · subst hid
        obtain rfl := some.inj hu
        cases hget : scan.byIdentity.get e.identity with
        | some prior => exact .inl ⟨prior, rfl, rfl⟩
        | none => exact .inr ⟨rfl, e, mem_append_right _ (mem_singleton_self _), rfl, rfl⟩
      · exact hsynthetic id u hu
  · exact ⟨mem_append_left _ (h.entries e' he').1, (h.entries e' he').2⟩

theorem Follows.refused_iff (h : Follows clock scan events) (e : LifecycleLedgerEntry N) :
    (e.identity ∈ scan.invalidIdentities ∨
      e.identity ∈ scan.uncertainAfterCorruption ∨ hasValidTerminalDigests e = false ∨
      isValidHistoryContinuation (scan.byIdentity.get e.identity) e = false) ↔
      (ledgerRules.track e.identity events).unclean = true ∨
        ledgerRules.accepts (ledgerRules.track e.identity events).latest e = false := by
  rw [← or_assoc, ← h.unclean, h.latest, ledgerRules, Bool.and_eq_false_iff]

theorem Follows.entry (h : Follows clock scan events) (line : List UInt8)
    (e : LifecycleLedgerEntry N) :
    Follows clock (scan.entry clock line e) (events ++ [some e]) := by
  have hinvalid := h.refused_iff e
  by_cases hcond : e.identity ∈ scan.invalidIdentities ∨
      e.identity ∈ scan.uncertainAfterCorruption ∨ hasValidTerminalDigests e = false ∨
      isValidHistoryContinuation (scan.byIdentity.get e.identity) e = false
  · simp only [Scan.entry, if_pos hcond]
    exact h.refuse line (hinvalid.mp hcond)
  · simp only [Scan.entry, if_neg hcond]
    rw [hinvalid, not_or, Bool.not_eq_true, Bool.not_eq_false] at hcond
    exact h.accept hcond.1 hcond.2

variable [DecidableEq N]

theorem Follows.row (h : Follows clock scan events) {limits : LifecycleLedgerLimits}
    {line : List UInt8} {scan' : Scan N} (hrow : Scan.row limits clock scan line = .ok scan') :
    Follows clock scan' (events ++ [rowEvent line]) := by
  have hcount : Follows clock { scan with rowCount := scan.rowCount + 1 } events :=
    ⟨h.latest, h.unclean, h.unfinished, h.synthetic_isSome, h.synthetic, h.entries⟩
  unfold Scan.row at hrow
  unfold rowEvent
  split_ifs at hrow
  cases hread : (readRow line : LedgerRow N) with
  | corrupt =>
    simp only [hread, Except.ok.injEq] at hrow
    exact hrow ▸ hcount.corrupt line
  | unsupported version => simp [hread] at hrow
  | entry e =>
    simp only [hread, Except.ok.injEq] at hrow
    exact hrow ▸ hcount.entry line e

theorem Follows.rows (h : Follows clock scan events) {limits : LifecycleLedgerLimits}
    {lines : List (List UInt8)} {scan' : Scan N}
    (hrows : lines.foldlM (Scan.row limits clock) scan = .ok scan') :
    Follows clock scan' (events ++ lines.map rowEvent) := by
  induction lines generalizing scan events with
  | nil =>
    cases hrows
    simpa using h
  | cons line lines ih =>
    rw [foldlM_cons] at hrows
    cases hrow : Scan.row limits clock scan line with
    | error e => rw [hrow] at hrows; cases hrows
    | ok scan₁ =>
      rw [hrow] at hrows
      rw [map_cons, append_cons]
      exact ih (h.row hrow) hrows

end Scan

/-- **A successful replay has found the track of every identity.** -/
theorem follows_scanFile [DecidableEq N] {limits : LifecycleLedgerLimits}
    {clock : JsString → Timestamp N} {file : List UInt8} {scan : Scan N}
    (h : scanFile limits clock file = .ok scan) : scan.Follows clock (fileEvents file) := by
  have hfollows := (Scan.follows_start clock).rows h
  rwa [nil_append] at hfollows

end LifecycleLedger
end GajaeCode
