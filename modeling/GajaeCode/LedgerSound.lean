import Mathlib.Data.List.ReduceOption
import GajaeCode.LedgerAnchors

/-! # Ledgers that can be compacted

Every identity a ledger knows has its anchor, every row it holds reads back, and an
identity that is still accepted is what its anchor says.  A replay gives such a ledger if
no identity begins with a refused row; the rows that opening appends, `begin` and
`transition` keep it, as long as they read back themselves.
-/
namespace GajaeCode
open JsString JsValue JsonParse List Option

namespace LifecycleLedger
variable {N : Type}
variable {r : Option (LifecycleLedgerEntry N)}

/-- The first row of an identity is an accepted one. -/
def Begins (ledger : LifecycleLedger N) (e : LifecycleLedgerEntry N) : Prop :=
  e.state = .accepted ∧ ledger.byIdentity.get e.identity = none

/-- The anchors of a ledger, and nothing of other identities. -/
structure Rooted (ledger : LifecycleLedger N) : Prop where
  anchored : Anchored ledger.entries ledger.byIdentity
  known : ∀ a ∈ ledger.entries, (ledger.byIdentity.get a.identity).isSome = true

variable {ledger ledger' : LifecycleLedger N} {e : LifecycleLedgerEntry N}

theorem Rooted.keyed (h : Rooted ledger) : Keyed ledger.byIdentity :=
  fun id e he => (h.anchored id e he).1

theorem Rooted.compacted (h : Rooted ledger) (hr : ∀ e ∈ r, GoesOn ledger.byIdentity e) :
    Anchored ledger.entries (ledger.compacted r) := by
  cases r with
  | none => exact h.anchored
  | some e => exact h.anchored.set (hr e rfl)

theorem isSome_get_compacted {id : JsString} (h : (ledger.byIdentity.get id).isSome = true) :
    ((ledger.compacted r).get id).isSome = true := by
  cases r with
  | none => exact h
  | some e =>
    rw [LifecycleLedger.compacted, InsertionMap.get_set]
    split_ifs
    · rfl
    · exact h

theorem anchorOf_eq_none {entries : List (LifecycleLedgerEntry N)}
    {byIdentity : InsertionMap JsString (LifecycleLedgerEntry N)}
    (hknown : ∀ a ∈ entries, (byIdentity.get a.identity).isSome = true) {id : JsString}
    (hnew : byIdentity.get id = none) : anchorOf entries id = none := by
  rw [← not_isSome_iff_eq_none]
  intro hsome
  obtain ⟨a, ha⟩ := isSome_iff_exists.mp hsome
  obtain ⟨hmem, hid, -⟩ := anchorOf_eq_some ha
  have hget := hknown a hmem
  rw [hid, hnew] at hget
  cases hget

variable [JsNumber N]

theorem Rooted.compact (h : Rooted ledger) (hr : ∀ e ∈ r, GoesOn ledger.byIdentity e)
    (hcompacted : Compacted ledger r ledger') : Rooted ledger' := by
  have hkeyed : Keyed (ledger.compacted r) := fun id e he => (h.compacted hr id e he).1
  refine ⟨hcompacted.anchored hkeyed, fun a ha => ?_⟩
  rw [hcompacted.byIdentity]
  rcases hcompacted.mem_entries ha with ha | ⟨id, hid⟩
  · exact isSome_get_compacted (h.known a ha)
  · rw [hkeyed id a hid, hid]
    rfl

theorem Rooted.push (h : Rooted ledger) (he : GoesOn ledger.byIdentity e ∨ Begins ledger e) :
    Rooted (ledger.push e) := by
  constructor
  · rcases he with he | ⟨hstate, hnew⟩
    · exact (h.anchored.set he).append [e]
    · exact h.anchored.accept hstate (anchorOf_eq_none h.known hnew)
  · intro a ha
    change ((ledger.byIdentity.set e.identity e).get a.identity).isSome = true
    rw [InsertionMap.get_set]
    split_ifs with hid
    · rfl
    · rcases mem_append.mp ha with ha | ha
      · exact h.known a ha
      · exact absurd (congrArg _ (mem_singleton.mp ha)) hid

/-- **What compacting and pushing keep, appending keeps.** -/
theorem append_preserves {P : LifecycleLedger N → Prop} (h : P ledger)
    (hreplace : ∀ ledger', (ledger.byIdentity.get e.identity).isSome = true →
      Compacted ledger (some e) ledger' → P ledger')
    (hrewrite : ∀ ledger', ledger.byIdentity.get e.identity = none →
      Compacted ledger none ledger' → P ledger')
    (hpush : ∀ ledger', P ledger' → ledger'.byIdentity = ledger.byIdentity →
      (ledger' = ledger ∨ ledger.byIdentity.get e.identity = none) →
      ¬ ledger'.exceeds (rowLine e) → P (ledger'.push e)) : P (ledger.append e).1 := by
  rcases append_cases ledger e with ⟨ledger', hknown, hcompact, heq⟩ | ⟨ledger', hbefore, heq⟩
  · rw [heq]
    exact hreplace ledger' hknown (compacted_of_compact hcompact)
  · have hP : P ledger' ∧ ledger'.byIdentity = ledger.byIdentity ∧
        (ledger' = ledger ∨ ledger.byIdentity.get e.identity = none) := by
      rcases hbefore with rfl | ⟨hnew, hcompact⟩
      · exact ⟨h, rfl, .inl rfl⟩
      · have hcompacted := compacted_of_compact hcompact
        exact ⟨hrewrite ledger' hnew hcompacted, hcompacted.byIdentity, .inr hnew⟩
    obtain ⟨hP, hmap, hwhich⟩ := hP
    rcases heq with ⟨err, heq⟩ | ⟨-, hexceeds, heq⟩
    · rw [heq]
      exact hP
    · rw [heq]
      exact hpush ledger' hP hmap hwhich hexceeds

theorem Rooted.append (h : Rooted ledger) (he : GoesOn ledger.byIdentity e ∨ Begins ledger e) :
    Rooted (ledger.append e).1 := by
  refine append_preserves h (fun ledger' hknown hcompacted => ?_)
    (fun ledger' _ hcompacted => h.compact (by simp) hcompacted) fun ledger' hP hmap _ _ => ?_
  · refine h.compact (fun e' he' => ?_) hcompacted
    obtain rfl := mem_some_iff.mp he'
    rcases he with he | ⟨-, hnew⟩
    · exact he
    · rw [hnew] at hknown
      cases hknown
  · refine hP.push (he.imp (fun hon => hmap ▸ hon) fun hnew => ⟨hnew.1, ?_⟩)
    rw [hmap]
    exact hnew.2

/-- An append that fails has met a limit, if every identity has its anchor. -/
theorem Rooted.append_error (h : Rooted ledger) {err : LedgerError N}
    (he : GoesOn ledger.byIdentity e ∨ Begins ledger e) (herr : (ledger.append e).2 = .error err) :
    err = .rowTooLong ∨ err = .compactionTooLong ∨ err = .appendTooLong := by
  unfold LifecycleLedger.append at herr
  split_ifs at herr with hlong hexceeds hknown
  · exact .inl (Except.error.inj herr).symm
  · have hon : ∀ e' ∈ some e, GoesOn ledger.byIdentity e' := by
      intro e' he'
      obtain rfl := mem_some_iff.mp he'
      rcases he with he | ⟨-, hnew⟩
      · exact he
      · rw [hnew] at hknown
        cases hknown
    cases hcompact : ledger.compact (some e) with
    | error err' =>
      rw [hcompact] at herr
      exact .inr (.inl (Except.error.inj herr ▸ compact_error (h.compacted hon) hcompact))
    | ok ledger' => rw [hcompact] at herr; cases herr
  · cases hcompact : ledger.compact none with
    | error err' =>
      rw [hcompact] at herr
      exact .inr (.inl (Except.error.inj herr ▸ compact_error (r := none) h.anchored hcompact))
    | ok ledger' =>
      rw [hcompact] at herr
      simp only [appendRow] at herr
      split_ifs at herr
      exact .inr (.inr (Except.error.inj herr).symm)
  · unfold appendRow at herr
    rw [if_neg hexceeds] at herr
    cases herr

theorem started_asJson {e : LifecycleLedgerEntry N} : Started e.asJson ↔ Started e := by
  rw [Started, Started, isCleanupPending_asJson, LifecycleLedgerEntry.asJson_state]

section ReadBack
variable [DecidableEq N]

structure Sound (ledger : LifecycleLedger N) : Prop extends Rooted ledger where
  rows : ∀ a ∈ ledger.entries, ReadsBack a
  latest : ∀ id e, ledger.byIdentity.get id = some e → ReadsBack e
  /-- an identity that is still accepted is what its anchor says -/
  firm : ∀ id e, ledger.byIdentity.get id = some e → e.state = .accepted →
    ∃ a, anchorOf ledger.entries id = some a ∧ a.asJson = e.asJson

/-- A row that may be appended: it reads back, and does not accept an identity once more in
another way. -/
def RowKept (ledger : LifecycleLedger N) (e : LifecycleLedgerEntry N) : Prop :=
  ReadsBack e ∧ (e.state = .accepted →
    ∀ a, anchorOf ledger.entries e.identity = some a → a.asJson = e.asJson)

theorem Sound.set (h : Sound ledger) (he : GoesOn ledger.byIdentity e) (hkept : RowKept ledger e) :
    Sound { ledger with byIdentity := ledger.byIdentity.set e.identity e } where
  anchored := h.anchored.set he
  known a ha := isSome_get_compacted (r := some e) (h.known a ha)
  rows := h.rows
  latest id e' he' := by
    simp only [InsertionMap.get_set] at he'
    split_ifs at he' with hid
    · exact some.inj he' ▸ hkept.1
    · exact h.latest id e' he'
  firm id e' he' hstate := by
    simp only [InsertionMap.get_set] at he'
    split_ifs at he' with hid
    · obtain rfl := some.inj he'
      obtain ⟨prior, hprior, -⟩ := he
      obtain ⟨-, a, ha, -⟩ := h.anchored _ _ hprior
      exact ⟨a, hid ▸ ha, hkept.2 hstate a ha⟩
    · exact h.firm id e' he' hstate

theorem Sound.compact (h : Sound ledger) {r : Option (LifecycleLedgerEntry N)}
    (hr : ∀ e ∈ r, GoesOn ledger.byIdentity e ∧ RowKept ledger e)
    (hcompacted : Compacted ledger r ledger') : Sound ledger' := by
  -- what the map holds with the new row, it holds soundly beside the old entries
  have hset : Sound { ledger with byIdentity := ledger.compacted r } := by
    cases r with
    | none => exact h
    | some e => exact h.set (hr e rfl).1 (hr e rfl).2
  refine ⟨h.toRooted.compact (fun e he => (hr e he).1) hcompacted, fun a ha => ?_,
    fun id e he => ?_, fun id e he hstate => ?_⟩
  · rcases hcompacted.mem_entries ha with ha | ⟨id, hid⟩
    · exact h.rows a ha
    · exact hset.latest id a hid
  · rw [hcompacted.byIdentity] at he
    exact hset.latest id e he
  · rw [hcompacted.byIdentity] at he
    obtain ⟨a, ha, heq⟩ := hset.firm id e he hstate
    refine ⟨a, ?_, heq⟩
    rw [hcompacted.anchorOf_entries hset.keyed he, get_anchors_of_anchored hset.anchored he]
    exact ha

theorem Sound.push (h : Sound ledger) (he : GoesOn ledger.byIdentity e ∨ Begins ledger e)
    (hkept : RowKept ledger e) : Sound (ledger.push e) := by
  refine ⟨h.toRooted.push he, fun a ha => ?_, fun id e' he' => ?_, fun id e' he' hstate => ?_⟩
  · rcases mem_append.mp ha with ha | ha
    · exact h.rows a ha
    · exact mem_singleton.mp ha ▸ hkept.1
  · change (ledger.byIdentity.set e.identity e).get id = some e' at he'
    rw [InsertionMap.get_set] at he'
    split_ifs at he' with hid
    · exact some.inj he' ▸ hkept.1
    · exact h.latest id e' he'
  · change (ledger.byIdentity.set e.identity e).get id = some e' at he'
    change ∃ a, anchorOf (ledger.entries ++ [e]) id = some a ∧ a.asJson = e'.asJson
    rw [InsertionMap.get_set] at he'
    split_ifs at he' with hid
    · obtain rfl := some.inj he'
      subst hid
      rcases he with ⟨prior, hprior, -⟩ | ⟨-, hnew⟩
      · obtain ⟨-, a, ha, -⟩ := h.anchored _ _ hprior
        exact ⟨a, anchorOf_append ha _, hkept.2 hstate a ha⟩
      · refine ⟨e, ?_, rfl⟩
        rw [anchorOf_append_of_none (anchorOf_eq_none h.known hnew), anchorOf, find?_singleton,
          if_pos (by simp [hstate])]
    · obtain ⟨a, ha, heq⟩ := h.firm id e' he' hstate
      exact ⟨a, anchorOf_append ha _, heq⟩

/-- **Appending a row that reads back keeps a ledger sound.** -/
theorem Sound.append (h : Sound ledger) (he : GoesOn ledger.byIdentity e ∨ Begins ledger e)
    (hkept : RowKept ledger e) : Sound (ledger.append e).1 := by
  refine append_preserves h (fun ledger' hknown hcompacted => ?_)
    (fun ledger' _ hcompacted => h.compact (by simp) hcompacted)
    fun ledger' hP hmap hwhich _ => ?_
  · refine h.compact (fun e' he' => ?_) hcompacted
    obtain rfl := mem_some_iff.mp he'
    rcases he with he | ⟨-, hnew⟩
    · exact ⟨he, hkept⟩
    · rw [hnew] at hknown
      cases hknown
  · refine hP.push (he.imp (fun hon => hmap ▸ hon) fun hnew => ⟨hnew.1, by rw [hmap]; exact hnew.2⟩)
      ⟨hkept.1, fun hstate a ha => ?_⟩
    rcases hwhich with rfl | hnew
    · exact hkept.2 hstate a ha
    · rw [anchorOf_eq_none hP.known (by rw [hmap]; exact hnew)] at ha
      cases ha

end ReadBack

/-! ## What a replay gives -/

/-- An identity without a row that counts was never accepted, as long as nothing of it was
refused. -/
theorem anchorOf_of_no_latest {id : JsString} {events : List (Option (LifecycleLedgerEntry N))}
    (hclean : (ledgerRules.track id events).unclean = false)
    (hnone : (ledgerRules.track id events).latest = none) :
    anchorOf events.reduceOption id = none := by
  induction events using reverseRecOn with
  | nil => rfl
  | append_singleton events event ih =>
    have hclean' : (ledgerRules.track id events).unclean = false := by
      rw [← Bool.not_eq_true]
      intro hspoilt
      rw [ledgerRules.track_append_of_unclean hspoilt, hspoilt] at hclean
      cases hclean
    have hnone' : (ledgerRules.track id events).latest = none := by
      rw [← not_isSome_iff_eq_none]
      intro hsome
      have hsome' := ledgerRules.latest_isSome_append hsome [event]
      rw [hnone] at hsome'
      cases hsome'
    have hbefore := ih hclean' hnone'
    rw [reduceOption_append, anchorOf_append_of_none hbefore]
    cases event with
    | none => rfl
    | some e =>
      rw [reduceOption_singleton, toList_some, anchorOf, find?_singleton, if_neg]
      rw [Bool.and_eq_true, beq_iff_eq, beq_iff_eq]
      rintro ⟨hid, hstate⟩
      subst hid
      have haccept : ledgerRules.accepts (ledgerRules.track e.identity events).latest e = true := by
        rw [hnone']
        simp only [ledgerRules, hasValidTerminalDigests, isValidHistoryContinuation, hstate]
        rfl
      have hstep : ledgerRules.track e.identity (events ++ [some e]) = ⟨some e, false⟩ := by
        rw [LogRules.track_append_singleton]
        exact ledgerRules.step_accept hclean' haccept
      rw [hstep] at hnone
      cases hnone

variable [DecidableEq N]

/-- The entries among the lines of a file. -/
def fileEntries (file : List UInt8) : List (LifecycleLedgerEntry N) :=
  (fileEvents file).reduceOption

/-- What a replay holds was read, every identity with its anchor, which is the first
accepted row of the identity in the log. -/
structure Grounded (entries : List (LifecycleLedgerEntry N))
    (byIdentity : InsertionMap JsString (LifecycleLedgerEntry N))
    (events : List (Option (LifecycleLedgerEntry N))) : Prop where
  anchored : Anchored entries byIdentity
  known : ∀ a ∈ entries, (byIdentity.get a.identity).isSome = true
  read : ∀ a ∈ entries, IsRow a ∧ ReadsBack a
  latest : ∀ id e, byIdentity.get id = some e → e ∈ entries
  first : ∀ id e, byIdentity.get id = some e →
    anchorOf entries id = anchorOf events.reduceOption id

theorem grounded_start : Grounded (N := N) [] .empty [] where
  anchored _ _ h := by cases h
  known a h := absurd h not_mem_nil
  read a h := absurd h not_mem_nil
  latest _ _ h := by cases h
  first _ _ h := by cases h

section Scan
variable {clock : JsString → Timestamp N} {scan : Scan N}
  {events : List (Option (LifecycleLedgerEntry N))}
variable {line : List UInt8} {scan' : Scan N}

theorem Grounded.first_append {entries : List (LifecycleLedgerEntry N)}
    {byIdentity : InsertionMap JsString (LifecycleLedgerEntry N)}
    (h : Grounded entries byIdentity events) {id : JsString}
    {e : LifecycleLedgerEntry N} (he : byIdentity.get id = some e)
    (more : List (Option (LifecycleLedgerEntry N))) :
    ∃ a, anchorOf entries id = some a ∧ anchorOf (events ++ more).reduceOption id = some a := by
  obtain ⟨-, a, ha, -⟩ := h.anchored id e he
  have hfirst := h.first id e he
  rw [ha] at hfirst
  rw [reduceOption_append]
  exact ⟨a, ha, anchorOf_append hfirst.symm _⟩

theorem Grounded.skip {entries : List (LifecycleLedgerEntry N)}
    {byIdentity : InsertionMap JsString (LifecycleLedgerEntry N)}
    (h : Grounded entries byIdentity events) (event : Option (LifecycleLedgerEntry N)) :
    Grounded entries byIdentity (events ++ [event]) := by
  refine ⟨h.anchored, h.known, h.read, h.latest, fun id e he => ?_⟩
  obtain ⟨a, ha, hfirst⟩ := h.first_append he [event]
  rw [ha, hfirst]

theorem Grounded.accept (h : Grounded scan.entries scan.byIdentity events)
    (hfollows : scan.Follows clock events) {e : LifecycleLedgerEntry N}
    (hread : readRow line = .entry e)
    (hclean : (ledgerRules.track e.identity events).unclean = false)
    (haccept : ledgerRules.accepts (ledgerRules.track e.identity events).latest e = true) :
    Grounded (scan.entries ++ [e]) (scan.byIdentity.set e.identity e) (events ++ [some e]) := by
  obtain ⟨hdigests, hcontinues⟩ := Bool.and_eq_true_iff.mp haccept
  -- the rows of the other identities stay where they are
  have hother : ∀ id e', scan.byIdentity.get id = some e' →
      anchorOf (scan.entries ++ [e]) id = anchorOf (events ++ [some e]).reduceOption id := by
    intro id e' he'
    obtain ⟨a, ha, hfirst⟩ := h.first_append he' [some e]
    rw [anchorOf_append ha, hfirst]
  have hmem : ∀ a ∈ scan.entries ++ [e], a ∈ scan.entries ∨ a = e := fun a ha =>
    (mem_append.mp ha).imp_right mem_singleton.mp
  have hstep : Anchored (scan.entries ++ [e]) (scan.byIdentity.set e.identity e) ∧
      anchorOf (scan.entries ++ [e]) e.identity =
        anchorOf (events ++ [some e]).reduceOption e.identity := by
    rw [← hfollows.latest e.identity] at hcontinues
    cases hprior : scan.byIdentity.get e.identity with
    | some prior =>
      rw [hprior, isValidHistoryContinuation] at hcontinues
      split_ifs at hcontinues with hspent
      all_goals
        simp only [not_or, ne_eq, not_not] at hspent
        exact ⟨(h.anchored.set ⟨prior, hprior, hspent.1.symm⟩).append [e], hother _ _ hprior⟩
    | none =>
      rw [hprior] at hcontinues
      have hstate : e.state = .accepted := by simpa [isValidHistoryContinuation] using hcontinues
      have hnew := anchorOf_eq_none h.known hprior
      have hlog : anchorOf events.reduceOption e.identity = none :=
        anchorOf_of_no_latest hclean ((hfollows.latest _).symm.trans hprior)
      refine ⟨h.anchored.accept hstate hnew, ?_⟩
      rw [reduceOption_append, anchorOf_append_of_none hnew, anchorOf_append_of_none hlog]
      rfl
  refine ⟨hstep.1, fun a ha => ?_, fun a ha => ?_, fun id e' he' => ?_, fun id e' he' => ?_⟩
  · rw [InsertionMap.get_set]
    split_ifs with hid
    · rfl
    · rcases hmem a ha with ha | rfl
      · exact h.known a ha
      · exact absurd rfl hid
  · rcases hmem a ha with ha | rfl
    · exact h.read a ha
    · exact ⟨(readRow_eq_entry.mp hread).2, readsBack_of_readRow hread hdigests⟩
  · rw [InsertionMap.get_set] at he'
    split_ifs at he'
    · exact some.inj he' ▸ mem_append_right _ (mem_singleton_self _)
    · exact mem_append_left _ (h.latest id e' he')
  · rw [InsertionMap.get_set] at he'
    split_ifs at he' with hid
    · subst hid
      exact hstep.2
    · exact hother id e' he'

theorem Grounded.row (h : Grounded scan.entries scan.byIdentity events)
    (hfollows : scan.Follows clock events) {limits : LifecycleLedgerLimits}
    (hrow : Scan.row limits clock scan line = .ok scan') :
    Grounded scan'.entries scan'.byIdentity (events ++ [rowEvent line]) := by
  obtain ⟨-, -, ⟨hread, rfl⟩ | ⟨e, hread, rfl⟩⟩ := row_cases hrow
  · exact h.skip _
  · simp only [Scan.entry, hfollows.refused_iff e]
    by_cases hrefused : (ledgerRules.track e.identity events).unclean = true ∨
        ledgerRules.accepts (ledgerRules.track e.identity events).latest e = false
    · rw [if_pos hrefused]
      exact h.skip _
    · rw [if_neg hrefused]
      rw [not_or, Bool.not_eq_true, Bool.not_eq_false] at hrefused
      have hevent : rowEvent line = some e := by rw [rowEvent, hread]
      rw [hevent]
      exact h.accept hfollows hread hrefused.1 hrefused.2

theorem Grounded.rows (h : Grounded scan.entries scan.byIdentity events)
    (hfollows : scan.Follows clock events) {limits : LifecycleLedgerLimits}
    {lines : List (List UInt8)} (hrows : lines.foldlM (Scan.row limits clock) scan = .ok scan') :
    Grounded scan'.entries scan'.byIdentity (events ++ lines.map rowEvent) := by
  induction lines generalizing scan events with
  | nil =>
    cases hrows
    simpa using h
  | cons line lines ih =>
    rw [foldlM_cons] at hrows
    cases hrow : Scan.row limits clock scan line with
    | error e => rw [hrow] at hrows; cases hrows
    | ok scan₁ =>
      rw [hrow] at hrows
      rw [map_cons, append_cons]
      exact ih (h.row hfollows hrow) (hfollows.row hrow) hrows

end Scan

theorem grounded_scanFile {limits : LifecycleLedgerLimits} {clock : JsString → Timestamp N}
    {file : List UInt8} {scan : Scan N} (h : scanFile limits clock file = .ok scan) :
    Grounded scan.entries scan.byIdentity (fileEvents file) := by
  have hgrounded := Grounded.rows grounded_start (Scan.follows_start clock) h
  rwa [nil_append] at hgrounded

end LifecycleLedger
end GajaeCode
