import GajaeCode.LifecycleLedger

/-! # What the operations of the ledger can do

An inversion lemma for each operation that writes: appending replaces the file, or writes
a row at its end, perhaps after replacing it (`append_cases`).  Every later fact about
writes is a case analysis of that.
-/
namespace GajaeCode
open JsString JsValue JsonParse

namespace LifecycleLedger
variable {N : Type} [JsNumber N] {ledger ledger' : LifecycleLedger N}
  {e : LifecycleLedgerEntry N}
variable {clock : JsString → Timestamp N} {P : LifecycleLedger N → Prop} {Q : LedgerError N → Prop}

/-- The ledger after its file was rewritten. -/
def replaced (ledger : LifecycleLedger N) (replacement : Option (LifecycleLedgerEntry N))
    (snapshot : List (LifecycleLedgerEntry N)) : LifecycleLedger N :=
  { ledger.write (.snapshot snapshot) with
    entries := snapshot, byIdentity := ledger.compacted replacement
    rowCount := snapshot.length, byteCount := (snapshot.flatMap rowLine).length }

/-- A compaction that succeeds has an anchor for every identity, and its rows are within
the limits. -/
theorem compact_eq_ok {replacement : Option (LifecycleLedgerEntry N)}
    (h : ledger.compact replacement = .ok ledger') : ∃ snapshot,
      snapshotOf (ledger.anchors replacement) (ledger.compacted replacement).entries =
        some snapshot ∧ snapshot.length ≤ ledger.limits.maxRows ∧
      (snapshot.flatMap rowLine).length ≤ ledger.limits.maxBytes ∧
      (∀ e ∈ snapshot, (jsonBytes e.toValue).length ≤ ledger.limits.maxLineBytes) ∧
      ledger' = ledger.replaced replacement snapshot := by
  unfold compact at h
  simp only at h
  cases hsnapshot : snapshotOf (ledger.anchors replacement)
      (ledger.compacted replacement).entries with
  | none => simp [hsnapshot] at h
  | some snapshot =>
    simp only [hsnapshot] at h
    split_ifs at h with hlong
    simp only [not_or, not_lt, not_exists, not_and] at hlong
    obtain ⟨hrows, hbytes, hlines⟩ := hlong
    exact ⟨snapshot, rfl, hrows, hbytes, hlines, (Except.ok.inj h).symm⟩

/-- **What appending can do**: rewrite the file with the row in it, or go on with the file
as it is or rewritten without the row, and then fail or write the row at the end. -/
theorem append_cases (ledger : LifecycleLedger N) (e : LifecycleLedgerEntry N) :
    (∃ ledger', (ledger.byIdentity.get e.identity).isSome = true ∧
      ledger.compact (some e) = .ok ledger' ∧ ledger.append e = (ledger', .ok e)) ∨
    (∃ ledger', (ledger' = ledger ∨
        (ledger.byIdentity.get e.identity = none ∧ ledger.compact none = .ok ledger')) ∧
      ((∃ err, ledger.append e = (ledger', .error err)) ∨
        ((jsonBytes e.toValue).length ≤ ledger.limits.maxLineBytes ∧
          ¬ ledger'.exceeds (rowLine e) ∧ ledger.append e = (ledger'.push e, .ok e)))) := by
  have hlength : (rowLine e).length - 1 = (jsonBytes e.toValue).length := by
    simp [rowLine]
  have hrow : ∀ ledger' : LifecycleLedger N, ledger'.exceeds (rowLine e) ∨
      ¬ ledger'.exceeds (rowLine e) ∧ ledger'.appendRow e = (ledger'.push e, .ok e) := by
    intro ledger'
    by_cases hexceeds : ledger'.exceeds (rowLine e)
    · exact .inl hexceeds
    · exact .inr ⟨hexceeds, if_neg hexceeds⟩
  unfold append
  split_ifs with hlong hexceeds hknown
  · exact .inr ⟨ledger, .inl rfl, .inl ⟨_, rfl⟩⟩
  · cases hcompact : ledger.compact (some e) with
    | error err => exact .inr ⟨ledger, .inl rfl, .inl ⟨err, rfl⟩⟩
    | ok ledger' => exact .inl ⟨ledger', hknown, rfl, rfl⟩
  · rw [Bool.not_eq_true, Option.isSome_eq_false_iff, Option.isNone_iff_eq_none] at hknown
    cases hcompact : ledger.compact none with
    | error err => exact .inr ⟨ledger, .inl rfl, .inl ⟨err, rfl⟩⟩
    | ok ledger' =>
      refine .inr ⟨ledger', .inr ⟨hknown, rfl⟩, ?_⟩
      rcases hrow ledger' with hexceeds' | ⟨hexceeds', heq⟩
      · exact .inl ⟨_, if_pos hexceeds'⟩
      · exact .inr ⟨by omega, hexceeds', heq⟩
  · exact .inr ⟨ledger, .inl rfl, .inr ⟨by omega, hexceeds, if_neg hexceeds⟩⟩

/-- An opening that succeeds has replayed the file and recovered from what it found. -/
theorem openLedger_ok [DecidableEq N] {limits : LifecycleLedgerLimits} {file : List UInt8}
    (h : openLedger limits clock file = (ledger, .ok ())) : file.length ≤ limits.maxBytes ∧
      ∃ scan, scanFile limits clock file = .ok scan ∧
        recover clock scan (ofScan limits file scan) = (ledger, .ok ()) := by
  unfold openLedger at h
  split_ifs at h with hlong
  · cases h
  cases hscan : scanFile limits clock file with
  | error err =>
    rw [hscan] at h
    cases h
  | ok scan =>
    rw [hscan] at h
    exact ⟨not_lt.mp hlong, scan, rfl, h⟩

/-- Every entry is kept under its own identity. -/
def Keyed (byIdentity : InsertionMap JsString (LifecycleLedgerEntry N)) : Prop :=
  ∀ id e, byIdentity.get id = some e → e.identity = id

omit [JsNumber N] in
theorem Keyed.set {byIdentity : InsertionMap JsString (LifecycleLedgerEntry N)}
    (h : Keyed byIdentity) (e : LifecycleLedgerEntry N) : Keyed (byIdentity.set e.identity e) := by
  intro id e' hget
  rw [InsertionMap.get_set] at hget
  split_ifs at hget with hid
  · obtain rfl := some.inj hget
    exact hid.symm
  · exact h id e' hget

/-- What setting a row keeps of the map, appending it keeps. -/
theorem append_byIdentity {P : InsertionMap JsString (LifecycleLedgerEntry N) → Prop}
    (h : P ledger.byIdentity) (hset : P (ledger.byIdentity.set e.identity e)) :
    P (ledger.append e).1.byIdentity := by
  rcases append_cases ledger e with ⟨ledger', -, hcompact, heq⟩ | ⟨ledger', hbefore, heq⟩
  · obtain ⟨snapshot, -, -, -, -, rfl⟩ := compact_eq_ok hcompact
    rw [heq]
    exact hset
  · have hmap : ledger'.byIdentity = ledger.byIdentity := by
      rcases hbefore with rfl | ⟨-, hcompact⟩
      · rfl
      · obtain ⟨snapshot, -, -, -, -, rfl⟩ := compact_eq_ok hcompact
        rfl
    rcases heq with ⟨err, heq⟩ | ⟨-, -, heq⟩
    · rw [heq]
      exact hmap ▸ h
    · rw [heq]
      change P (ledger'.byIdentity.set e.identity e)
      exact hmap ▸ hset

omit [JsNumber N] in
/-- What the body keeps, the loop keeps, and it fails only as the body does. -/
theorem forEach_run {α β : Type} {body : LifecycleLedger N → α → Outcome N β} {items : List α}
    (hbody : ∀ ledger, P ledger → ∀ item ∈ items, P (body ledger item).1 ∧ ∀ err, (body ledger
      item).2 = .error err → Q err) (h : P ledger) : P (forEach body ledger items).1 ∧
      ∀ err, (forEach body ledger items).2 = .error err → Q err := by
  induction items generalizing ledger with
  | nil => exact ⟨h, fun _ herr => nomatch herr⟩
  | cons item items ih =>
    obtain ⟨hP, hQ⟩ := hbody ledger h item List.mem_cons_self
    rw [forEach]
    cases hout : body ledger item with
    | mk ledger' result =>
      rw [hout] at hP hQ
      cases result with
      | error err => exact ⟨hP, fun err' herr => hQ err' (Except.error.inj herr ▸ rfl)⟩
      | ok b => exact ih (fun ledger hP item' hmem => hbody ledger hP item'
          (List.mem_cons_of_mem _ hmem)) hP

/-- What is left open: recovery closes it, whatever it was. -/
def Started (e : LifecycleLedgerEntry N) : Prop :=
  (e.state = .effectStarted ∧ isCleanupPending e = false) ∨ e.state = .awaitingReady

omit [JsNumber N] in
theorem Started.open (h : Started e) : e.state.final = false := by
  rcases h with ⟨hstate, -⟩ | hstate
  · rw [hstate]
    rfl
  · rw [hstate]
    rfl

/-- **What one step of each loop keeps, recovery keeps**, and it fails only as a step
does. -/
theorem recover_run {scan : Scan N}
    (hinvalid : ∀ ledger, P ledger → ∀ item ∈ scan.syntheticUncertain.entries, P (recoverInvalid
      ledger item).1 ∧ ∀ err, (recoverInvalid ledger item).2 = .error err → Q err)
    (hcorrupted : ∀ ledger, P ledger → ∀ id ∈ scan.uncertainAfterCorruption, P (recoverCorrupted
      clock ledger id).1 ∧ ∀ err, (recoverCorrupted clock ledger id).2 = .error err → Q err)
    (hstarted : ∀ ledger, P ledger → ∀ ledger', P ledger' → ∀ e ∈ ledger.byIdentity.values, P
      (recoverStarted clock ledger' e).1 ∧ ∀ err, (recoverStarted clock ledger' e).2 = .error err →
      Q err) (h : P ledger) : P (recover clock scan ledger).1 ∧
      ∀ err, (recover clock scan ledger).2 = .error err → Q err := by
  have hfirst := forEach_run hinvalid h
  unfold recover
  generalize forEach recoverInvalid ledger scan.syntheticUncertain.entries = first at hfirst
  obtain ⟨ledger₁, result₁⟩ := first
  cases result₁ with
  | error err => exact hfirst
  | ok =>
    have hsecond := forEach_run hcorrupted hfirst.1
    simp only
    generalize forEach (recoverCorrupted clock) ledger₁ scan.uncertainAfterCorruption =
      second at hsecond
    obtain ⟨ledger₂, result₂⟩ := second
    cases result₂ with
    | error err => exact hsecond
    | ok => exact forEach_run (hstarted ledger₂ hsecond.1) hsecond.1

end LifecycleLedger
end GajaeCode
