import GajaeCode.LedgerRows
import GajaeCode.LedgerSteps

/-! # A proof read without opening

`readTerminal` looks for the terminal row of one request and changes nothing; `open`
replays everything and closes what was left open.  Where the first finds a proof, the
second has the same row for a replay:

* the complete lines are all entries, so up to the tail nothing was lost, and the rows of
  the identity are a history that ends with the proof;
* the tail is a row of another identity, because the marker is not in it, or a row that
  was cut, which is no entry and spoils only what was not finished;
* the loops that close other identities leave this one alone, also where they rewrite the
  file.
-/
namespace GajaeCode
open JsString JsValue JsonParse List Option

namespace LifecycleLedger
variable {N : Type} [JsNumber N]

section Recover
variable {clock : JsString → Timestamp N} {id : JsString} {e : LifecycleLedgerEntry N}
variable {ledger : LifecycleLedger N}
variable {events : List (Option (LifecycleLedgerEntry N))} {scan : Scan N}

/-- The map holds `e` for `id`, and every entry under its own identity. -/
def Holds (id : JsString) (e : LifecycleLedgerEntry N) (ledger : LifecycleLedger N) : Prop :=
  ledger.byIdentity.get id = some e ∧ Keyed ledger.byIdentity

theorem Holds.append (h : Holds id e ledger) {u : LifecycleLedgerEntry N} (hu : u.identity ≠ id) :
    Holds id e (ledger.append u).1 := by
  apply append_byIdentity (P := fun byIdentity => byIdentity.get id = some e ∧ Keyed byIdentity)
  · exact h
  · refine ⟨?_, h.2.set u⟩
    rw [InsertionMap.get_set, if_neg (Ne.symm hu)]
    exact h.1

theorem uncertainFrom_identity (e : LifecycleLedgerEntry N) (trusted : Bool)
    (now : Timestamp N) : (uncertainFrom e trusted now).identity = e.identity := by
  cases trusted <;> rfl

theorem uncertainFrom_requestHash (e : LifecycleLedgerEntry N) (trusted : Bool)
    (now : Timestamp N) : (uncertainFrom e trusted now).requestHash = e.requestHash := by
  cases trusted <;> rfl

theorem uncertainFrom_state (e : LifecycleLedgerEntry N) (trusted : Bool)
    (now : Timestamp N) : (uncertainFrom e trusted now).state = .terminalUncertain := by
  cases trusted <;> rfl

theorem uncertainFrom_final (e : LifecycleLedgerEntry N) (trusted : Bool)
    (now : Timestamp N) : (uncertainFrom e trusted now).state.final = true := by
  rw [uncertainFrom_state]
  rfl

theorem Holds.recoverInvalid (h : Holds id e ledger) {item : JsString × LifecycleLedgerEntry N}
    (hitem : item.1 ≠ id) (hkey : item.2.identity = item.1) :
    Holds id e (ledger.recoverInvalid item).1 := by
  have hset : Holds id e
      { ledger with byIdentity := ledger.byIdentity.set item.1 item.2 } := by
    constructor
    · change (ledger.byIdentity.set item.1 item.2).get id = some e
      rw [InsertionMap.get_set, if_neg (Ne.symm hitem)]
      exact h.1
    · change Keyed (ledger.byIdentity.set item.1 item.2)
      rw [← hkey]
      exact h.2.set item.2
  unfold LifecycleLedger.recoverInvalid
  simp only
  split_ifs
  · rw [Prod.map_fst, id_eq]
    exact hset.append (hkey ▸ hitem)
  · exact hset

theorem Holds.recoverCorrupted (h : Holds id e ledger) {id' : JsString} (hid : id' ≠ id) :
    Holds id e (recoverCorrupted clock ledger id').1 := by
  unfold LifecycleLedger.recoverCorrupted
  cases hget : ledger.byIdentity.get id' with
  | none => exact h
  | some e' =>
    simp only
    split_ifs
    · exact h
    · rw [Prod.map_fst, id_eq]
      apply h.append
      rw [uncertainFrom_identity, h.2 id' e' hget]
      exact hid

theorem Holds.recoverStarted (h : Holds id e ledger) {e' : LifecycleLedgerEntry N}
    (hid : Started e' → e'.identity ≠ id) : Holds id e (recoverStarted clock ledger e').1 := by
  unfold LifecycleLedger.recoverStarted
  split_ifs with hstarted
  · rw [Prod.map_fst, id_eq]
    apply h.append
    rw [uncertainFrom_identity]
    exact hid hstarted
  · exact h

/-- **Recovery leaves an identity alone that is clean and not left open.** -/
theorem Holds.recover (hfollows : scan.Follows clock events) (h : Holds id e ledger)
    (hclean : (ledgerRules.track id events).unclean = false) (hsettled : ¬ Started e) :
    Holds id e (recover clock scan ledger).1 := by
  have hnot : id ∉ scan.invalidIdentities ∧ id ∉ scan.uncertainAfterCorruption := by
    rw [← not_or, ← hfollows.unclean id, hclean]
    exact Bool.false_ne_true
  refine (recover_run (Q := fun _ => True) (fun ledger h item hitem => ⟨?_, fun _ _ => trivial⟩)
    (fun ledger h id' hid' => ⟨?_, fun _ _ => trivial⟩)
    (fun ledger h ledger' h' e' he' => ⟨?_, fun _ _ => trivial⟩) h).1
  · -- the made-up entries are about invalid identities, and this one is not
    have hsynthetic := InsertionMap.get_of_mem_entries hitem
    have hmem := (hfollows.synthetic_isSome item.1).mp (isSome_of_eq_some hsynthetic)
    refine h.recoverInvalid (fun heq => hnot.1 (heq ▸ hmem)) ?_
    rcases hfollows.synthetic _ _ hsynthetic with ⟨e', he', hu⟩ | ⟨-, e', -, he', hu⟩
    · rw [hu, uncertainFrom_identity, hfollows.keyed he']
    · rw [hu, uncertainFrom_identity, he']
  · exact h.recoverCorrupted fun heq => hnot.2 (heq ▸ hid')
  · refine h'.recoverStarted fun hstarted heq => hsettled ?_
    obtain ⟨item, hitem, rfl⟩ := mem_map.mp he'
    have hitem' := InsertionMap.get_of_mem_entries hitem
    have hkey := h.2 _ _ hitem'
    rw [← hkey, heq, h.1] at hitem'
    exact some.inj hitem' ▸ hstarted

theorem byIdentity_ofScan (limits : LifecycleLedgerLimits) (file : List UInt8) (scan : Scan N) :
    (ofScan limits file scan).byIdentity = scan.byIdentity := by
  unfold ofScan
  split_ifs <;> rfl

theorem entries_ofScan (limits : LifecycleLedgerLimits) (file : List UInt8) (scan : Scan N) :
    (ofScan limits file scan).entries = scan.entries := by
  unfold ofScan
  split_ifs <;> rfl

theorem holds_ofScan (hfollows : scan.Follows clock events) (limits : LifecycleLedgerLimits)
    (file : List UInt8) (h : (ledgerRules.track id events).latest = some e) :
    Holds id e (ofScan limits file scan) := by
  refine ⟨?_, fun id' e' he' => ?_⟩
  · rw [byIdentity_ofScan, hfollows.latest, h]
  · rw [byIdentity_ofScan] at he'
    exact hfollows.keyed he'

variable [DecidableEq N]

/-- **An identity whose history is clean and finished is what its last row says, once the
ledger is open.** -/
theorem openLedger_finished {limits : LifecycleLedgerLimits} {file : List UInt8}
    (htrack : fileTrack file id = ⟨some e, false⟩) (hfinal : e.state.final = true)
    (hopen : openLedger limits clock file = (ledger, .ok ())) :
    ledger.byIdentity.get id = some e := by
  have hsettled : ¬ Started e := fun hstarted => by
    rw [hstarted.open] at hfinal
    cases hfinal
  obtain ⟨-, scan, hscan, hrecover⟩ := openLedger_ok hopen
  have hfollows := follows_scanFile hscan
  have hstart := holds_ofScan hfollows limits file (congrArg Track.latest htrack)
  have hholds := hstart.recover hfollows (congrArg Track.unclean htrack) hsettled
  rw [hrecover] at hholds
  exact hholds.1

end Recover

/-! ## What `readTerminal` has seen -/

section Read
variable [DecidableEq N] {limits : LifecycleLedgerLimits} {identity requestHash : JsString}
variable {found' found : Nat × Option (LifecycleLedgerEntry N)}

/-- The rows so far are a clean history of the identity under the hash, and `found` is its
end. -/
def ReadTo (identity requestHash : JsString) (found : Option (LifecycleLedgerEntry N))
    (t : Track (LifecycleLedgerEntry N)) : Prop :=
  t = ⟨found, false⟩ ∧ ∀ e ∈ found, e.identity = identity ∧ e.requestHash = requestHash

theorem ReadTo.row {t : Track (LifecycleLedgerEntry N)} (h : ReadTo identity requestHash found.2 t)
    {line : List UInt8}
    (hrow : readTerminalRow limits identity requestHash found line = some found') :
    ReadTo identity requestHash found'.2 (ledgerRules.step identity t (rowEvent line)) := by
  unfold readTerminalRow at hrow
  unfold rowEvent
  simp only at hrow
  split_ifs at hrow
  cases hread : (readRow line : LedgerRow N) with
  | corrupt | unsupported version => simp [hread] at hrow
  | entry e =>
    simp only [hread] at hrow ⊢
    split_ifs at hrow with hother hwrong
    · obtain rfl := some.inj hrow
      rwa [ledgerRules.step_other hother]
    · obtain rfl := some.inj hrow
      simp only [not_or, Bool.not_eq_false, ne_eq, not_not] at hother hwrong
      obtain ⟨hhash, hdigests, hhistory⟩ := hwrong
      obtain ⟨rfl, -⟩ := h
      subst hother
      refine ⟨ledgerRules.step_accept rfl (Bool.and_eq_true_iff.mpr ⟨hdigests, hhistory⟩), ?_⟩
      rintro e' he'
      obtain rfl := mem_some_iff.mp he'
      exact ⟨rfl, hhash⟩

theorem ReadTo.rows {events : List (Option (LifecycleLedgerEntry N))}
    (h : ReadTo identity requestHash found.2 (ledgerRules.track identity events))
    {lines : List (List UInt8)}
    (hrows : lines.foldlM (readTerminalRow limits identity requestHash) found = some found') :
    ReadTo identity requestHash found'.2
      (ledgerRules.track identity (events ++ lines.map rowEvent)) := by
  induction lines generalizing found events with
  | nil =>
    obtain rfl := some.inj hrows
    simpa using h
  | cons line lines ih =>
    rw [foldlM_cons] at hrows
    obtain ⟨found₁, hrow, hrows⟩ := bind_eq_some_iff.mp hrows
    have hstep := h.row hrow
    rw [← LogRules.track_append_singleton] at hstep
    rw [map_cons, append_cons]
    exact ih hstep hrows

/-- A tail that was cut from a row, without the marker of `identity`, says nothing of it:
it is another's row or no entry at all. -/
theorem rowEvent_tail {row : LifecycleLedgerEntry N} {tail : List UInt8}
    (htail : tail <+: jsonBytes row.toValue) (hmarker : ¬ identityMarker identity <:+: tail)
    {e : LifecycleLedgerEntry N} (he : rowEvent tail = some e) : e.identity ≠ identity := by
  obtain ⟨back, hback⟩ := htail
  rw [rowEvent_eq_some] at he
  by_cases hnil : back = []
  · rw [hnil, append_nil] at hback
    rintro rfl
    rw [hback] at he
    obtain rfl := eq_asJson_of_readRow he
    exact hmarker (hback ▸ identityMarker_infix row)
  · rw [readRow_cut hback.symm hnil] at he
    cases he

/-- **A proof that `readTerminal` finds is what a reader of the whole file finds.** -/
theorem fileTrack_of_readTerminal {file : List UInt8} {row e : LifecycleLedgerEntry N}
    (htail : tailOf file <+: jsonBytes row.toValue)
    (hread : readTerminal limits file identity requestHash = some e) :
    fileTrack file identity = ⟨some e, false⟩ ∧ e.state.terminal = true ∧
      e.requestHash = requestHash := by
  unfold readTerminal at hread
  by_cases hlong : limits.maxBytes < file.length
  · rw [if_pos hlong] at hread
    cases hread
  rw [if_neg hlong] at hread
  cases hlines : ((completeLines file).filter (fun l => l ≠ [])).foldlM
      (readTerminalRow limits identity requestHash) (0, (none : Option (LifecycleLedgerEntry N)))
      with
  | none =>
    rw [hlines] at hread
    cases hread
  | some found =>
    rw [hlines] at hread
    simp only at hread
    split_ifs at hread with hmarker
    obtain ⟨hfound, hterminal⟩ := filter_eq_some_iff.mp hread
    have hstart : ReadTo identity requestHash ((0, none) : Nat × Option (LifecycleLedgerEntry N)).2
        (ledgerRules.track identity []) := ⟨rfl, by simp⟩
    obtain ⟨htrack, hentry⟩ := ReadTo.rows hstart hlines
    rw [hfound, nil_append] at htrack
    refine ⟨?_, hterminal, (hentry e hfound).2⟩
    rw [fileTrack, fileEvents, rows_eq, map_append]
    by_cases hnil : tailOf file = []
    · rw [filter_cons_of_neg (by simpa using hnil), filter_nil, map_nil, append_nil, htrack]
    · rw [filter_cons_of_pos (by simpa using hnil), filter_nil, map_singleton,
        LogRules.track_append_singleton, htrack]
      cases hevent : (rowEvent (tailOf file) : Option (LifecycleLedgerEntry N)) with
      | none =>
        apply ledgerRules.step_lost_of_final
        simp [LogRules.unfinished, ledgerRules, LifecycleState.final, hterminal]
      | some e' => exact ledgerRules.step_other (rowEvent_tail htail hmarker hevent) _

end Read

/-- **A proof that can be read without opening is replayed after opening.**  The lines of
the file may be anything; what follows the last line feed is a front part of some row. -/
theorem begin_replays_readTerminal [DecidableEq N] {limits : LifecycleLedgerLimits}
    {file : List UInt8} {identity requestHash : JsString} {row e : LifecycleLedgerEntry N}
    {clock : JsString → Timestamp N} {ledger : LifecycleLedger N} (now : Timestamp N)
    (htail : tailOf file <+: jsonBytes row.toValue)
    (hread : readTerminal limits file identity requestHash = some e)
    (hopen : openLedger limits clock file = (ledger, .ok ())) :
    ledger.begin identity requestHash now = (ledger, .ok (.replay e)) := by
  obtain ⟨htrack, hterminal, hhash⟩ := fileTrack_of_readTerminal htail hread
  have hfinal : e.state.final = true := by
    rw [LifecycleState.final, hterminal, Bool.true_or]
  have hget := openLedger_finished htrack hfinal hopen
  rw [LifecycleLedger.begin, hget]
  simp only
  rw [if_neg (by simp [hhash]), if_pos (.inl hterminal)]

omit [JsNumber N] in
theorem outcome_eq_ok {out : Outcome N Unit} (h : out.2.toBool = true) : out = (out.1, .ok ()) := by
  obtain ⟨ledger, result⟩ := out
  cases result with
  | error err => exact absurd h Bool.false_ne_true
  | ok => rfl

/-- A request that was accepted and answered, and the first bytes of a row of another. -/
def answeredFile : List UInt8 :=
  utf8 (js "\x7b\"version\":1,\"identity\":\"a\"," ++ js "\"requestHash\":\"h\"," ++
    js "\"state\":\"accepted\"," ++ js "\"ts\":1\x7d\n" ++
    js "\x7b\"version\":1,\"identity\":\"a\"," ++ js "\"requestHash\":\"h\"," ++
    js "\"state\":\"terminal_ok\"," ++ js "\"ts\":2,\"response\":true," ++
    js "\"responseDigest\":\"" ++
    js "b5bea41b6c623f7c09f1bf24dcae58eb" ++
    js "ab3c0cdd90ad966bc43a45b44867e12b" ++ js "\"\x7d\n" ++
    js "\x7b\"version\":1,\"identity\":\"b")

theorem begin_replays_readTerminal_answered : ∃ e : LifecycleLedgerEntry Nat,
      readTerminal DEFAULT_LIFECYCLE_LEDGER_LIMITS answeredFile (js "a") (js "h") = some e ∧
      (openLedger DEFAULT_LIFECYCLE_LEDGER_LIMITS (fun _ => ⟨7, rfl⟩) answeredFile).1.begin
          (js "a") (js "h") ⟨8, rfl⟩ =
        ((openLedger DEFAULT_LIFECYCLE_LEDGER_LIMITS (fun _ => ⟨7, rfl⟩) answeredFile).1,
          .ok (.replay e)) := by
  have hcomputed : (readTerminal (N := Nat) DEFAULT_LIFECYCLE_LEDGER_LIMITS answeredFile (js "a")
        (js "h")).isSome = true ∧
      (openLedger (N := Nat) DEFAULT_LIFECYCLE_LEDGER_LIMITS (fun _ => ⟨7, rfl⟩)
        answeredFile).2.toBool = true ∧
      tailOf answeredFile <+: jsonBytes
        (LifecycleLedgerEntry.fresh (N := Nat) (js "b") (js "h") .accepted ⟨3, rfl⟩).toValue := by
    decide +kernel
  obtain ⟨hread, hresult, htail⟩ := hcomputed
  have hopen := outcome_eq_ok hresult
  exact ⟨(readTerminal _ _ _ _).get hread, (some_get hread).symm,
    begin_replays_readTerminal ⟨8, rfl⟩ htail (some_get hread).symm hopen⟩

end LifecycleLedger
end GajaeCode
