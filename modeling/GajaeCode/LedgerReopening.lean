import GajaeCode.LedgerRecovery

/-! # Opening a ledger again

Opening closes what was left open, and the rows it writes are rows of the file it is opened
from the next time.  Where nothing of an identity that counts was set aside, and every row
that closes one reads back, the first opening leaves nothing to do: the next one, and every
later one, writes nothing.  Where a line was set aside, the row that recovery writes for it
stands behind that line, so it is set aside itself the next time and written once more.
-/
namespace GajaeCode
open JsString JsValue JsonParse List

namespace LifecycleLedger
variable {N : Type} [JsNumber N] [DecidableEq N]

section Reopen
variable {limits : LifecycleLedgerLimits} {clock : JsString → Timestamp N} {file : List UInt8}
  {spoilt : List (List UInt8)} {ledger : LifecycleLedger N}

theorem Rests.whole_closed (h : Rests spoilt ledger) :
    Whole N ledger.file ∧ Closed N ledger.file := by
  constructor
  · intro id hspoilt
    cases hget : ledger.byIdentity.get id with
    | none => rw [h.unknown id hget]
    | some e =>
      rcases (h.latest id e hget).2 with ⟨htrack, -⟩ | ⟨e', htrack, -⟩
      · rw [htrack]
      · rw [htrack] at hspoilt
        cases hspoilt
  · intro id e' he'
    cases hget : ledger.byIdentity.get id with
    | none =>
      rw [h.unknown id hget] at he'
      cases he'
    | some e =>
      rcases (h.latest id e hget).2 with ⟨htrack, -⟩ | ⟨e₁, htrack, -, -, hstarted⟩
      · rw [htrack] at he'
        cases he'
      · rw [htrack] at he'
        obtain rfl := some.inj he'
        exact mt hstarted.mp (h.closed id e hget)

/-- What opening the file of a ledger again does: nothing.  It writes no row, sets aside
only lines that were set aside when `file` was opened, and the identities are in the
states they were in; so restarting leaves the file as it is. -/
structure Converges (limits : LifecycleLedgerLimits) (file : List UInt8)
    (ledger : LifecycleLedger N) : Prop where
  reopens : ∀ clock : JsString → Timestamp N, ∃ ledger',
    openLedger limits clock ledger.file = (ledger', .ok ()) ∧ ledger'.writes = [] ∧
    ledger'.file = ledger.file ∧
    ∀ id, (ledger'.byIdentity.get id).map (·.state) = (ledger.byIdentity.get id).map (·.state)
  quarantined : ∀ (clock clock' : JsString → Timestamp N) (scan scan' : Scan N),
    scanFile limits clock file = .ok scan → scanFile limits clock' ledger.file = .ok scan' →
      scan'.quarantined.Sublist scan.quarantined
  restarts : ∀ clocks : List (JsString → Timestamp N),
    clocks.foldl (fun file clock => (openLedger limits clock file).1.file) ledger.file =
      ledger.file

theorem Rests.reopens (h : Rests spoilt ledger) (clock : JsString → Timestamp N) :
    ∃ ledger', openLedger ledger.limits clock ledger.file = (ledger', .ok ()) ∧
      ledger'.writes = [] ∧ ledger'.file = ledger.file ∧
      ∀ id, (ledger'.byIdentity.get id).map (·.state) =
        (ledger.byIdentity.get id).map (·.state) := by
  obtain ⟨hwhole, hclosed⟩ := h.whole_closed
  obtain ⟨scan, hscan⟩ : ∃ scan : Scan N, scanFile ledger.limits clock ledger.file = .ok scan :=
    scanFile_isOk_iff.mpr h.replayable
  have hidle : ∀ e ∈ (replayed ledger.limits ledger.file scan).byIdentity.values, ¬ Started e := by
    intro e he hstarted
    obtain ⟨item, hitem, rfl⟩ := mem_map.mp he
    have hget := InsertionMap.get_of_mem_entries hitem
    exact hclosed _ _ (replayed_started hscan hwhole hget hstarted) hstarted
  have hofScan : (ofScan ledger.limits ledger.file scan).writes = [] ∧
      (ofScan ledger.limits ledger.file scan).file = ledger.file := by
    rw [ofScan, h.sealed]
    exact ⟨rfl, rfl⟩
  refine ⟨replayed ledger.limits ledger.file scan, ?_, hofScan.1, hofScan.2, fun id => ?_⟩
  · unfold openLedger
    rw [if_neg (not_lt.mpr h.room), hscan]
    simp only
    rw [recover_whole hscan hwhole, (idles_recoverStarted clock).run hidle, foldl_fixed]
  · rcases replayed_cases hscan hwhole id with ⟨e', -, htrack, hget, -⟩ | ⟨hclean, hget⟩
    · rw [hget]
      cases he : ledger.byIdentity.get id with
      | none =>
        rw [h.unknown id he] at htrack
        cases htrack
      | some e =>
        rcases (h.latest id e he).2 with ⟨-, hstate⟩ | ⟨e₁, htold, -⟩
        · rw [Option.map_some, Option.map_some, hstate, uncertainFrom_state]
        · rw [htold] at htrack
          cases htrack
    · rw [hget]
      cases he : ledger.byIdentity.get id with
      | none => rw [h.unknown id he]
      | some e =>
        rcases (h.latest id e he).2 with ⟨htold, -⟩ | ⟨e₁, htold, hstate, -⟩
        · rw [htold] at hclean
          cases hclean
        · rw [htold, Option.map_some, Option.map_some, hstate]

theorem Rests.converges (h : Rests (refusedRows (N := N) [] (rows file)) ledger) :
    Converges ledger.limits file ledger where
  reopens := h.reopens
  quarantined clock clock' scan scan' hscan hscan' := by
    rw [quarantined_scanFile hscan, quarantined_scanFile hscan']
    exact h.refused
  restarts clocks := by
    induction clocks with
    | nil => rfl
    | cons clock clocks ih =>
      obtain ⟨ledger', hopen, -, hfile, -⟩ := h.reopens clock
      rw [foldl_cons, hopen, hfile]
      exact ih

/-! ## The rows a recovery adds -/

/-- A ledger that is recovering from what a replay found, and has added rows to the file
that make what was found uncertain, if it has not rewritten the file. -/
structure Adds (scan : Scan N) (base : List UInt8) (ledger : LifecycleLedger N) : Prop where
  keyed : Keyed ledger.byIdentity
  held : ∀ id e, ledger.byIdentity.get id = some e →
    e.state.final = true ∨ scan.byIdentity.get id = some e
  file : (∃ es, LedgerWrite.snapshot es ∈ ledger.writes) ∨
    ∃ us : List (LifecycleLedgerEntry N), ledger.file = base ++ us.flatMap rowLine ∧
      ∀ u ∈ us, ∀ e, scan.byIdentity.get u.identity = some e →
        ∃ now, u = uncertainFrom e true now

section Adds
variable {scan : Scan N} {base : List UInt8} {u e : LifecycleLedgerEntry N}

section
omit [DecidableEq N]

theorem Adds.set (h : Adds scan base ledger) (hfinal : u.state.final = true) :
    Adds scan base { ledger with byIdentity := ledger.byIdentity.set u.identity u } := by
  refine ⟨h.keyed.set u, fun id e he => ?_, h.file⟩
  simp only [InsertionMap.get_set] at he
  split_ifs at he
  · exact .inl (some.inj he ▸ hfinal)
  · exact h.held id e he

theorem Adds.append (h : Adds scan base ledger) (hfinal : u.state.final = true)
    (hu : ∀ e, scan.byIdentity.get u.identity = some e → ∃ now, u = uncertainFrom e true now) :
    Adds scan base (ledger.append u).1 := by
  have hset := h.set hfinal
  have hmap := append_byIdentity (e := u) (P := fun byIdentity => Keyed byIdentity ∧
    ∀ id e, byIdentity.get id = some e → e.state.final = true ∨ scan.byIdentity.get id = some e)
    ⟨h.keyed, h.held⟩ ⟨hset.keyed, hset.held⟩
  refine ⟨hmap.1, hmap.2, ?_⟩
  rcases append_cases ledger u with ⟨ledger₁, -, hcompact, heq⟩ | ⟨ledger₁, hbefore, heq⟩
  · rw [heq]
    refine .inl ⟨ledger₁.entries, ?_⟩
    rw [(compacted_of_compact hcompact).writes]
    exact mem_append_right _ (mem_singleton_self _)
  · have hfile : (∃ es, LedgerWrite.snapshot es ∈ ledger₁.writes) ∨ ledger₁ = ledger := by
      rcases hbefore with rfl | ⟨-, hcompact⟩
      · exact .inr rfl
      · refine .inl ⟨ledger₁.entries, ?_⟩
        rw [(compacted_of_compact hcompact).writes]
        exact mem_append_right _ (mem_singleton_self _)
    have hrewritten : (∃ es, LedgerWrite.snapshot es ∈ ledger₁.writes) ∨
        ∃ us : List (LifecycleLedgerEntry N), ledger₁.file = base ++ us.flatMap rowLine ∧
          ∀ u ∈ us, ∀ e, scan.byIdentity.get u.identity = some e →
            ∃ now, u = uncertainFrom e true now := by
      rcases hfile with hsnapshot | rfl
      · exact .inl hsnapshot
      · exact h.file
    rcases heq with ⟨err, heq⟩ | ⟨-, -, heq⟩
    · rw [heq]
      exact hrewritten
    · rw [heq]
      refine hrewritten.imp (fun ⟨es, hes⟩ => ⟨es, mem_append_left _ hes⟩) ?_
      rintro ⟨us, hus, hall⟩
      refine ⟨us ++ [u], ?_, forall_mem_append.mpr ⟨hall, forall_mem_singleton.mpr hu⟩⟩
      change ledger₁.file ++ rowLine u = _
      rw [hus, flatMap_append, flatMap_singleton, append_assoc]

/-- Closing a row that recovery holds and that is not final. -/
theorem Adds.close (h : Adds scan base ledger)
    (he : scan.byIdentity.get e.identity = some e) (now : Timestamp N) :
    Adds scan base (ledger.append (uncertainFrom e true now)).1 := by
  refine h.append (uncertainFrom_final e true now) fun e' he' => ?_
  rw [uncertainFrom_identity, he] at he'
  exact ⟨now, by rw [some.inj he']⟩

end

theorem adds_recover (hscan : scanFile limits clock file = .ok scan) :
    Adds scan (ofScan limits file scan).file (recover clock scan (ofScan limits file scan)).1 := by
  have hfollows := follows_scanFile hscan
  have hstart : Adds scan (ofScan limits file scan).file (ofScan limits file scan) := by
    refine ⟨fun id e he => ?_, fun id e he => ?_, .inr ⟨[], ?_, by simp⟩⟩
    · rw [byIdentity_ofScan] at he
      exact hfollows.keyed he
    · rw [byIdentity_ofScan] at he
      exact .inr he
    · rw [flatMap_nil, append_nil]
  refine (recover_run (Q := fun _ => True) (fun ledger h item hitem => ⟨?_, fun _ _ => trivial⟩)
    (fun ledger h id hid => ⟨?_, fun _ _ => trivial⟩)
    (fun ledger h ledger' h' e he => ⟨?_, fun _ _ => trivial⟩) hstart).1
  · obtain ⟨id, u⟩ := item
    have hsynthetic : scan.syntheticUncertain.get id = some u :=
      InsertionMap.get_of_mem_entries hitem
    have hmade : u.identity = id ∧ u.state.final = true ∧
        ∀ e, scan.byIdentity.get id = some e → ∃ now, u = uncertainFrom e true now := by
      rcases hfollows.synthetic id u hsynthetic with ⟨p, hp, rfl⟩ | ⟨hnone, p, -, hid, rfl⟩
      · refine ⟨(uncertainFrom_identity _ _ _).trans (hfollows.keyed hp),
          uncertainFrom_final _ _ _, fun e he => ⟨clock id, ?_⟩⟩
        rw [hp] at he
        rw [some.inj he]
      · refine ⟨(uncertainFrom_identity _ _ _).trans hid, uncertainFrom_final _ _ _, fun e he => ?_⟩
        rw [hnone] at he
        cases he
    obtain ⟨rfl, hfinal, hu⟩ := hmade
    have hset := h.set hfinal
    unfold recoverInvalid
    simp only
    split_ifs
    · rw [Prod.map_fst, id_eq]
      exact hset.append hfinal hu
    · exact hset
  · unfold recoverCorrupted
    cases hget : ledger.byIdentity.get id with
    | none => exact h
    | some e =>
      simp only
      split_ifs with hfinal
      · exact h
      · obtain rfl : e.identity = id := h.keyed _ _ hget
        rw [Prod.map_fst, id_eq]
        exact h.close ((h.held _ _ hget).resolve_left hfinal) _
  · unfold recoverStarted
    split_ifs with hstarted
    · obtain ⟨item, hitem, rfl⟩ := mem_map.mp he
      have hget := InsertionMap.get_of_mem_entries hitem
      have hfound : scan.byIdentity.get item.2.identity = some item.2 := by
        rw [h.keyed _ _ hget]
        refine (h.held _ _ hget).resolve_left fun hfinal => ?_
        have hopen := Started.open hstarted
        rw [hfinal] at hopen
        cases hopen
      rw [Prod.map_fst, id_eq]
      exact h'.close hfound _
    · exact h'

end Adds

/-! ## When one opening is enough -/

/-- What makes one opening settle a file: nothing of an identity that counts was set aside,
what is left open carries right digests, and a line feed fits at the end of a torn file,
unless there is something to close. -/
structure Settles (limits : LifecycleLedgerLimits) (N : Type) [JsNumber N] [DecidableEq N]
    (file : List UInt8) : Prop where
  whole : Whole N file
  closes : ∀ id (e : LifecycleLedgerEntry N), (fileTrack file id).latest = some e → Started e →
    Closable e.asJson
  room : isTorn file = true → file.length < limits.maxBytes ∨ ¬ Closed N file

theorem converges_of_settles (h : Settles limits N file)
    (hopen : openLedger limits clock file = (ledger, .ok ())) : Converges limits file ledger := by
  obtain ⟨hlength, scan, hscan, hrecover⟩ := openLedger_ok hopen
  rw [recover_whole hscan h.whole] at hrecover
  obtain ⟨hrests, hlimits⟩ := (faithful_replayed hscan h.whole).closeAll
    (closing_replayed hscan h.whole h.closes hlength h.room) hrecover
  have hsame : ledger.limits = limits := by
    rw [hlimits]
    change (ofScan limits file scan).limits = limits
    unfold ofScan
    split_ifs <;> rfl
  rw [← hsame]
  exact hrests.converges

/-- A file whose opening writes nothing has nothing left to do. -/
theorem whole_closed_of_silent (hopen : openLedger limits clock file = (ledger, .ok ()))
    (hsilent : ledger.writes = []) : Whole N file ∧ Closed N file := by
  obtain ⟨-, scan, hscan, hrecover⟩ := openLedger_ok hopen
  refine recover_silent hscan hrecover ?_
  rw [hsilent]
  exact Nat.zero_le _

theorem settles_of_converges (hopen : openLedger limits clock file = (ledger, .ok ()))
    (hkept : ∀ es, LedgerWrite.snapshot es ∉ ledger.writes)
    (h : Converges limits file ledger) : Settles limits N file := by
  obtain ⟨hlength, scan, hscan, hrecover⟩ := openLedger_ok hopen
  have hfollows := follows_scanFile hscan
  have hgrounded := grounded_scanFile hscan
  obtain ⟨ledger', hopen', hsilent, -⟩ := h.reopens clock
  obtain ⟨hwhole, hclosed⟩ := whole_closed_of_silent hopen' hsilent
  have hadds := adds_recover hscan
  rw [hrecover] at hadds
  obtain ⟨es, hes⟩ | ⟨us, hus, hall⟩ := hadds.file
  · exact absurd hes (hkept es)
  have hsealed : isTorn (ofScan limits file scan).file = false := by
    unfold ofScan
    split_ifs with htorn
    · exact isTorn_append_LF file
    · exact Bool.not_eq_true _ ▸ htorn
  have hevents : fileEvents (N := N) ledger.file =
      fileEvents file ++ us.map fun u => rowEvent (jsonBytes u.toValue) := by
    rw [fileEvents, hus, rows_append hsealed, rows_flatMap, rows_ofScan, map_append, map_map]
    rfl
  have hwhole' : Whole N file := by
    intro id hspoilt
    have htrack : fileTrack (N := N) ledger.file id = fileTrack file id := by
      rw [fileTrack, hevents, ledgerRules.track_append_of_unclean hspoilt, ← fileTrack]
    rw [← htrack] at hspoilt ⊢
    exact hwhole id hspoilt
  refine ⟨hwhole', fun id e he hstarted => ?_, fun htorn => .inl ?_⟩
  · by_contra hclosable
    have hfound : scan.byIdentity.get id = some e := (hfollows.latest id).trans he
    have hrow := (hgrounded.read e (hgrounded.latest id e hfound)).1
    -- what closes the identity is refused, so it is still open
    refine hclosed id e ?_ hstarted
    rw [fileTrack, hevents, ledgerRules.latest_append_of_refused]
    · exact he
    · intro x hx hid latest
      obtain ⟨u, hu, hevent⟩ := mem_map.mp hx
      obtain rfl := eq_asJson_of_readRow (rowEvent_eq_some.mp hevent)
      have hkey : u.identity = id := hid
      obtain ⟨now, rfl⟩ := hall u hu e (hkey ▸ hfound)
      have hreads := mt (readsBack_uncertainFrom hrow now).mp hclosable
      rw [ReadsBack, not_and, Bool.not_eq_true] at hreads
      simp only [ledgerRules, hreads (hrow.uncertainFrom now).asJson, Bool.false_and]
  · obtain ⟨hfits, -⟩ := openLedger_ok hopen'
    have hlonger : (ofScan limits file scan).file.length = file.length + 1 := by
      rw [ofScan, if_pos htorn]
      simp [sealTornTail, write, LedgerWrite.apply]
    rw [hus, length_append, hlonger] at hfits
    omega

/-- **Recovery converges where one opening settles the file**, and, where opening does not
rewrite it, nowhere else. -/
theorem converges_iff (hopen : openLedger limits clock file = (ledger, .ok ())) :
    (Settles limits N file → Converges limits file ledger) ∧
      ((∀ es, LedgerWrite.snapshot es ∉ ledger.writes) →
        (Converges limits file ledger ↔ Settles limits N file)) :=
  ⟨fun h => converges_of_settles h hopen, fun hkept =>
    ⟨settles_of_converges hopen hkept, fun h => converges_of_settles h hopen⟩⟩

end Reopen

/-- A request whose effect had started when the broker ended. -/
def startedFile : List UInt8 :=
  utf8 (js "\x7b\"version\":1,\"identity\":\"a\"," ++ js "\"requestHash\":\"h\"," ++
    js "\"state\":\"accepted\"," ++ js "\"ts\":1\x7d\n" ++
    js "\x7b\"version\":1,\"identity\":\"a\"," ++ js "\"requestHash\":\"h\"," ++
    js "\"state\":\"effect_started\"," ++ js "\"ts\":2\x7d\n")

theorem converges_iff_started : Converges DEFAULT_LIFECYCLE_LEDGER_LIMITS startedFile
      (openLedger (N := Nat) DEFAULT_LIFECYCLE_LEDGER_LIMITS (fun _ => ⟨7, rfl⟩)
        startedFile).1 := by
  have hcomputed : (openLedger (N := Nat) DEFAULT_LIFECYCLE_LEDGER_LIMITS (fun _ => ⟨7, rfl⟩)
        startedFile).2.toBool = true ∧ isTorn startedFile = false ∧
      (scanFile (N := Nat) DEFAULT_LIFECYCLE_LEDGER_LIMITS (fun _ => ⟨7, rfl⟩)
        startedFile).toOption.any (fun scan => decide (scan.invalidIdentities = [] ∧
          scan.uncertainAfterCorruption = [] ∧
          ∀ e ∈ scan.byIdentity.values, hasValidResponseDigest .terminalUncertain
            e.asJson.fields = true ∧ hasValidEffectsDigest e.asJson.fields = true)) = true := by
    decide +kernel
  obtain ⟨hresult, hsealed, hfound⟩ := hcomputed
  have hopen := outcome_eq_ok hresult
  obtain ⟨-, scan, hscan, -⟩ := openLedger_ok hopen
  have hfollows := follows_scanFile hscan
  rw [hscan] at hfound
  obtain ⟨hvalid, hkept, hdigests⟩ := of_decide_eq_true hfound
  refine (converges_iff hopen).1 ⟨fun id hspoilt => ?_, fun id e he _ => ?_, fun htorn => ?_⟩
  · have hnot := (hfollows.unclean id).mp hspoilt
    rw [hvalid, hkept] at hnot
    simp at hnot
  · have hget : scan.byIdentity.get id = some e := (hfollows.latest id).trans he
    exact hdigests e (mem_map_of_mem (f := Prod.snd) (InsertionMap.mem_entries_iff.mpr hget))
  · rw [hsealed] at htorn
    cases htorn

/-- A request that was accepted, and a line that is no entry. -/
def corruptedFile : List UInt8 :=
  utf8 (js "\x7b\"version\":1,\"identity\":\"a\"," ++ js "\"requestHash\":\"h\"," ++
    js "\"state\":\"accepted\"," ++ js "\"ts\":1\x7d\n" ++ js "x\n")

/-- The row that recovery appends is set aside by the next recovery, which appends it
again. -/
theorem reopening_grows : ¬ ∀ (limits : LifecycleLedgerLimits) (clock : JsString → Timestamp Nat)
    (file : List UInt8) (ledger : LifecycleLedger Nat),
    openLedger limits clock file = (ledger, .ok ()) → Converges limits file ledger := by
  have hcomputed : (openLedger (N := Nat) DEFAULT_LIFECYCLE_LEDGER_LIMITS (fun _ => ⟨7, rfl⟩)
        corruptedFile).2.toBool = true ∧
      (openLedger (N := Nat) DEFAULT_LIFECYCLE_LEDGER_LIMITS (fun _ => ⟨7, rfl⟩)
        (openLedger (N := Nat) DEFAULT_LIFECYCLE_LEDGER_LIMITS (fun _ => ⟨7, rfl⟩)
          corruptedFile).1.file).1.file ≠
      (openLedger (N := Nat) DEFAULT_LIFECYCLE_LEDGER_LIMITS (fun _ => ⟨7, rfl⟩)
        corruptedFile).1.file := by
    decide +kernel
  obtain ⟨hresult, hgrows⟩ := hcomputed
  intro h
  exact hgrows ((h _ _ _ _ (outcome_eq_ok hresult)).restarts [fun _ => ⟨7, rfl⟩])

end LifecycleLedger
end GajaeCode
