import GajaeCode.LedgerSound
import GajaeCode.TerminalProof

/-! # Recovery that writes what it reads

Each loop of recovery appends a row where something is to be closed and is idle elsewhere.
Where nothing of an identity that counts was set aside (`Whole`), only the third loop has
anything to do; and if the rows it appends read back, the ledger it ends with is what a
reader of its file finds (`Faithful`), also where the file was rewritten on the way.
-/
namespace GajaeCode
open JsString JsValue JsonParse List

namespace LifecycleLedger
variable {N : Type}

/-- A loop's body: where it is idle, what passing an item does; where it is not, it writes. -/
structure Idles {α : Type} (body : LifecycleLedger N → α → Outcome N Unit)
    (pass : LifecycleLedger N → α → LifecycleLedger N)
    (idle : LifecycleLedger N → α → Prop) : Prop where
  passes : ∀ ledger item, idle ledger item → body ledger item = (pass ledger item, .ok ())
  busy : ∀ ledger item ledger', ¬ idle ledger item → body ledger item = (ledger', .ok ()) →
    ledger.writes.length < ledger'.writes.length
  grows : ∀ ledger item, ledger.writes.length ≤ (body ledger item).1.writes.length
  keeps : ∀ ledger item item', idle (pass ledger item) item' ↔ idle ledger item'

section Loops
variable {α : Type} {body : LifecycleLedger N → α → Outcome N Unit}
  {pass : LifecycleLedger N → α → LifecycleLedger N} {idle : LifecycleLedger N → α → Prop}
variable {items : List α}

theorem forEach_ok {ledger ledger' : LifecycleLedger N} {item : α}
    (h : forEach body ledger (item :: items) = (ledger', .ok ())) :
    ∃ ledger₁, body ledger item = (ledger₁, .ok ()) ∧
      forEach body ledger₁ items = (ledger', .ok ()) := by
  rw [forEach] at h
  cases hbody : body ledger item with
  | mk ledger₁ result =>
    rw [hbody] at h
    cases result with
    | error err => cases h
    | ok => exact ⟨ledger₁, rfl, h⟩

theorem Idles.run (h : Idles body pass idle) {ledger : LifecycleLedger N}
    (hidle : ∀ item ∈ items, idle ledger item) :
    forEach body ledger items = (items.foldl pass ledger, .ok ()) := by
  induction items generalizing ledger with
  | nil => rfl
  | cons item items ih =>
    obtain ⟨hitem, hitems⟩ := forall_mem_cons.mp hidle
    rw [forEach, h.passes _ _ hitem]
    exact ih fun item' hmem => (h.keeps _ _ _).mpr (hitems item' hmem)

theorem Idles.length_le (h : Idles body pass idle) (ledger : LifecycleLedger N)
    (items : List α) : ledger.writes.length ≤ (forEach body ledger items).1.writes.length :=
  (forEach_run (P := fun ledger' => ledger.writes.length ≤ ledger'.writes.length)
    (Q := fun _ => True)
    (fun ledger' hle item _ => ⟨hle.trans (h.grows ledger' item), fun _ _ => trivial⟩) le_rfl).1

/-- **A loop that has written nothing was idle at every item.** -/
theorem Idles.of_silent (h : Idles body pass idle) {ledger ledger' : LifecycleLedger N}
    (hrun : forEach body ledger items = (ledger', .ok ()))
    (hsilent : ledger'.writes.length ≤ ledger.writes.length) :
    ∀ item ∈ items, idle ledger item := by
  induction items generalizing ledger with
  | nil => simp
  | cons item items ih =>
    obtain ⟨ledger₁, hbody, hrest⟩ := forEach_ok hrun
    have hlater := h.length_le ledger₁ items
    rw [hrest] at hlater
    have hitem : idle ledger item := by
      by_contra hbusy
      have hlonger := h.busy _ _ _ hbusy hbody
      exact absurd (hlonger.trans_le hlater) (not_lt.mpr hsilent)
    rw [h.passes _ _ hitem] at hbody
    obtain rfl := (Prod.mk.inj hbody).1
    have hfirst := h.grows ledger item
    rw [h.passes _ _ hitem] at hfirst
    refine forall_mem_cons.mpr ⟨hitem, fun item' hmem => ?_⟩
    exact (h.keeps ledger item item').mp (ih hrest (hsilent.trans hfirst) item' hmem)

end Loops

variable [JsNumber N]

/-! ## Idle recovery -/

theorem length_writes_append (ledger : LifecycleLedger N) (e : LifecycleLedgerEntry N) :
    ledger.writes.length ≤ (ledger.append e).1.writes.length ∧ ((ledger.append e).2.toBool = true →
        ledger.writes.length < (ledger.append e).1.writes.length) := by
  rcases append_cases ledger e with ⟨ledger', -, hcompact, heq⟩ | ⟨ledger', hbefore, heq⟩
  · obtain ⟨snapshot, -, -, -, -, rfl⟩ := compact_eq_ok hcompact
    rw [heq]
    simp [replaced, write]
  · have hle : ledger.writes.length ≤ ledger'.writes.length := by
      rcases hbefore with rfl | ⟨-, hcompact⟩
      · exact le_rfl
      · obtain ⟨snapshot, -, -, -, -, rfl⟩ := compact_eq_ok hcompact
        simp [replaced, write]
    rcases heq with ⟨err, heq⟩ | ⟨-, -, heq⟩
    · rw [heq]
      exact ⟨hle, fun h => absurd h Bool.false_ne_true⟩
    · rw [heq]
      have hpush : (ledger'.push e).writes.length = ledger'.writes.length + 1 := by
        simp [push, write]
      rw [hpush]
      exact ⟨by omega, fun _ => by omega⟩

theorem busy_of_append {ledger ledger₁ ledger' : LifecycleLedger N}
    {e : LifecycleLedgerEntry N} (hwrites : ledger₁.writes = ledger.writes)
    (h : ((ledger₁.append e).map id (fun result => result.map fun _ => ()) : Outcome N Unit) =
      (ledger', .ok ())) : ledger.writes.length < ledger'.writes.length := by
  obtain ⟨-, hlonger⟩ := length_writes_append ledger₁ e
  generalize ledger₁.append e = out at h hlonger
  obtain ⟨ledger₂, result⟩ := out
  cases result with
  | error err => cases h
  | ok b =>
    obtain rfl := (Prod.mk.inj h).1
    exact hwrites ▸ hlonger rfl

theorem idles_recoverInvalid : Idles (recoverInvalid (N := N))
    (fun ledger item => { ledger with byIdentity := ledger.byIdentity.set item.1 item.2 })
    (fun ledger item => ¬ ledger.entries.any
      (fun entry => entry.identity == item.1 && entry.state == .accepted) = true) where
  passes ledger item h := if_neg h
  busy ledger item ledger' h hbody := by
    rw [not_not] at h
    unfold recoverInvalid at hbody
    simp only at hbody
    rw [if_pos h] at hbody
    generalize hset : { ledger with byIdentity := ledger.byIdentity.set item.1 item.2 } =
      ledger₁ at hbody
    exact busy_of_append (hset ▸ rfl) hbody
  grows ledger item := by
    have happend := length_writes_append
      { ledger with byIdentity := ledger.byIdentity.set item.1 item.2 } item.2
    unfold recoverInvalid
    simp only
    split_ifs
    · rw [Prod.map_fst, id_eq]
      exact happend.1
    · exact le_rfl
  keeps _ _ _ := Iff.rfl

theorem idles_recoverCorrupted (clock : JsString → Timestamp N) :
    Idles (recoverCorrupted clock) (fun ledger _ => ledger)
      (fun ledger id => ∀ e, ledger.byIdentity.get id = some e → e.state.final = true) where
  passes ledger id h := by
    unfold recoverCorrupted
    cases hget : ledger.byIdentity.get id with
    | none => rfl
    | some e => exact if_pos (h e hget)
  busy ledger id ledger' h hbody := by
    simp only [not_forall] at h
    obtain ⟨e, hget, hopen⟩ := h
    rw [recoverCorrupted, hget] at hbody
    simp only at hbody
    rw [if_neg hopen] at hbody
    exact busy_of_append rfl hbody
  grows ledger id := by
    unfold recoverCorrupted
    cases hget : ledger.byIdentity.get id with
    | none => exact le_rfl
    | some e =>
      simp only
      split_ifs
      · exact le_rfl
      · rw [Prod.map_fst, id_eq]
        exact (length_writes_append _ _).1
  keeps _ _ _ := Iff.rfl

theorem idles_recoverStarted (clock : JsString → Timestamp N) :
    Idles (recoverStarted clock) (fun ledger _ => ledger) (fun _ e => ¬ Started e) where
  passes ledger e h := if_neg h
  busy ledger e ledger' h hbody := by
    rw [not_not] at h
    unfold recoverStarted at hbody
    split_ifs at hbody with hstarted
    · exact busy_of_append rfl hbody
    · exact absurd h hstarted
  grows ledger e := by
    unfold recoverStarted
    split_ifs
    · rw [Prod.map_fst, id_eq]
      exact (length_writes_append _ _).1
    · exact le_rfl
  keeps _ _ _ := Iff.rfl

theorem recover_ok {clock : JsString → Timestamp N} {scan : Scan N}
    {ledger ledger' : LifecycleLedger N} (h : recover clock scan ledger = (ledger', .ok ())) :
    ∃ ledger₁ ledger₂,
      forEach recoverInvalid ledger scan.syntheticUncertain.entries = (ledger₁, .ok ()) ∧
      forEach (recoverCorrupted clock) ledger₁ scan.uncertainAfterCorruption = (ledger₂, .ok ()) ∧
      forEach (recoverStarted clock) ledger₂ ledger₂.byIdentity.values = (ledger', .ok ()) := by
  unfold recover at h
  generalize forEach recoverInvalid ledger scan.syntheticUncertain.entries = first at h
  obtain ⟨ledger₁, result₁⟩ := first
  cases result₁ with
  | error err => cases h
  | ok =>
    simp only at h
    generalize hsecond : forEach (recoverCorrupted clock) ledger₁
      scan.uncertainAfterCorruption = second at h
    obtain ⟨ledger₂, result₂⟩ := second
    cases result₂ with
    | error err => cases h
    | ok => exact ⟨ledger₁, ledger₂, rfl, hsecond, h⟩

/-! ## Files that leave nothing to do -/

omit [JsNumber N] in
theorem foldl_setByIdentity (ledger : LifecycleLedger N)
    (items : List (JsString × LifecycleLedgerEntry N)) : items.foldl (fun ledger item =>
      { ledger with byIdentity := ledger.byIdentity.set item.1 item.2 }) ledger =
    { ledger with
      byIdentity := items.foldl (fun m item => m.set item.1 item.2) ledger.byIdentity } := by
  induction items generalizing ledger with
  | nil => rfl
  | cons item items ih => rw [foldl_cons, ih, foldl_cons]

/-- The ledger as the replay leaves it, with the identities it gave up in memory. -/
def replayed (limits : LifecycleLedgerLimits) (file : List UInt8) (scan : Scan N) :
    LifecycleLedger N :=
  { ofScan limits file scan with
    byIdentity := scan.byIdentity.union scan.syntheticUncertain }

omit [JsNumber N] in
/-- An identity has an accepted row in the replay exactly where it has any. -/
theorem any_accepted_iff {entries : List (LifecycleLedgerEntry N)}
    {byIdentity : InsertionMap JsString (LifecycleLedgerEntry N)}
    (hanchored : Anchored entries byIdentity)
    (hknown : ∀ a ∈ entries, (byIdentity.get a.identity).isSome = true) (id : JsString) :
    entries.any (fun entry => entry.identity == id && entry.state == .accepted) = true ↔
      (byIdentity.get id).isSome = true := by
  constructor
  · intro h
    obtain ⟨a, ha, hid⟩ := any_eq_true.mp h
    rw [Bool.and_eq_true, beq_iff_eq] at hid
    exact hid.1 ▸ hknown a ha
  · intro h
    obtain ⟨e, he⟩ := Option.isSome_iff_exists.mp h
    obtain ⟨-, a, ha, -⟩ := hanchored id e he
    obtain ⟨hmem, hid, hstate⟩ := anchorOf_eq_some ha
    refine any_eq_true.mpr ⟨a, hmem, ?_⟩
    rw [hid, hstate, beq_self_eq_true, beq_self_eq_true, Bool.and_self]

variable [DecidableEq N]

/-- Nothing was set aside of an identity that has a row that counts, and none was lost of
one that was not finished. -/
def Whole (N : Type) [JsNumber N] [DecidableEq N] (file : List UInt8) : Prop :=
  ∀ id, (fileTrack (N := N) file id).unclean = true → (fileTrack (N := N) file id).latest = none

/-- No identity is left open. -/
def Closed (N : Type) [JsNumber N] [DecidableEq N] (file : List UInt8) : Prop :=
  ∀ id (e : LifecycleLedgerEntry N), (fileTrack file id).latest = some e → ¬ Started e

section Replay
variable {limits : LifecycleLedgerLimits} {clock : JsString → Timestamp N} {file : List UInt8}
  {scan : Scan N}

section
variable (hscan : scanFile limits clock file = .ok scan)
include hscan

theorem any_accepted_ofScan (id : JsString) : (ofScan limits file scan).entries.any
      (fun entry => entry.identity == id && entry.state == .accepted) = true ↔
      (fileTrack (N := N) file id).latest.isSome = true := by
  have hgrounded := grounded_scanFile hscan
  rw [fileTrack, ← (follows_scanFile hscan).latest id,
    ← any_accepted_iff hgrounded.anchored hgrounded.known]
  unfold ofScan
  split_ifs <;> rfl

/-- **Of a whole file, recovery closes what is left open and does nothing else.** -/
theorem recover_whole (hwhole : Whole N file) :
    recover clock scan (ofScan limits file scan) = forEach (recoverStarted clock)
      (replayed limits file scan) (replayed limits file scan).byIdentity.values := by
  have hfollows := follows_scanFile hscan
  have hinvalid : ∀ item ∈ scan.syntheticUncertain.entries, ¬ (ofScan limits file scan).entries.any
        (fun entry => entry.identity == item.1 && entry.state == .accepted) = true := by
    intro item hitem haccepted
    rw [any_accepted_ofScan hscan] at haccepted
    have hsome := Option.isSome_of_eq_some (InsertionMap.get_of_mem_entries hitem)
    have hspoilt := (hfollows.unclean item.1).mpr (.inl ((hfollows.synthetic_isSome _).mp hsome))
    rw [hwhole item.1 hspoilt] at haccepted
    cases haccepted
  have hcorrupted : scan.uncertainAfterCorruption = [] := by
    refine eq_nil_iff_forall_not_mem.mpr fun id hid => ?_
    obtain ⟨e, he, -⟩ := hfollows.unfinished id hid
    have hnone := hwhole id ((hfollows.unclean id).mpr (.inr hid))
    rw [fileTrack, ← hfollows.latest id, he] at hnone
    cases hnone
  have hmap : scan.syntheticUncertain.entries.foldl (fun ledger item =>
      { ledger with byIdentity := ledger.byIdentity.set item.1 item.2 })
      (ofScan limits file scan) = replayed limits file scan := by
    rw [foldl_setByIdentity, byIdentity_ofScan]
    rfl
  unfold recover
  rw [idles_recoverInvalid.run hinvalid, hmap, hcorrupted]
  rfl

/-- **A recovery that writes nothing began from a whole file with nothing left open.** -/
theorem recover_silent {ledger' : LifecycleLedger N}
    (hrun : recover clock scan (ofScan limits file scan) = (ledger', .ok ()))
    (hsilent : ledger'.writes.length ≤ (ofScan limits file scan).writes.length) :
    Whole N file ∧ Closed N file := by
  have hfollows := follows_scanFile hscan
  obtain ⟨ledger₁, ledger₂, hfirst, hsecond, hrun⟩ := recover_ok hrun
  have hle₁ := idles_recoverInvalid.length_le (ofScan limits file scan)
    scan.syntheticUncertain.entries
  have hle₂ := (idles_recoverCorrupted clock).length_le ledger₁ scan.uncertainAfterCorruption
  have hle₃ := (idles_recoverStarted clock).length_le ledger₂ ledger₂.byIdentity.values
  rw [hfirst] at hle₁
  rw [hsecond] at hle₂
  rw [hrun] at hle₃
  simp only at hle₁ hle₂ hle₃
  -- the three loops were idle at every item
  have hidle₁ := idles_recoverInvalid.of_silent hfirst (by omega)
  have hidle₂ := (idles_recoverCorrupted clock).of_silent hsecond (by omega)
  have hidle₃ := (idles_recoverStarted clock).of_silent hrun (by omega)
  rw [idles_recoverInvalid.run hidle₁, foldl_setByIdentity, byIdentity_ofScan] at hfirst
  obtain rfl := (Prod.mk.inj hfirst).1
  rw [(idles_recoverCorrupted clock).run hidle₂, foldl_fixed] at hsecond
  obtain rfl := (Prod.mk.inj hsecond).1
  have hget : ∀ id e, (fileTrack (N := N) file id).latest = some e → id ∉ scan.invalidIdentities ∧
        (scan.byIdentity.union scan.syntheticUncertain).get id = some e := by
    intro id e he
    have hvalid : id ∉ scan.invalidIdentities := by
      intro hinvalid
      obtain ⟨u, hu⟩ := Option.isSome_iff_exists.mp ((hfollows.synthetic_isSome id).mpr hinvalid)
      refine hidle₁ (id, u) (InsertionMap.mem_entries_iff.mpr hu) ?_
      rw [any_accepted_ofScan hscan, he]
      rfl
    refine ⟨hvalid, ?_⟩
    have hnone : scan.syntheticUncertain.get id = none := by
      rw [← Option.not_isSome_iff_eq_none, hfollows.synthetic_isSome]
      exact hvalid
    rw [InsertionMap.get_union, hnone, Option.none_or, hfollows.latest]
    exact he
  constructor
  · intro id hspoilt
    by_contra hsome
    obtain ⟨e, he⟩ := Option.ne_none_iff_exists'.mp hsome
    obtain ⟨hvalid, hmap⟩ := hget id e he
    have hlost := ((hfollows.unclean id).mp hspoilt).resolve_left hvalid
    obtain ⟨e', he', hopen⟩ := hfollows.unfinished id hlost
    obtain rfl : e = e' := some.inj (he.symm.trans ((hfollows.latest id).symm.trans he'))
    rw [hidle₂ id hlost e hmap] at hopen
    cases hopen
  · intro id e he
    obtain ⟨-, hmap⟩ := hget id e he
    exact hidle₃ e (mem_map_of_mem (f := Prod.snd) (InsertionMap.mem_entries_iff.mpr hmap))

end

end Replay

/-! ## Ledgers that are what their file says -/

/-- What a reader knows of an identity tells its latest row, as far as recovery goes. -/
def Tells (t : Track (LifecycleLedgerEntry N)) (e : LifecycleLedgerEntry N) : Prop :=
  (t = ⟨none, true⟩ ∧ e.state = .terminalUncertain) ∨
    ∃ e', t = ⟨some e', false⟩ ∧ e'.state = e.state ∧ e'.requestHash = e.requestHash ∧
      (Started e' ↔ Started e)

/-- A reader of the file finds what the ledger holds, and sets nothing aside but
`spoilt`. -/
structure Faithful (spoilt : List (List UInt8)) (ledger : LifecycleLedger N) : Prop where
  sealed : isTorn ledger.file = false
  replayable : Replayable ledger.limits N (rows ledger.file)
  rowCount : ledger.rowCount = (rows ledger.file).length
  byteCount : ledger.byteCount = ledger.file.length
  keyed : Keyed ledger.byIdentity
  reads : ∀ e ∈ ledger.entries, ReadsBack e
  latest : ∀ id e, ledger.byIdentity.get id = some e →
    ReadsBack e ∧ Tells (fileTrack ledger.file id) e
  unknown : ∀ id, ledger.byIdentity.get id = none →
    fileTrack (N := N) ledger.file id = ⟨none, false⟩
  refused : (refusedRows (N := N) [] (rows ledger.file)).Sublist spoilt

theorem fileTrack_append_row {file : List UInt8} (hsealed : isTorn file = false)
    {u : LifecycleLedgerEntry N} (hu : IsRow u.asJson) (id : JsString) :
    fileTrack (N := N) (file ++ rowLine u) id =
      ledgerRules.step id (fileTrack file id) (some u.asJson) := by
  rw [fileTrack, fileEvents, rows_append hsealed, rows_rowLine, map_append,
    map_singleton, rowEvent_row hu, LogRules.track_append_singleton]
  rfl

section Faithful
variable {spoilt : List (List UInt8)} {ledger ledger' : LifecycleLedger N}
  {p u : LifecycleLedgerEntry N}

theorem Tells.accepts {t : Track (LifecycleLedgerEntry N)} (h : Tells t p) (hp : Started p)
    (hhash : u.requestHash = p.requestHash) (hfinal : u.state.final = true) (hu : ReadsBack u) :
    t.unclean = false ∧ ledgerRules.accepts t.latest u.asJson = true := by
  rcases h with ⟨-, hstate⟩ | ⟨e', rfl, -, hash, hstarted⟩
  · have hopen := hp.open
    rw [hstate] at hopen
    cases hopen
  · refine ⟨rfl, ?_⟩
    have hopen := (hstarted.mpr hp).open
    simp only [ledgerRules, hu.2, Bool.true_and, isValidHistoryContinuation,
      LifecycleLedgerEntry.asJson_requestHash, LifecycleLedgerEntry.asJson_state, hash, hhash,
      hopen, hfinal]
    simp

section
variable (h : Faithful spoilt ledger)
include h

theorem Faithful.push (hp : ledger.byIdentity.get u.identity = some p) (hstarted : Started p)
    (hhash : u.requestHash = p.requestHash) (hfinal : u.state.final = true) (hu : ReadsBack u)
    (hshort : (jsonBytes u.toValue).length ≤ ledger.limits.maxLineBytes)
    (hroom : ¬ ledger.exceeds (rowLine u)) : Faithful spoilt (ledger.push u) := by
  rw [exceeds, not_or, not_lt, not_lt] at hroom
  obtain ⟨hrows, hbytes⟩ := hroom
  obtain ⟨hclean, haccepts⟩ := (h.latest _ p hp).2.accepts hstarted hhash hfinal hu
  have hlines : rows (ledger.file ++ rowLine u) = rows ledger.file ++ [jsonBytes u.toValue] := by
    rw [rows_append h.sealed, rows_rowLine]
  have hother : ∀ id, u.identity ≠ id →
      fileTrack (N := N) (ledger.file ++ rowLine u) id = fileTrack ledger.file id := by
    intro id hid
    rw [fileTrack_append_row h.sealed hu.1]
    exact ledgerRules.step_other (e := u.asJson) hid _
  have hown : fileTrack (N := N) (ledger.file ++ rowLine u) u.identity =
      ⟨some u.asJson, false⟩ := by
    rw [fileTrack_append_row h.sealed hu.1]
    exact ledgerRules.step_accept hclean haccepts
  refine ⟨isTorn_append h.sealed (isTorn_rowLine u), ?_, ?_, ?_, h.keyed.set u, ?_, ?_, ?_, ?_⟩
  · change Replayable ledger.limits N (rows (ledger.file ++ rowLine u))
    rw [hlines]
    refine ⟨?_, forall_mem_append.mpr ⟨h.replayable.short, ?_⟩,
      forall_mem_append.mpr ⟨h.replayable.supported, ?_⟩⟩
    · rw [length_append, ← h.rowCount]
      exact hrows
    · simpa using hshort
    · simp [readRow_row hu.1]
  · change ledger.rowCount + 1 = (rows (ledger.file ++ rowLine u)).length
    rw [hlines, length_append, ← h.rowCount]
    rfl
  · change ledger.byteCount + (rowLine u).length = (ledger.file ++ rowLine u).length
    rw [length_append, ← h.byteCount]
  · exact forall_mem_append.mpr ⟨h.reads, forall_mem_singleton.mpr hu⟩
  · intro id e he
    change (ledger.byIdentity.set u.identity u).get id = some e at he
    change ReadsBack e ∧ Tells (fileTrack (ledger.file ++ rowLine u) id) e
    rw [InsertionMap.get_set] at he
    split_ifs at he with hid
    · obtain rfl := some.inj he
      rw [hid, hown]
      exact ⟨hu, .inr ⟨u.asJson, rfl, rfl, rfl, started_asJson⟩⟩
    · rw [hother id (Ne.symm hid)]
      exact h.latest id e he
  · intro id he
    change (ledger.byIdentity.set u.identity u).get id = none at he
    change fileTrack (N := N) (ledger.file ++ rowLine u) id = _
    rw [InsertionMap.get_set] at he
    split_ifs at he with hid
    rw [hother id (Ne.symm hid)]
    exact h.unknown id he
  · change (refusedRows (N := N) [] (rows (ledger.file ++ rowLine u))).Sublist spoilt
    have hkept : refuses ([] ++ (rows ledger.file).map (rowEvent (N := N)))
        (jsonBytes u.toValue) = false := by
      rw [refuses, rowEvent_row hu.1]
      simp only [Bool.or_eq_false_iff, Bool.not_eq_false']
      exact ⟨hclean, haccepts⟩
    rw [hlines, refusedRows_append, refusedRows, hkept, refusedRows]
    simpa using h.refused

theorem Faithful.compact (hu : ReadsBack u) (hcompacted : Compacted ledger (some u) ledger') :
    Faithful spoilt ledger' := by
  have hkeyed : Keyed (ledger.compacted (some u)) := h.keyed.set u
  have hlatest : ∀ id e, (ledger.compacted (some u)).get id = some e → ReadsBack e := by
    intro id e he
    rw [compacted, InsertionMap.get_set] at he
    split_ifs at he
    · exact some.inj he ▸ hu
    · exact (h.latest id e he).1
  have hreads : ∀ e ∈ ledger'.entries, ReadsBack e := by
    intro e he
    rcases hcompacted.mem_entries he with he | ⟨id, he⟩
    · exact h.reads e he
    · exact hlatest id e he
  refine ⟨?_, ?_, ?_, hcompacted.byteCount, hcompacted.byIdentity ▸ hkeyed, hreads, ?_, ?_, ?_⟩
  · rw [hcompacted.file]
    exact isTorn_flatMap _
  · rw [hcompacted.limits]
    exact hcompacted.replayable hreads
  · rw [hcompacted.rowCount, hcompacted.file, rows_flatMap, length_map]
  · intro id e he
    rw [hcompacted.byIdentity] at he
    obtain ⟨a, ha, htrack⟩ := hcompacted.track_some hkeyed hreads he
    obtain ⟨-, -, hstate, hhash⟩ := of_get_anchors ha
    rw [he, Option.map_some, Option.some.injEq] at hhash
    refine ⟨hlatest id e he, .inr ⟨_, htrack, ?_⟩⟩
    split_ifs with haccepted
    · refine ⟨hstate.trans haccepted.symm, hhash, ?_⟩
      rw [started_asJson, Started, Started, hstate, haccepted]
      simp
    · exact ⟨rfl, rfl, started_asJson⟩
  · intro id he
    rw [hcompacted.byIdentity] at he
    exact hcompacted.track_none hkeyed hreads he
  · rw [hcompacted.refusedRows_file hkeyed hreads]
    exact nil_sublist _

/-- **Closing what was left open keeps a ledger what its file says.** -/
theorem Faithful.close {now : Timestamp N} (hp : ledger.byIdentity.get p.identity = some p)
    (hstarted : Started p) (hreads : ReadsBack (uncertainFrom p true now))
    {b : LifecycleLedgerEntry N}
    (happend : ledger.append (uncertainFrom p true now) = (ledger', .ok b)) :
    Faithful spoilt ledger' ∧ ledger'.limits = ledger.limits ∧
      ledger'.byIdentity = ledger.byIdentity.set p.identity (uncertainFrom p true now) ∧
      ledger'.file.length ≤ ledger.limits.maxBytes := by
  have hid := uncertainFrom_identity p true now
  have hhash := uncertainFrom_requestHash p true now
  have hfinal := uncertainFrom_final p true now
  generalize uncertainFrom p true now = u at *
  rw [← hid] at hp ⊢
  rcases append_cases ledger u with ⟨ledger₁, -, hcompact, heq⟩ | ⟨ledger₁, hbefore, heq⟩
  · rw [heq] at happend
    obtain rfl := (Prod.mk.inj happend).1
    have hcompacted := compacted_of_compact hcompact
    refine ⟨h.compact hreads hcompacted, hcompacted.limits, hcompacted.byIdentity, ?_⟩
    exact hcompacted.byteCount ▸ hcompacted.bytesFit
  · obtain rfl : ledger₁ = ledger := by
      rcases hbefore with heq | ⟨hnew, -⟩
      · exact heq
      · rw [hp] at hnew
        cases hnew
    rcases heq with ⟨err, heq⟩ | ⟨hshort, hroom, heq⟩
    · rw [heq] at happend
      cases happend
    · rw [heq] at happend
      obtain rfl := (Prod.mk.inj happend).1
      refine ⟨h.push hp hstarted hhash hfinal hreads hshort hroom, rfl, rfl, ?_⟩
      rw [exceeds, not_or, not_lt, not_lt, h.byteCount] at hroom
      change (ledger₁.file ++ rowLine u).length ≤ _
      rw [length_append]
      exact hroom.2

end

/-- What the third loop of recovery has still to do. -/
structure Closing (items : List (LifecycleLedgerEntry N)) (ledger : LifecycleLedger N) :
    Prop where
  nodup : (items.map (·.identity)).Nodup
  held : ∀ p ∈ items, Started p → ledger.byIdentity.get p.identity = some p
  reads : ∀ p ∈ items, Started p → ∀ now, ReadsBack (uncertainFrom p true now)
  left : ∀ id e, ledger.byIdentity.get id = some e → Started e → e ∈ items
  /-- the file is within its limit, or will be compacted or refuse a row -/
  room : ledger.file.length ≤ ledger.limits.maxBytes ∨ ∃ p ∈ items, Started p

/-- A ledger that recovery is done with. -/
structure Rests (spoilt : List (List UInt8)) (ledger : LifecycleLedger N) : Prop
    extends Faithful spoilt ledger where
  closed : ∀ id e, ledger.byIdentity.get id = some e → ¬ Started e
  room : ledger.file.length ≤ ledger.limits.maxBytes

theorem Faithful.closeAll {clock : JsString → Timestamp N} {items : List (LifecycleLedgerEntry N)}
    (h : Faithful spoilt ledger) (hclosing : Closing items ledger)
    (hrun : forEach (recoverStarted clock) ledger items = (ledger', .ok ())) :
    Rests spoilt ledger' ∧ ledger'.limits = ledger.limits := by
  induction items generalizing ledger with
  | nil =>
    obtain rfl := (Prod.mk.inj hrun).1
    refine ⟨⟨h, fun id e he hstarted => ?_, ?_⟩, rfl⟩
    · exact absurd (hclosing.left id e he hstarted) not_mem_nil
    · simpa using hclosing.room
  | cons p items ih =>
    obtain ⟨ledger₁, hstep, hrest⟩ := forEach_ok hrun
    obtain ⟨hnew, hnodup⟩ := nodup_cons.mp hclosing.nodup
    obtain ⟨hheld, hhelds⟩ := forall_mem_cons.mp hclosing.held
    obtain ⟨hread, hreads⟩ := forall_mem_cons.mp hclosing.reads
    unfold recoverStarted at hstep
    split_ifs at hstep with hstarted
    · generalize happend : ledger.append (uncertainFrom p true (clock p.identity)) = out at hstep
      obtain ⟨ledger₂, result⟩ := out
      cases result with
      | error err => cases hstep
      | ok b =>
        obtain rfl := (Prod.mk.inj hstep).1
        obtain ⟨hfaithful, hlimits, hmap, hroom⟩ :=
          h.close (hheld hstarted) hstarted (hread hstarted _) happend
        have hstate := uncertainFrom_final p true (clock p.identity)
        suffices hclosing' : Closing items ledger₂ by
          obtain ⟨hrests, hlimits'⟩ := ih hfaithful hclosing' hrest
          exact ⟨hrests, hlimits'.trans hlimits⟩
        refine ⟨hnodup, fun q hq hopen => ?_, hreads, fun id e he hopen => ?_,
          .inl (hlimits ▸ hroom)⟩
        · have hne : q.identity ≠ p.identity := fun heq =>
            hnew (mem_map.mpr ⟨q, hq, heq⟩)
          rw [hmap, InsertionMap.get_set, if_neg hne]
          exact hhelds q hq hopen
        · rw [hmap, InsertionMap.get_set] at he
          split_ifs at he with hid
          · rw [← some.inj he] at hopen
            rw [hopen.open] at hstate
            cases hstate
          · refine (mem_cons.mp (hclosing.left id e he hopen)).resolve_left ?_
            rintro rfl
            exact hid (h.keyed id e he).symm
    · obtain rfl := (Prod.mk.inj hstep).1
      refine ih h ⟨hnodup, hhelds, hreads, fun id e he hopen => ?_, ?_⟩ hrest
      · refine (mem_cons.mp (hclosing.left id e he hopen)).resolve_left ?_
        rintro rfl
        exact hstarted hopen
      · refine hclosing.room.imp_right ?_
        rintro ⟨q, hq, hopen⟩
        exact ⟨q, (mem_cons.mp hq).resolve_left (fun heq => hstarted (heq ▸ hopen)), hopen⟩

end Faithful

/-! ## The ledger after a replay -/

section Replay
variable {limits : LifecycleLedgerLimits} {clock : JsString → Timestamp N} {file : List UInt8}
  {scan : Scan N}

/-- An identity of which nothing was set aside or lost. -/
theorem get_replayed_clean (hscan : scanFile limits clock file = .ok scan) {id : JsString}
    (hclean : (fileTrack (N := N) file id).unclean = false) :
    (replayed limits file scan).byIdentity.get id = (fileTrack file id).latest := by
  have hfollows := follows_scanFile hscan
  have hnone : scan.syntheticUncertain.get id = none := by
    rw [← Option.not_isSome_iff_eq_none, hfollows.synthetic_isSome]
    intro hinvalid
    have hspoilt : (fileTrack (N := N) file id).unclean = true :=
      (hfollows.unclean id).mpr (.inl hinvalid)
    rw [hclean] at hspoilt
    cases hspoilt
  rw [replayed, InsertionMap.get_union, hnone, Option.none_or, hfollows.latest]
  rfl

/-- An identity of which nothing counts: it is uncertain, and only in memory. -/
theorem get_replayed_spoilt (hscan : scanFile limits clock file = .ok scan) {id : JsString}
    (hspoilt : fileTrack (N := N) file id = ⟨none, true⟩) : ∃ e, some e ∈ fileEvents file ∧
      (replayed limits file scan).byIdentity.get id = some (uncertainFrom e false (clock id)) ∧
      e.identity = id := by
  have hfollows := follows_scanFile hscan
  have hlatest : scan.byIdentity.get id = none :=
    (hfollows.latest id).trans (congrArg Track.latest hspoilt)
  have hinvalid : id ∈ scan.invalidIdentities := by
    refine ((hfollows.unclean id).mp (congrArg Track.unclean hspoilt)).resolve_right fun hlost => ?_
    obtain ⟨e, he, -⟩ := hfollows.unfinished id hlost
    rw [hlatest] at he
    cases he
  obtain ⟨u, hu⟩ := Option.isSome_iff_exists.mp ((hfollows.synthetic_isSome id).mpr hinvalid)
  have hget : (replayed limits file scan).byIdentity.get id = some u := by
    rw [replayed, InsertionMap.get_union, hu, Option.some_or]
  rcases hfollows.synthetic id u hu with ⟨e, he, -⟩ | ⟨-, e, hmem, hid, rfl⟩
  · rw [hlatest] at he
    cases he
  · exact ⟨e, hmem, hget, hid⟩

theorem readsBack_spoilt {e : LifecycleLedgerEntry N} (h : some e ∈ fileEvents file)
    (now : Timestamp N) : ReadsBack (uncertainFrom e false now) := by
  obtain ⟨line, -, hevent⟩ := mem_map.mp h
  have hread := rowEvent_eq_some.mp hevent
  have hfields := hasEntryFields_iff.mp (Bool.and_eq_true_iff.mp (readRow_eq_entry.mp hread).2.2).2
  obtain ⟨identity, hidentity, hne⟩ := hfields.identity
  obtain ⟨requestHash, hhash, hne'⟩ := hfields.requestHash
  obtain rfl := JsValue.string.inj (e.identity_eq.symm.trans hidentity)
  obtain rfl := JsValue.string.inj (e.requestHash_eq.symm.trans hhash)
  exact readsBack_fresh hne hne' rfl now

omit [DecidableEq N] in
theorem rows_ofScan : rows (ofScan limits file scan).file = rows file := by
  unfold ofScan
  split_ifs
  · exact rows_seal file
  · rfl

theorem fileTrack_ofScan (id : JsString) :
    fileTrack (N := N) (ofScan limits file scan).file id = fileTrack file id := by
  rw [fileTrack, fileEvents, rows_ofScan, ← fileEvents, ← fileTrack]

section
variable (hscan : scanFile limits clock file = .ok scan) (hwhole : Whole N file)
include hscan hwhole

/-- What the replayed ledger holds of an identity, as far as its file is whole. -/
theorem replayed_cases (id : JsString) :
    (∃ e, some e ∈ fileEvents file ∧ fileTrack (N := N) file id = ⟨none, true⟩ ∧
      (replayed limits file scan).byIdentity.get id = some (uncertainFrom e false (clock id)) ∧
      e.identity = id) ∨
    ((fileTrack (N := N) file id).unclean = false ∧
      (replayed limits file scan).byIdentity.get id = (fileTrack file id).latest) := by
  cases hunclean : (fileTrack (N := N) file id).unclean with
  | false => exact .inr ⟨rfl, get_replayed_clean hscan hunclean⟩
  | true =>
    have hspoilt : fileTrack (N := N) file id = ⟨none, true⟩ := by
      have hnone := hwhole id hunclean
      cases htrack : fileTrack (N := N) file id with
      | mk latest unclean =>
        rw [htrack] at hnone hunclean
        obtain rfl : latest = none := hnone
        obtain rfl : unclean = true := hunclean
        rfl
    obtain ⟨e, hmem, hget, hid⟩ := get_replayed_spoilt hscan hspoilt
    exact .inl ⟨e, hmem, hspoilt, hget, hid⟩

/-- What is left open in the replayed ledger was found in the file. -/
theorem replayed_started {id : JsString} {e : LifecycleLedgerEntry N}
    (he : (replayed limits file scan).byIdentity.get id = some e) (hstarted : Started e) :
    (fileTrack file id).latest = some e := by
  rcases replayed_cases hscan hwhole id with ⟨e', -, -, hget, -⟩ | ⟨-, hget⟩
  · rw [he] at hget
    have hopen := hstarted.open
    rw [some.inj hget, uncertainFrom_final] at hopen
    cases hopen
  · exact hget.symm.trans he

theorem faithful_replayed :
    Faithful (refusedRows (N := N) [] (rows file)) (replayed limits file scan) := by
  have hgrounded := grounded_scanFile hscan
  have hfollows := follows_scanFile hscan
  have hofScan : isTorn (ofScan limits file scan).file = false ∧
      (ofScan limits file scan).limits = limits ∧
      (ofScan limits file scan).rowCount = scan.rowCount ∧
      (ofScan limits file scan).byteCount = (ofScan limits file scan).file.length := by
    unfold ofScan
    split_ifs with htorn
    · refine ⟨isTorn_append_LF file, rfl, rfl, ?_⟩
      simp [sealTornTail, write, LedgerWrite.apply]
    · exact ⟨Bool.not_eq_true _ ▸ htorn, rfl, rfl, rfl⟩
  obtain ⟨hsealed, hlimits, hrows, hbytes⟩ := hofScan
  refine ⟨hsealed, ?_, ?_, hbytes, fun id e he => ?_, fun e he => ?_, fun id e he => ?_,
    fun id he => ?_, ?_⟩
  · change Replayable (ofScan limits file scan).limits N (rows (ofScan limits file scan).file)
    rw [hlimits, rows_ofScan]
    exact scanFile_isOk_iff.mp ⟨scan, hscan⟩
  · change (ofScan limits file scan).rowCount = (rows (ofScan limits file scan).file).length
    rw [hrows, rows_ofScan, rowCount_scanFile hscan]
  · rcases replayed_cases hscan hwhole id with ⟨e', -, -, hget, hid⟩ | ⟨-, hget⟩
    · rw [he] at hget
      rw [some.inj hget, uncertainFrom_identity, hid]
    · exact (ledgerRules.latest_track (hget.symm.trans he)).1
  · change e ∈ (ofScan limits file scan).entries at he
    rw [entries_ofScan] at he
    exact (hgrounded.read e he).2
  · change ReadsBack e ∧ Tells (fileTrack (ofScan limits file scan).file id) e
    rw [fileTrack_ofScan]
    rcases replayed_cases hscan hwhole id with ⟨e', hmem, htrack, hget, -⟩ | ⟨hclean, hget⟩
    · rw [he] at hget
      rw [some.inj hget]
      exact ⟨readsBack_spoilt hmem _, .inl ⟨htrack, uncertainFrom_state _ _ _⟩⟩
    · have hlatest := hget.symm.trans he
      have hfound := (hfollows.latest id).trans hlatest
      refine ⟨(hgrounded.read e (hgrounded.latest id e hfound)).2, .inr ⟨e, ?_, rfl, rfl, Iff.rfl⟩⟩
      rw [← hlatest, ← hclean]
  · change fileTrack (ofScan limits file scan).file id = _
    rw [fileTrack_ofScan]
    rcases replayed_cases hscan hwhole id with ⟨e', -, -, hget, -⟩ | ⟨hclean, hget⟩
    · rw [he] at hget
      cases hget
    · rw [← hget.symm.trans he, ← hclean]
  · change (refusedRows (N := N) [] (rows (ofScan limits file scan).file)).Sublist _
    rw [rows_ofScan]

end

omit [JsNumber N] [DecidableEq N] in
theorem keys_values {byIdentity : InsertionMap JsString (LifecycleLedgerEntry N)}
    (h : Keyed byIdentity) : byIdentity.values.map (·.identity) = byIdentity.keys := by
  rw [InsertionMap.values, InsertionMap.keys, map_map]
  refine map_congr_left fun item hitem => ?_
  exact h _ _ (InsertionMap.get_of_mem_entries hitem)

theorem closing_replayed (hscan : scanFile limits clock file = .ok scan) (hwhole : Whole N file)
    (hcloses : ∀ id (e : LifecycleLedgerEntry N), (fileTrack file id).latest = some e →
      Started e → Closable e.asJson) (hlength : file.length ≤ limits.maxBytes)
    (hroom : isTorn file = true → file.length < limits.maxBytes ∨ ¬ Closed N file) :
    Closing (replayed limits file scan).byIdentity.values (replayed limits file scan) := by
  have hfaithful := faithful_replayed hscan hwhole
  have hgrounded := grounded_scanFile hscan
  have hfollows := follows_scanFile hscan
  have hmem : ∀ p ∈ (replayed limits file scan).byIdentity.values,
      (replayed limits file scan).byIdentity.get p.identity = some p := by
    intro p hp
    obtain ⟨item, hitem, rfl⟩ := mem_map.mp hp
    have hget := InsertionMap.get_of_mem_entries hitem
    rw [hfaithful.keyed _ _ hget]
    exact hget
  have hvalues : ∀ id e, (replayed limits file scan).byIdentity.get id = some e →
      e ∈ (replayed limits file scan).byIdentity.values := fun id e he =>
    mem_map_of_mem (f := Prod.snd) (InsertionMap.mem_entries_iff.mpr he)
  refine ⟨?_, fun p hp _ => hmem p hp, fun p hp hstarted now => ?_,
    fun id e he _ => hvalues id e he, ?_⟩
  · rw [keys_values hfaithful.keyed]
    exact (replayed limits file scan).byIdentity.nodup
  · have hlatest := replayed_started hscan hwhole (hmem p hp) hstarted
    have hfound := (hfollows.latest _).trans hlatest
    have hrow := (hgrounded.read p (hgrounded.latest _ p hfound)).1
    exact (readsBack_uncertainFrom hrow now).mpr (hcloses _ p hlatest hstarted)
  · change (ofScan limits file scan).file.length ≤ (ofScan limits file scan).limits.maxBytes ∨ _
    have hfound : ¬ Closed N file → ∃ p ∈ (replayed limits file scan).byIdentity.values,
        Started p := by
      intro hopen
      simp only [Closed, not_forall, not_not] at hopen
      obtain ⟨id, e, he, hstarted⟩ := hopen
      have hclean : (fileTrack (N := N) file id).unclean = false := by
        rw [← Bool.not_eq_true]
        intro hspoilt
        rw [hwhole id hspoilt] at he
        cases he
      exact ⟨e, hvalues id e ((get_replayed_clean hscan hclean).trans he), hstarted⟩
    unfold ofScan
    split_ifs with htorn
    · rcases hroom htorn with hshort | hopen
      · left
        change (file ++ [0x0a]).length ≤ limits.maxBytes
        rw [length_append, length_singleton]
        exact hshort
      · exact .inr (hfound hopen)
    · exact .inl hlength

end Replay

end LifecycleLedger
end GajaeCode
