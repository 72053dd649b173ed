import GajaeCode.LedgerRecovery

/-! # Compaction of the ledger

A compaction succeeds where every identity has its anchor, and reopening the file it wrote
gives the latest rows again.  Both hold in every state that can be reached from a file in
which every identity begins with a row that counts, by rows that read back; an identity
that begins with a refused row is kept as uncertain without any row in the file, and no
compaction succeeds from then on.
-/
namespace GajaeCode
open JsString JsValue JsonParse

namespace LifecycleLedger
variable {N : Type}

/-- A ledger that is recovering from what a replay found: what it holds is final or was
found, and under the hash that was found. -/
structure Recovers (scan : Scan N) (ledger : LifecycleLedger N) : Prop where
  rooted : Rooted ledger
  held : ∀ id e, ledger.byIdentity.get id = some e →
    e.state.final = true ∨ scan.byIdentity.get id = some e
  goes : ∀ id p, scan.byIdentity.get id = some p →
    ∃ e, ledger.byIdentity.get id = some e ∧ e.requestHash = p.requestHash

section Recovers
variable {scan : Scan N} {ledger : LifecycleLedger N} {u p : LifecycleLedgerEntry N}

theorem Recovers.goesOn (h : Recovers scan ledger) (hp : scan.byIdentity.get u.identity = some p)
    (hhash : u.requestHash = p.requestHash) : GoesOn ledger.byIdentity u := by
  obtain ⟨e, he, hash⟩ := h.goes _ _ hp
  exact ⟨e, he, hhash.trans hash.symm⟩

theorem Recovers.setMap {byIdentity : InsertionMap JsString (LifecycleLedgerEntry N)}
    (hheld : ∀ id e, byIdentity.get id = some e →
      e.state.final = true ∨ scan.byIdentity.get id = some e)
    (hgoes : ∀ id p, scan.byIdentity.get id = some p →
      ∃ e, byIdentity.get id = some e ∧ e.requestHash = p.requestHash)
    (hp : scan.byIdentity.get u.identity = some p) (hhash : u.requestHash = p.requestHash)
    (hfinal : u.state.final = true) : (∀ id e, (byIdentity.set u.identity u).get id = some e →
      e.state.final = true ∨ scan.byIdentity.get id = some e) ∧
    ∀ id p, scan.byIdentity.get id = some p →
      ∃ e, (byIdentity.set u.identity u).get id = some e ∧ e.requestHash = p.requestHash := by
  constructor
  · intro id e he
    rw [InsertionMap.get_set] at he
    split_ifs at he
    · exact .inl (some.inj he ▸ hfinal)
    · exact hheld id e he
  · intro id p' hp'
    rw [InsertionMap.get_set]
    split_ifs with hid
    · rw [hid, hp] at hp'
      exact ⟨u, rfl, some.inj hp' ▸ hhash⟩
    · exact hgoes id p' hp'

theorem Recovers.set (h : Recovers scan ledger) (hp : scan.byIdentity.get u.identity = some p)
    (hhash : u.requestHash = p.requestHash) (hfinal : u.state.final = true) :
    Recovers scan { ledger with byIdentity := ledger.byIdentity.set u.identity u } := by
  have hset := Recovers.setMap h.held h.goes hp hhash hfinal
  refine ⟨⟨h.rooted.anchored.set (h.goesOn hp hhash), fun a ha => ?_⟩, hset.1, hset.2⟩
  exact isSome_get_compacted (r := some u) (h.rooted.known a ha)

theorem Recovers.of_started (h : Recovers scan ledger) {e : LifecycleLedgerEntry N}
    (he : e ∈ ledger.byIdentity.values) (hstarted : Started e) :
    scan.byIdentity.get e.identity = some e := by
  obtain ⟨item, hitem, rfl⟩ := List.mem_map.mp he
  have hget := InsertionMap.get_of_mem_entries hitem
  have hkey := h.rooted.keyed _ _ hget
  rcases h.held _ _ hget with hfinal | hfound
  · rw [hstarted.open] at hfinal
    cases hfinal
  · rw [hkey]
    exact hfound

variable [JsNumber N] {clock : JsString → Timestamp N}

theorem Recovers.append (h : Recovers scan ledger) (hp : scan.byIdentity.get u.identity = some p)
    (hhash : u.requestHash = p.requestHash) (hfinal : u.state.final = true) :
    Recovers scan (ledger.append u).1 := by
  have hset := Recovers.setMap h.held h.goes hp hhash hfinal
  have hmap := append_byIdentity (e := u) (P := fun byIdentity =>
    (∀ id e, byIdentity.get id = some e →
      e.state.final = true ∨ scan.byIdentity.get id = some e) ∧
    ∀ id p, scan.byIdentity.get id = some p →
      ∃ e, byIdentity.get id = some e ∧ e.requestHash = p.requestHash) ⟨h.held, h.goes⟩ hset
  exact ⟨h.rooted.append (.inl (h.goesOn hp hhash)), hmap.1, hmap.2⟩

theorem Recovers.recoverStarted (h : Recovers scan ledger) {ledger' : LifecycleLedger N}
    (h' : Recovers scan ledger') {e : LifecycleLedgerEntry N} (he : e ∈ ledger.byIdentity.values) :
    Recovers scan (recoverStarted clock ledger' e).1 ∧
      ∀ err, (recoverStarted clock ledger' e).2 = .error err →
        err = .rowTooLong ∨ err = .compactionTooLong ∨ err = .appendTooLong := by
  unfold LifecycleLedger.recoverStarted
  split_ifs with hstarted
  · have hfound : scan.byIdentity.get
        (uncertainFrom e true (clock e.identity)).identity = some e := by
      rw [uncertainFrom_identity]
      exact h.of_started he hstarted
    have hhash := uncertainFrom_requestHash e true (clock e.identity)
    have hon := h'.goesOn hfound hhash
    rw [Prod.map_fst, Prod.map_snd, id_eq]
    refine ⟨h'.append hfound hhash (uncertainFrom_final e true _), fun err herr => ?_⟩
    cases hresult : (ledger'.append (uncertainFrom e true (clock e.identity))).2 with
    | error err' =>
      rw [hresult] at herr
      exact Except.error.inj herr ▸ h'.rooted.append_error (.inl hon) hresult
    | ok b => rw [hresult] at herr; cases herr
  · exact ⟨h', fun _ herr => nomatch herr⟩

variable [DecidableEq N]

/-- A row that closes an identity the replay has found. -/
theorem Recovers.close (h : Recovers scan ledger) (hsound : Sound ledger) {now : Timestamp N}
    (hp : scan.byIdentity.get p.identity = some p) (hreads : ReadsBack (uncertainFrom p true now)) :
    Recovers scan (ledger.append (uncertainFrom p true now)).1 ∧
      Sound (ledger.append (uncertainFrom p true now)).1 := by
  have hfound : scan.byIdentity.get (uncertainFrom p true now).identity = some p := by
    rwa [uncertainFrom_identity]
  have hhash := uncertainFrom_requestHash p true now
  refine ⟨h.append hfound hhash (uncertainFrom_final p true now),
    hsound.append (.inl (h.goesOn hfound hhash)) ⟨hreads, fun hstate => ?_⟩⟩
  rw [uncertainFrom_state] at hstate
  cases hstate

end Recovers

/-! ## Files from which every state can be compacted -/

variable [JsNumber N] [DecidableEq N]

/-- Every identity begins with a row that counts; where recovery closes one, the digests in
its last row are right; and one that is still accepted was accepted in one way. -/
structure FileKept (N : Type) [JsNumber N] [DecidableEq N] (file : List UInt8) : Prop where
  begins : ∀ id, (fileTrack (N := N) file id).latest = none →
    (fileTrack (N := N) file id).unclean = false
  closes : ∀ id (e : LifecycleLedgerEntry N), (fileTrack file id).latest = some e →
    (fileTrack (N := N) file id).unclean = true ∨ Started e → Closable e.asJson
  firm : ∀ id (e : LifecycleLedgerEntry N), (fileTrack file id).latest = some e →
    e.state = .accepted → ∃ a, anchorOf (fileEntries file) id = some a ∧ a.asJson = e.asJson

section Open
variable {limits : LifecycleLedgerLimits} {clock : JsString → Timestamp N} {file : List UInt8}
  {scan : Scan N}

/-- A replay that is grounded is where recovery begins. -/
theorem recovers_ofScan (hgrounded : Grounded scan.entries scan.byIdentity (fileEvents file)) :
    Recovers scan (ofScan limits file scan) := by
  refine ⟨⟨?_, ?_⟩, fun id e he => ?_, fun id p hp => ?_⟩
  · rw [entries_ofScan, byIdentity_ofScan]
    exact hgrounded.anchored
  · rw [entries_ofScan, byIdentity_ofScan]
    exact hgrounded.known
  · rw [byIdentity_ofScan] at he
    exact .inr he
  · rw [byIdentity_ofScan]
    exact ⟨p, hp, rfl⟩

theorem sound_ofScan (hgrounded : Grounded scan.entries scan.byIdentity (fileEvents file))
    (hfirm : ∀ id e, scan.byIdentity.get id = some e → e.state = .accepted →
      ∃ a, anchorOf (fileEntries file) id = some a ∧ a.asJson = e.asJson) :
    Sound (ofScan limits file scan) := by
  refine ⟨(recovers_ofScan hgrounded).rooted, fun a ha => ?_, fun id e he => ?_,
    fun id e he hstate => ?_⟩
  · rw [entries_ofScan] at ha
    exact (hgrounded.read a ha).2
  · rw [byIdentity_ofScan] at he
    exact (hgrounded.read e (hgrounded.latest id e he)).2
  · rw [byIdentity_ofScan] at he
    obtain ⟨a, ha, heq⟩ := hfirm id e he hstate
    rw [entries_ofScan]
    exact ⟨a, (hgrounded.first id e he).trans ha, heq⟩

/-- **Recovery keeps a ledger sound**, from a file of the right kind. -/
theorem sound_recover (hscan : scanFile limits clock file = .ok scan) (hfile : FileKept N file) :
    Sound (recover clock scan (ofScan limits file scan)).1 := by
  have hfollows := follows_scanFile hscan
  have hgrounded := grounded_scanFile hscan
  have hlatest : ∀ id, scan.byIdentity.get id = (fileTrack file id).latest := hfollows.latest
  have hreads : ∀ (p : LifecycleLedgerEntry N) (now : Timestamp N),
      scan.byIdentity.get p.identity = some p →
      (fileTrack (N := N) file p.identity).unclean = true ∨ Started p →
      ReadsBack (uncertainFrom p true now) := by
    intro p now hp hclosed
    have hrow := (hgrounded.read p (hgrounded.latest _ _ hp)).1
    exact (readsBack_uncertainFrom hrow now).mpr
      (hfile.closes _ p ((hlatest _).symm.trans hp) hclosed)
  have hsound : Sound (ofScan limits file scan) := sound_ofScan hgrounded
    fun id e he => hfile.firm id e ((hlatest id).symm.trans he)
  refine (recover_run (P := fun ledger => Recovers scan ledger ∧ Sound ledger)
    (Q := fun _ => True) (fun ledger h item hitem => ⟨?_, fun _ _ => trivial⟩)
    (fun ledger h id hid => ⟨?_, fun _ _ => trivial⟩)
    (fun ledger h ledger' h' e he => ⟨?_, fun _ _ => trivial⟩)
    ⟨recovers_ofScan hgrounded, hsound⟩).1.2
  · obtain ⟨id, u⟩ := item
    have hsynthetic : scan.syntheticUncertain.get id = some u :=
      InsertionMap.get_of_mem_entries hitem
    have hinvalid := (hfollows.synthetic_isSome id).mp (Option.isSome_of_eq_some hsynthetic)
    have hunclean : (fileTrack (N := N) file id).unclean = true :=
      (hfollows.unclean id).mpr (.inl hinvalid)
    rcases hfollows.synthetic _ _ hsynthetic with ⟨p, hp, rfl⟩ | ⟨hnone, -⟩
    · obtain rfl : p.identity = id := hfollows.keyed hp
      have hfound : scan.byIdentity.get
          (uncertainFrom p true (clock p.identity)).identity = some p := by
        rwa [uncertainFrom_identity]
      have hhash := uncertainFrom_requestHash p true (clock p.identity)
      have hkept : RowKept ledger (uncertainFrom p true (clock p.identity)) := by
        refine ⟨hreads p _ hp (.inl hunclean), fun hstate => ?_⟩
        rw [uncertainFrom_state] at hstate
        cases hstate
      have hset := h.1.set hfound hhash (uncertainFrom_final p true _)
      have hsoundSet := h.2.set (h.1.goesOn hfound hhash) hkept
      rw [uncertainFrom_identity] at hset hsoundSet
      unfold recoverInvalid
      simp only
      split_ifs
      · rw [Prod.map_fst, id_eq]
        exact hset.close hsoundSet hp hkept.1
      · exact ⟨hset, hsoundSet⟩
    · rw [hfile.begins id ((hlatest id).symm.trans hnone)] at hunclean
      cases hunclean
  · have hunclean : (fileTrack (N := N) file id).unclean = true :=
      (hfollows.unclean id).mpr (.inr hid)
    unfold recoverCorrupted
    cases hget : ledger.byIdentity.get id with
    | none => exact h
    | some e =>
      simp only
      split_ifs with hfinal
      · exact h
      · obtain rfl : e.identity = id := h.1.rooted.keyed _ _ hget
        have hfound := (h.1.held _ _ hget).resolve_left hfinal
        rw [Prod.map_fst, id_eq]
        exact h.1.close h.2 hfound (hreads e _ hfound (.inl hunclean))
  · unfold recoverStarted
    split_ifs with hstarted
    · have hfound := h.1.of_started he hstarted
      rw [Prod.map_fst, id_eq]
      exact h'.1.close h'.2 hfound (hreads e _ hfound (.inr hstarted))
    · exact h'

theorem sound_openLedger {ledger : LifecycleLedger N} (hfile : FileKept N file)
    (hopen : openLedger limits clock file = (ledger, .ok ())) : Sound ledger := by
  obtain ⟨-, scan, hscan, hrecover⟩ := openLedger_ok hopen
  have hsound := sound_recover hscan hfile
  rwa [hrecover] at hsound

end Open

section
omit [DecidableEq N]

theorem withResponseDigest_identity (e : LifecycleLedgerEntry N) :
    (withResponseDigest e).identity = e.identity ∧
      (withResponseDigest e).requestHash = e.requestHash ∧
      (withResponseDigest e).state = e.state := by
  unfold withResponseDigest
  split_ifs <;> exact ⟨rfl, rfl, rfl⟩

theorem withEffectsDigest_identity (e : LifecycleLedgerEntry N) :
    (withEffectsDigest e).identity = e.identity ∧
      (withEffectsDigest e).requestHash = e.requestHash ∧
      (withEffectsDigest e).state = e.state := by
  simp only [withEffectsDigest]
  split_ifs <;> exact ⟨rfl, rfl, rfl⟩

theorem nextEntry_identity (previous : LifecycleLedgerEntry N) (state : LifecycleState)
    (fields : TransitionFields N) (now : Timestamp N) :
    (nextEntry previous state fields now).identity = previous.identity ∧
      (nextEntry previous state fields now).requestHash = previous.requestHash ∧
      (nextEntry previous state fields now).state = state := by
  obtain ⟨hid, hhash, hstate⟩ := withResponseDigest_identity (previous.update fields state now)
  obtain ⟨hid', hhash', hstate'⟩ :=
    withEffectsDigest_identity (withResponseDigest (previous.update fields state now))
  exact ⟨hid'.trans hid, hhash'.trans hhash, hstate'.trans hstate⟩

end

/-- The states a ledger can be in after it was opened, as long as the rows it writes read
back and name a request. -/
inductive Kept (limits : LifecycleLedgerLimits) : LifecycleLedger N → Prop
  | opened {file : List UInt8} {clock : JsString → Timestamp N} {ledger : LifecycleLedger N}
    (hfile : FileKept N file) (hopen : openLedger limits clock file = (ledger, .ok ())) :
    Kept limits ledger
  | begun {ledger : LifecycleLedger N} (h : Kept limits ledger) {identity requestHash : JsString}
    (hidentity : identity ≠ []) (hhash : requestHash ≠ []) (now : Timestamp N) :
    Kept limits (ledger.begin identity requestHash now).1
  | moved {ledger : LifecycleLedger N} (h : Kept limits ledger) (identity : JsString)
    (state : LifecycleState) (fields : TransitionFields N) (now : Timestamp N)
    (hrow : ∀ previous, ledger.byIdentity.get identity = some previous →
      RowKept ledger (nextEntry previous state fields now)) :
    Kept limits (ledger.transition identity state fields now).1

theorem Sound.begin {ledger : LifecycleLedger N} (h : Sound ledger)
    {identity requestHash : JsString} (hidentity : identity ≠ []) (hhash : requestHash ≠ [])
    (now : Timestamp N) : Sound (ledger.begin identity requestHash now).1 := by
  unfold LifecycleLedger.begin
  cases hget : ledger.byIdentity.get identity with
  | none =>
    simp only
    rw [Prod.map_fst, id_eq]
    refine h.append (.inr ⟨rfl, hget⟩) ⟨readsBack_fresh hidentity hhash rfl now, fun _ a ha => ?_⟩
    have hnone := anchorOf_eq_none h.known hget
    rw [show anchorOf ledger.entries identity = some a from ha] at hnone
    cases hnone
  | some prior =>
    simp only
    split_ifs <;> exact h

theorem Sound.transition {ledger : LifecycleLedger N} (h : Sound ledger) {identity : JsString}
    {state : LifecycleState} {fields : TransitionFields N} {now : Timestamp N}
    (hrow : ∀ previous, ledger.byIdentity.get identity = some previous →
      RowKept ledger (nextEntry previous state fields now)) :
    Sound (ledger.transition identity state fields now).1 := by
  unfold LifecycleLedger.transition
  cases hget : ledger.byIdentity.get identity with
  | none => exact h
  | some previous =>
    obtain ⟨hid, hhash, -⟩ := nextEntry_identity previous state fields now
    refine h.append (.inl ⟨previous, ?_, hhash⟩) (hrow previous hget)
    rw [hid, h.keyed _ _ hget, hget]

theorem Kept.sound {limits : LifecycleLedgerLimits} {ledger : LifecycleLedger N}
    (h : Kept limits ledger) : Sound ledger := by
  induction h with
  | opened hfile hopen => exact sound_openLedger hfile hopen
  | begun _ hidentity hhash now ih => exact ih.begin hidentity hhash now
  | moved _ _ _ _ _ hrow ih => exact ih.transition hrow

/-! ## Reopening what was compacted -/

/-- An identity that recovery leaves as it is: accepted, final, or with nothing but a
cleanup left. -/
def Settled (e : LifecycleLedgerEntry N) : Prop :=
  e.state = .accepted ∨ e.state.final = true ∨
    (e.state = .effectStarted ∧ isCleanupPending e = true)

omit [JsNumber N] [DecidableEq N] in
theorem Settled.not_started {e : LifecycleLedgerEntry N} (h : Settled e) : ¬ Started e := by
  rintro (⟨hstate, hpending⟩ | hstate)
  · rcases h with h | h | ⟨-, h⟩
    · rw [h] at hstate
      cases hstate
    · rw [hstate] at h
      cases h
    · rw [h] at hpending
      cases hpending
  · rcases h with h | h | ⟨h, -⟩
    · rw [h] at hstate
      cases hstate
    · rw [hstate] at h
      cases h
    · rw [h] at hstate
      cases hstate

/-- What opening the file of a ledger again gives: the same rows of the identities that are
settled, and an error only if a row that closes another meets a limit. -/
structure Reopens (clock : JsString → Timestamp N) (ledger : LifecycleLedger N) : Prop where
  latest : ∀ id e, ledger.byIdentity.get id = some e → Settled e →
    (openLedger ledger.limits clock ledger.file).1.byIdentity.get id = some e.asJson
  error : ∀ err, (openLedger ledger.limits clock ledger.file).2 = .error err →
    err = .rowTooLong ∨ err = .compactionTooLong ∨ err = .appendTooLong
  ok : (∀ id e, ledger.byIdentity.get id = some e → Settled e) →
    (openLedger ledger.limits clock ledger.file).2 = .ok ()

section Reopen
variable {ledger ledger' : LifecycleLedger N} {r : Option (LifecycleLedgerEntry N)}

/-- A reader of the snapshot ends with the latest row of every identity. -/
theorem Sound.track_compacted (h' : Sound ledger') (hcompacted : Compacted ledger r ledger')
    (hkeyed : Keyed (ledger.compacted r)) {id : JsString} {e : LifecycleLedgerEntry N}
    (he : ledger'.byIdentity.get id = some e) :
    fileTrack ledger'.file id = ⟨some e.asJson, false⟩ := by
  have hget : (ledger.compacted r).get id = some e := hcompacted.byIdentity ▸ he
  obtain ⟨a, ha, htrack⟩ := hcompacted.track_some hkeyed h'.rows hget
  rw [htrack]
  split_ifs with hstate
  · obtain ⟨a', ha', heq⟩ := h'.firm id e he hstate
    rw [hcompacted.anchorOf_entries hkeyed hget, ha] at ha'
    rw [some.inj ha', heq]
  · rfl

/-- **Reopening the file of a sound compaction** gives what was compacted. -/
theorem Sound.reopens (h' : Sound ledger') (hcompacted : Compacted ledger r ledger')
    (hkeyed : Keyed (ledger.compacted r)) (clock : JsString → Timestamp N) :
    Reopens clock ledger' := by
  have hreplayable := hcompacted.replayable h'.rows
  rw [← hcompacted.limits] at hreplayable
  obtain ⟨scan, hscan⟩ : ∃ scan : Scan N, scanFile ledger'.limits clock ledger'.file = .ok scan :=
    scanFile_isOk_iff.mpr hreplayable
  have hfollows := follows_scanFile hscan
  have hbytes : ¬ ledger'.limits.maxBytes < ledger'.file.length := by
    rw [← hcompacted.byteCount, hcompacted.limits]
    exact not_lt.mpr hcompacted.bytesFit
  have hopen : openLedger ledger'.limits clock ledger'.file =
      recover clock scan (ofScan ledger'.limits ledger'.file scan) := by
    rw [openLedger, if_neg hbytes, hscan]
  -- nothing was refused or lost, so only what was left open is closed
  have hclean : ∀ id, ¬ (id ∈ scan.invalidIdentities ∨ id ∈ scan.uncertainAfterCorruption) := by
    intro id
    rw [← hfollows.unclean id, Bool.not_eq_true]
    exact hcompacted.track_clean hkeyed h'.rows id
  have hinvalid : ∀ item ∈ scan.syntheticUncertain.entries, False := by
    intro item hitem
    have hsynthetic := InsertionMap.get_of_mem_entries hitem
    exact hclean item.1
      (.inl ((hfollows.synthetic_isSome item.1).mp (Option.isSome_of_eq_some hsynthetic)))
  refine ⟨fun id e he hsettled => ?_, fun err herr => ?_, fun hsettled => ?_⟩
  · have htrack := h'.track_compacted hcompacted hkeyed he
    have hstart := holds_ofScan hfollows ledger'.limits ledger'.file (congrArg Track.latest htrack)
    rw [hopen]
    exact (hstart.recover hfollows (congrArg Track.unclean htrack)
      (mt started_asJson.mp hsettled.not_started)).1
  · rw [hopen] at herr
    exact (recover_run (P := Recovers scan)
      (fun _ _ item hitem => (hinvalid item hitem).elim)
      (fun _ _ id hid => (hclean id (.inr hid)).elim)
      (fun _ h _ h' e he => h.recoverStarted h' he)
      (recovers_ofScan (grounded_scanFile hscan))).2 err herr
  · have hwhole : Whole N ledger'.file := fun id hspoilt => by
      rw [hcompacted.track_clean hkeyed h'.rows id] at hspoilt
      cases hspoilt
    have hidle : ∀ e ∈ (replayed ledger'.limits ledger'.file scan).byIdentity.values,
        ¬ Started e := by
      intro e he hstarted
      obtain ⟨item, hitem, rfl⟩ := List.mem_map.mp he
      have hget := InsertionMap.get_of_mem_entries hitem
      have hlatest := replayed_started hscan hwhole hget hstarted
      cases hknown : ledger'.byIdentity.get item.1 with
      | none =>
        rw [hcompacted.byIdentity] at hknown
        rw [hcompacted.track_none hkeyed h'.rows hknown] at hlatest
        cases hlatest
      | some e =>
        rw [h'.track_compacted hcompacted hkeyed hknown] at hlatest
        rw [← some.inj hlatest, started_asJson] at hstarted
        exact (hsettled _ _ hknown).not_started hstarted
    rw [hopen, recover_whole hscan hwhole, (idles_recoverStarted clock).run hidle]

/-- **A compaction never lacks an anchor, and what it wrote reopens as it was.**  In every
state that is reached from a file in which every identity begins with a row that counts, by
rows that read back; also where the compaction takes in the next such row. -/
theorem compact_reopens {limits : LifecycleLedgerLimits} (h : Kept limits ledger)
    (hr : ∀ e ∈ r, GoesOn ledger.byIdentity e ∧ RowKept ledger e) :
    (∀ err, ledger.compact r = .error err → err = .compactionTooLong) ∧
      ∀ ledger', ledger.compact r = .ok ledger' → ∀ clock, Reopens clock ledger' := by
  have hanchored := h.sound.toRooted.compacted fun e he => (hr e he).1
  refine ⟨fun err => compact_error hanchored, fun ledger' hcompact clock => ?_⟩
  have hcompacted := compacted_of_compact hcompact
  exact (h.sound.compact hr hcompacted).reopens hcompacted (fun id e he => (hanchored id e he).1)
    clock

end Reopen

theorem fileKept_nil : FileKept N [] where
  begins id _ := by
    rw [fileTrack, fileEvents, rows_nil]
    rfl
  closes id e h := by
    rw [fileTrack, fileEvents, rows_nil] at h
    cases h
  firm id e h := by
    rw [fileTrack, fileEvents, rows_nil] at h
    cases h

/-- A response and nothing else. -/
def answerFields (b : Bool) : TransitionFields N where
  fields := [(js "response", .boolean b)]
  wellKeyed := wellKeyed_object.mpr ⟨List.pairwise_singleton _ _, by simp⟩
  no_identity := rfl
  no_requestHash := rfl
  no_state := rfl
  no_ts := rfl

/-- A request that is begun, answered and compacted away. -/
theorem compact_reopens_answered : ∃ ledger : LifecycleLedger Nat,
    (((openLedger DEFAULT_LIFECYCLE_LEDGER_LIMITS (fun _ => ⟨1, rfl⟩) []).1.begin (js "a") (js "h")
        ⟨2, rfl⟩).1.transition (js "a") .terminalOk (answerFields true) ⟨3, rfl⟩).1.compact none =
      .ok ledger ∧ Reopens (fun _ => ⟨7, rfl⟩) ledger := by
  have hcomputed :
      (openLedger (N := Nat) DEFAULT_LIFECYCLE_LEDGER_LIMITS (fun _ => ⟨1, rfl⟩)
        []).2.toBool = true ∧
      (((openLedger (N := Nat) DEFAULT_LIFECYCLE_LEDGER_LIMITS (fun _ => ⟨1, rfl⟩) []).1.begin
        (js "a") (js "h") ⟨2, rfl⟩).1.byIdentity.get (js "a")).all (fun previous =>
          decide (ReadsBack (nextEntry previous .terminalOk (answerFields true) ⟨3, rfl⟩))) = true ∧
      ((((openLedger (N := Nat) DEFAULT_LIFECYCLE_LEDGER_LIMITS (fun _ => ⟨1, rfl⟩) []).1.begin
        (js "a") (js "h") ⟨2, rfl⟩).1.transition (js "a") .terminalOk (answerFields true)
          ⟨3, rfl⟩).1.compact none).toBool = true := by
    decide +kernel
  obtain ⟨hopen, hreads, hcompact⟩ := hcomputed
  have hkept := (Kept.opened fileKept_nil (outcome_eq_ok hopen)).begun
    (by decide : js "a" ≠ []) (by decide : js "h" ≠ []) ⟨2, rfl⟩
  have hmoved := hkept.moved (js "a") .terminalOk (answerFields true) ⟨3, rfl⟩
    fun previous hprevious => by
      rw [hprevious] at hreads
      refine ⟨of_decide_eq_true hreads, fun hstate => ?_⟩
      rw [(nextEntry_identity previous .terminalOk (answerFields true) ⟨3, rfl⟩).2.2] at hstate
      cases hstate
  cases hresult : (((openLedger (N := Nat) DEFAULT_LIFECYCLE_LEDGER_LIMITS (fun _ => ⟨1, rfl⟩)
      []).1.begin (js "a") (js "h") ⟨2, rfl⟩).1.transition (js "a") .terminalOk (answerFields true)
        ⟨3, rfl⟩).1.compact none with
  | error err =>
    rw [hresult] at hcompact
    cases hcompact
  | ok ledger => exact ⟨ledger, rfl, (compact_reopens hmoved (by simp)).2 ledger hresult _⟩

/-- A row of an effect without the row that accepts it. -/
def orphanFile : List UInt8 :=
  utf8 (js "\x7b\"version\":1,\"identity\":\"a\"," ++ js "\"requestHash\":\"h\"," ++
    js "\"state\":\"effect_started\"," ++ js "\"ts\":1\x7d\n")

/-- The ledger of one row opens, no compaction of it succeeds, and the next request is not
even accepted. -/
theorem compact_without_anchor :
    (openLedger (N := Nat) ⟨1000, 1000, 1⟩ (fun _ => ⟨7, rfl⟩) orphanFile).2.toBool = true ∧
      (openLedger (N := Nat) ⟨1000, 1000, 1⟩ (fun _ => ⟨7, rfl⟩) orphanFile).1.compact none =
        .error .noAnchor ∧
      ((openLedger (N := Nat) ⟨1000, 1000, 1⟩ (fun _ => ⟨7, rfl⟩) orphanFile).1.begin (js "b")
        (js "h") ⟨8, rfl⟩).2.toBool = false := by
  have hcomputed : (snapshotOf
      ((openLedger (N := Nat) ⟨1000, 1000, 1⟩ (fun _ => ⟨7, rfl⟩) orphanFile).1.anchors none)
      ((openLedger (N := Nat) ⟨1000, 1000, 1⟩ (fun _ => ⟨7, rfl⟩)
        orphanFile).1.compacted none).entries).isNone = true := by
    decide +kernel
  refine ⟨by decide +kernel, ?_, by decide +kernel⟩
  unfold compact
  simp only
  rw [Option.isNone_iff_eq_none.mp hcomputed]

end LifecycleLedger
end GajaeCode
