import GajaeCode.SessionCrash
import GajaeCode.Sha256

/-! # What a repair keeps

After a repair the files are healthy, with the same texts of events, and events can be
appended.  The same holds when a repair is cut off between its two replacements, and another one
follows: a scan has read the new snapshot with the old log as it had read the old ones.
-/
namespace GajaeCode
open JsString JsValue JsonParse List

namespace SessionScan
open JsSequence

variable {N : Type} [JsNumber N] [JsReal N] [JsSequence N] {host : SessionHost N}

/-- The scan of files whose versions are supported. -/
structure Scanned (host : SessionHost N) (files : SessionFiles) (snapshot : SnapshotScan N)
    (log : LogScan N) : Prop where
  snapshot_eq : scanSnapshot host files.snapshot = snapshot
  supported : snapshot.unsupportedError = none
  log_eq : scanLog host snapshot.invalidSnapshot snapshot.trustedSnapshotSeq files.log = (log, none)

section Scanned
variable {files : SessionFiles} {snapshot : SnapshotScan N} {log : LogScan N}
variable {event : JsValue N} {n : N}

theorem exists_scanned (h : (scan host files).diagnosis.status ≠ .unsupported) :
    ∃ snapshot log, Scanned host files snapshot log := by
  cases hlog : scanLog host (scanSnapshot host files.snapshot).invalidSnapshot
    (scanSnapshot host files.snapshot).trustedSnapshotSeq files.log with
  | mk log logError =>
    cases hor : logError.or (scanSnapshot host files.snapshot).unsupportedError with
    | some error =>
      unfold scan at h
      simp only [hlog, hor] at h
      exact absurd rfl h
    | none =>
      obtain ⟨rfl, hsnapshot⟩ := Option.or_eq_none_iff.mp hor
      exact ⟨_, log, rfl, hsnapshot, hlog⟩

section
variable (h : Scanned host files snapshot log)
include h

theorem Scanned.scan_eq : (scan host files).snapshotEvents = snapshot.snapshotEvents ∧
      (scan host files).validLogEvents = log.validLogEvents ∧
      (scan host files).unsupportedError = none ∧
      (scan host files).diagnosis.status = if log.corrupt then .corrupt else .healthy := by
  obtain ⟨rfl, hsupported, hlog⟩ := h
  unfold scan
  simp only [hlog, hsupported, Option.or_none, and_self]

theorem Scanned.snapshot_good : snapshot.Good host := by
  obtain ⟨rfl, hsupported, -⟩ := h
  exact scanSnapshot_good hsupported

theorem Scanned.log_good : log.Good host snapshot.invalidSnapshot snapshot.trustedSnapshotSeq :=
  scanLog_good (JsNumber.isFinite_of_isSafeInteger _ h.snapshot_good.safe) h.log_eq

theorem Scanned.corrupt_eq_true :
    (scan host files).diagnosis.status = .corrupt ↔ log.corrupt = true := by
  rw [h.scan_eq.2.2.2]
  cases log.corrupt <;> simp

theorem Scanned.healthy_iff :
    (scan host files).diagnosis.status = .healthy ↔ log.corrupt = false := by
  rw [h.scan_eq.2.2.2]
  cases log.corrupt <;> simp

theorem Scanned.events_eq :
    (scan host files).events = snapshot.snapshotEvents ++ log.validLogEvents := by
  rw [SessionIndexScan.events, h.scan_eq.1, h.scan_eq.2.1]

end

theorem repair_of_corrupt (h : (scan host files).diagnosis.status = .corrupt) :
    repair host files = ⟨some (utf8 (jsonText (repairedSnapshot (scan host files)))),
      some (utf8 (repairedLog (scan host files)))⟩ := by
  rw [repair, repairWrites, if_pos h]
  rfl

theorem repair_of_healthy (h : (scan host files).diagnosis.status = .healthy) :
    repair host files = files := by
  rw [repair, repairWrites, if_neg (by rw [h]; nofun)]
  rfl

section
variable (h : Scanned host files snapshot log)
include h

/-- The snapshot that a repair writes stands for the one before it. -/
theorem Scanned.mended : ∃ after, scanSnapshot host
        (some (utf8 (jsonText (repairedSnapshot (scan host files))))) = after ∧
      after.unsupportedError = none ∧ after.invalidSnapshot = false ∧
      after.snapshotEvents = snapshot.snapshotEvents.map asJson ∧
      Mended snapshot.invalidSnapshot snapshot.trustedSnapshotSeq after.trustedSnapshotSeq := by
  obtain ⟨hsupported, hvalid, hsame, hevents⟩ :=
    scanSnapshot_repairedSnapshot h.snapshot_good h.scan_eq.1
  exact ⟨_, rfl, hsupported, hvalid, hevents, h.snapshot_good.safe, hsame, h.snapshot_good.invalid⟩

theorem scanned_repair (hcorrupt : (scan host files).diagnosis.status = .corrupt) :
    ∃ after log', Scanned host (repair host files) after log' ∧ log'.corrupt = false ∧
      after.snapshotEvents = snapshot.snapshotEvents.map asJson ∧
      log'.validLogEvents = log.validLogEvents.map asJson := by
  obtain ⟨after, hafter, hsupported, hvalid, hevents, hmended⟩ := h.mended
  have hsafe := hmended.same.isSafeInteger_eq.trans hmended.safe
  have hvalidLog := h.scan_eq.2.1
  obtain ⟨log', hlog, hclean, hlogEvents⟩ := scanLog_repairedLog hsafe
    (hvalidLog ▸ h.log_good.verified)
    (hvalidLog ▸ h.log_good.numbered.congr hmended.same.symm.increment)
  rw [repair_of_corrupt hcorrupt]
  exact ⟨after, log', ⟨hafter, hsupported, by rw [hvalid]; exact hlog⟩, hclean, hevents,
    by rw [hlogEvents, hvalidLog]⟩

theorem scanned_crash : ∃ after log', Scanned host
        ⟨some (utf8 (jsonText (repairedSnapshot (scan host files)))), files.log⟩ after log' ∧
      after.snapshotEvents = snapshot.snapshotEvents.map asJson ∧
      log'.validLogEvents = log.validLogEvents := by
  obtain ⟨after, hafter, hsupported, hvalid, hevents, hmended⟩ := h.mended
  obtain ⟨log', hlog, halike⟩ := scanLog_alike hmended h.log_eq
  exact ⟨after, log', ⟨hafter, hsupported, by rw [hvalid]; exact hlog⟩, hevents, halike.valid⟩

end

/-! ## Appending -/

section Event
variable (input : AppendInput N) (seq now : N)

theorem wellKeyed_unsigned : JsValue.WellKeyed (.object (input.unsigned seq now)) := by
  refine wellKeyed_setField (wellKeyed_setField (wellKeyed_setField input.wellKeyed _
    (wellKeyed_number _)) _ (wellKeyed_number _)) _ ?_
  split
  · trivial
  · trivial
  · exact wellKeyed_getField input.wellKeyed _

theorem checksum_not_mem_unsigned : js "checksum" ∉ (input.unsigned seq now).map Prod.fst := by
  intro h
  obtain ⟨f, hf, hkey⟩ := mem_map.mp h
  rcases mem_setField hf with rfl | hf
  · exact absurd hkey (show js "ts" ≠ js "checksum" by decide)
  rcases mem_setField hf with rfl | hf
  · exact absurd hkey (show js "indexSeq" ≠ js "checksum" by decide)
  rcases mem_setField hf with rfl | hf
  · exact absurd hkey (show js "version" ≠ js "checksum" by decide)
  · exact input.noChecksum (hkey ▸ mem_map_of_mem hf)

theorem property_event (k : JsString) (h : k ≠ js "checksum") (hts : k ≠ js "ts") :
    property (input.event host seq now) k =
      if k = js "indexSeq" then .number (increment seq)
      else if k = js "version" then .number JsNumber.one else getField input.fields k := by
  rw [AppendInput.event, property, getField_setField, if_neg h, AppendInput.unsigned,
    getField_setField, if_neg hts, getField_setField, getField_setField]

/-- The event that is appended passes the checks of a scan. -/
theorem verified_event : Verified host (input.event host seq now) where
  wellKeyed := wellKeyed_setField (wellKeyed_unsigned input seq now) _ trivial
  supported := by
    rw [unsupportedVersion_eq_none]
    intro k hk n hn
    rcases mem_pair.mp hk with rfl | rfl
    · rw [property_event _ _ _ _ (by decide) (by decide), if_neg (by decide), if_pos rfl] at hn
      obtain rfl := number.inj hn
      rw [JsNumber.exceedsOne_one, Bool.and_false]
    · rw [property_event _ _ _ _ (by decide) (by decide), if_neg (by decide), if_neg (by decide)]
        at hn
      have hne : ∀ f ∈ input.fields, f.1 ≠ js "stateVersion" := fun f hf heq =>
        input.noStateVersion (heq ▸ mem_map_of_mem hf)
      have hnone : getField input.fields (js "stateVersion") = .undefined := by
        rw [getField, lookup_eq_none_of_forall hne]
        rfl
      cases hnone.symm.trans hn
  checksum := by
    rw [AppendInput.event, checksumMatches, getField_setField, if_pos rfl,
      eraseField_setField _ (checksum_not_mem_unsigned input seq now)]
    simp [TeamTasks.equalsText]

end Event

theorem hasSeq_event (input : AppendInput N) {seq : N} (now : N) (h : SameNumber (increment seq) n)
    : HasSeq (input.event host seq now) n :=
  ⟨_, by rw [property_event _ _ _ _ (by decide) (by decide), if_pos rfl], h⟩

theorem LogScan.Good.clean_of_finish {invalidSnapshot : Bool} {trusted : N} {st : LogScan N}
    (h : st.Good host invalidSnapshot trusted) {terminal : JsString}
    (hclean : (st.finish trusted terminal).corrupt = false) :
    terminal = [] ∧ st.Clean trusted ∧ st.finish trusted terminal = st := by
  have hterminal : terminal = [] := by
    by_contra hne
    rw [LogScan.finish_eq, if_neg hne] at hclean
    cases hclean
  have hclosed : (st.stopsShort trusted && !st.tailStarted) = false := by
    rw [← Bool.not_eq_true]
    intro hshort
    rw [LogScan.finish_eq, if_pos hterminal, LogScan.close, if_pos hshort] at hclean
    cases hclean
  have hfinish : st.finish trusted terminal = st := by
    rw [LogScan.finish_eq, if_pos hterminal, LogScan.close, hclosed]
    rfl
  rw [hfinish] at hclean
  refine ⟨hterminal, ⟨hclean, ?_⟩, hfinish⟩
  cases hstarted : st.tailStarted with
  | true =>
    have hlog := h.corrupt
    rw [hclean, eq_comm, Bool.or_eq_false_iff] at hlog
    exact h.reached hstarted hlog.2
  | false => rwa [hstarted, Bool.not_false, Bool.and_true] at hclosed

section
variable (h : Scanned host files snapshot log)
include h

/-- The log of healthy files: every line has ended, and nothing was wrong with it. -/
theorem Scanned.clean (hclean : log.corrupt = false) :
    snapshot.invalidSnapshot = false ∧ log.Clean snapshot.trustedSnapshotSeq ∧
      ∃ front, (ofBytes (files.log.getD [])).lines = front ++ [[]] ∧
        LogScan.lines host false snapshot.trustedSnapshotSeq
          ⟨false, false, false, none, increment snapshot.trustedSnapshotSeq, []⟩ front =
            (log, none) := by
  have hvalid : snapshot.invalidSnapshot = false := by
    have hcorrupt := h.log_good.corrupt
    rw [hclean, eq_comm, Bool.or_eq_false_iff] at hcorrupt
    exact hcorrupt.1
  have hlog := h.log_eq
  rw [hvalid] at hlog
  refine ⟨hvalid, ?_⟩
  obtain ⟨hnone, rfl⟩ | ⟨bytes, mid, hsome, hlines, rfl⟩ := scanLog_eq_none hlog
  · exact ⟨⟨rfl, rfl⟩, [], by rw [hnone]; rfl, rfl⟩
  · have hmid := (LogScan.good_start host false snapshot.trustedSnapshotSeq).lines
      (JsNumber.isFinite_of_isSafeInteger _ h.snapshot_good.safe) (ofBytes bytes).lines.dropLast
    rw [hlines] at hmid
    obtain ⟨hterminal, hclean', hfinish⟩ := hmid.clean_of_finish hclean
    rw [hfinish]
    refine ⟨hclean', _, ?_, hlines⟩
    have hlast := dropLast_concat_getLast (lines_ne_nil (ofBytes bytes))
    rw [getLast?_eq_some_getLast (lines_ne_nil _), Option.getD_some] at hterminal
    rw [hsome, Option.getD_some, ← hterminal, hlast]

theorem Scanned.replay_eq (hclean : log.corrupt = false) : replay host files =
      .ok ⟨(scan host files).events, (files.log.map length).getD 0, false⟩ := by
  have hstatus := h.healthy_iff.mpr hclean
  simp only [replay, h.scan_eq.2.2.1, hstatus]
  rfl

theorem Scanned.sameNumber_indexSeq (offset : Nat) (spoilt : Bool) :
    SameNumber (increment (OpenIndex.indexSeq ⟨(scan host files).events, offset, spoilt⟩))
      log.expected := by
  have hgood := h.log_good
  rw [OpenIndex.indexSeq, h.events_eq, hgood.expected]
  rcases eq_nil_or_concat log.validLogEvents with hnil | ⟨front, event, hevents⟩
  · obtain ⟨last, hlast, hsame⟩ := h.snapshot_good.accepted
    rw [hnil, append_nil, lastIndexSeq_of_accepted hlast]
    exact hsame.increment
  · rw [concat_eq_append] at hevents
    have hnumbered := hgood.numbered
    rw [hevents, numbered_append_singleton] at hnumbered
    obtain ⟨-, n, hn, hsame⟩ := hnumbered
    have hlast : lastIndexSeq (snapshot.snapshotEvents ++ (front ++ [event])) (.number zero) =
        .number n := by
      rw [lastIndexSeq, ← append_assoc, getLast?_concat, Option.map_some, hn]
    rw [hevents, hlast, length_append, length_singleton, Function.iterate_succ_apply']
    exact hsame.increment

/-- **Healthy files with the next event added are healthy.** -/
theorem scanned_appendLine (hclean : log.corrupt = false) {event : JsValue N}
    (hevent : Verified host event) (hseq : HasSeq event log.expected) :
    ∃ log', Scanned host (files.appendLine (jsonText event)) snapshot log' ∧
      log'.corrupt = false ∧ log'.validLogEvents = log.validLogEvents ++ [asJson event] := by
  obtain ⟨hvalid, hclean, front, hfront, hlines⟩ := h.clean hclean
  have hgood := h.log_good
  rw [hvalid] at hgood
  obtain ⟨log', hline, hclean', hevents⟩ :=
    LogScan.line_jsonText hgood hclean h.snapshot_good.safe hevent hseq
  have hlines' : LogScan.lines host false snapshot.trustedSnapshotSeq
      ⟨false, false, false, none, increment snapshot.trustedSnapshotSeq, []⟩
        (front ++ [jsonText event]) = (log', none) := by
    rw [LogScan.lines_append, hlines]
    simp only [LogScan.lines, hline]
  refine ⟨log', ⟨h.snapshot_eq, h.supported, ?_⟩, hclean'.corrupt, hevents⟩
  rw [hvalid, SessionFiles.appendLine, scanLog]
  simp only [lines_append_line hfront (oneLine_jsonText event), dropLast_concat, hlines',
    getLast?_concat, Option.getD_some, hclean'.finish]

end

theorem exists_tailLine (hevent : Verified host event)
    (hseq : property event (js "indexSeq") = .number n) (hfinite : JsNumber.isFinite n = true)
    (index : OpenIndex N) (snapshotSeq : N) :
    ∃ read, index.tailLine host snapshotSeq false (jsonText event) = .ok read := by
  have hparse : parse (jsonText event) = some (asJson event) := by
    rw [parse_jsonText hevent.wellKeyed, orNull_of_ne hevent.asJson.ne_undefined]
  have hnumber : property (asJson event) (js "indexSeq") =
      .number (JsNumber.read (JsNumber.text n)) := by
    rw [property_asJson hevent.wellKeyed, hseq, asJson_number_of_finite hfinite]
  have hobject : asJson event ≠ .null := fun hnull => by
    rw [hnull] at hnumber
    cases hnumber
  rw [OpenIndex.tailLine, if_neg hevent.jsonText_ne_nil]
  simp only [hparse, hevent.asJson.supported, hnumber, Bool.false_eq_true, if_false, looseLe]
  cases le (JsNumber.read (JsNumber.text n)) snapshotSeq with
  | true => exact ⟨_, rfl⟩
  | false =>
    dsimp only
    split_ifs
    · exact ⟨_, rfl⟩
    · exact ⟨_, rfl⟩

/-- What was added to the files is read, or they are replayed. -/
theorem exists_tail {snapshot' : SnapshotScan N} {log' : LogScan N}
    (h : Scanned host (files.appendLine (jsonText event)) snapshot' log')
    (hclean : log'.corrupt = false) (hevent : Verified host event)
    (hseq : property event (js "indexSeq") = .number n) (hfinite : JsNumber.isFinite n = true)
    {index : OpenIndex N} (hoffset : index.logOffset = (files.log.map length).getD 0) :
    ∃ index', index.tail host (files.appendLine (jsonText event)) = .ok index' := by
  have hreplay := h.replay_eq hclean
  have hlength : index.logOffset = (files.log.getD []).length := by
    rw [hoffset]
    cases files.log <;> rfl
  have hbytes : utf8 (jsonText event ++ [LF]) = utf8 (jsonText event) ++ [0x0a] :=
    utf8_append (oneLine_jsonText event).1 ((wellFormed_cons (by decide) []).mpr trivial)
  have hempty : (ofBytes []).lines = [] ++ [[]] := rfl
  have hlines : (ofBytes (utf8 (jsonText event ++ [LF]))).lines = [jsonText event, []] :=
    lines_append_line hempty (oneLine_jsonText event)
  have hsplit : ((utf8 (jsonText event ++ [LF])).splitOn 0x0a).getLast?.getD [] = [] := by
    rw [hbytes, splitOn_append_cons_self, splitOn_nil, getLast?_concat]
    rfl
  obtain ⟨⟨read, corrupt⟩, hread⟩ := exists_tailLine hevent hseq hfinite
    { index with logOffset := index.logOffset + (utf8 (jsonText event ++ [LF])).length }
    index.indexSeq
  have htail : OpenIndex.tailLines host index.indexSeq
      { index with logOffset := index.logOffset + (utf8 (jsonText event ++ [LF])).length } false
      [jsonText event, []] = .ok (read, corrupt) := by
    rw [OpenIndex.tailLines, hread]
    rfl
  unfold OpenIndex.tail
  rw [SessionFiles.appendLine] at hreplay ⊢
  rw [hlength] at htail
  simp only [length_append, hlength, not_lt.mpr (Nat.le_add_right _ _), if_false,
    drop_left, hsplit, length_nil, Nat.sub_zero, take_length, hlines, htail]
  split_ifs
  · exact ⟨_, hreplay⟩
  · exact ⟨_, rfl⟩

/-- **Events can be appended to healthy files.** -/
theorem append_of_healthy (hstatus : (scan host files).diagnosis.status = .healthy)
    (input : AppendInput N) (now : N) :
    ∃ event files' index, append host files input now = .ok (event, files', index) := by
  obtain ⟨snapshot, log, h⟩ := exists_scanned (by rw [hstatus]; nofun)
  have hclean := h.healthy_iff.mp hstatus
  obtain ⟨index, hreplay, hoffset, hspoilt, hnext⟩ : ∃ index, replay host files = .ok index ∧
      index.logOffset = (files.log.map length).getD 0 ∧ index.corruptSuffix = false ∧
      SameNumber (increment index.indexSeq) log.expected :=
    ⟨_, h.replay_eq hclean, rfl, rfl, h.sameNumber_indexSeq _ _⟩
  have hevent : Verified host (input.event host index.indexSeq now) := verified_event input _ now
  obtain ⟨n, hn, hsame⟩ : HasSeq (input.event host index.indexSeq now) log.expected :=
    hasSeq_event input now hnext
  obtain ⟨log', hadded, hclean', -⟩ := scanned_appendLine h hclean hevent ⟨n, hn, hsame⟩
  obtain ⟨index', htail⟩ := exists_tail hadded hclean' hevent hn hsame.left hoffset
  unfold append
  simp only [hreplay, hspoilt, Bool.false_eq_true, if_false, htail]
  split_ifs
  · simp only [rotate, hadded.replay_eq hclean']
    exact ⟨_, _, _, rfl⟩
  · exact ⟨_, _, _, rfl⟩

end Scanned

/-- The files are healthy, their events have these texts, and further ones can be appended. -/
structure InService (host : SessionHost N) (texts : List JsString) (files : SessionFiles) :
    Prop where
  healthy : (scan host files).diagnosis.status = .healthy
  events : (scan host files).events.map jsonText = texts
  appends : ∀ input now, ∃ event files' index,
    append host files input now = .ok (event, files', index)

theorem inService_of_scanned {files : SessionFiles} {snapshot : SnapshotScan N} {log : LogScan N}
    (h : Scanned host files snapshot log) (hclean : log.corrupt = false) :
    InService host ((snapshot.snapshotEvents ++ log.validLogEvents).map jsonText) files where
  healthy := h.healthy_iff.mpr hclean
  events := by rw [h.events_eq]
  appends := append_of_healthy (h.healthy_iff.mpr hclean)

omit [JsReal N] [JsSequence N] in
theorem map_jsonText_asJson (events : List (JsValue N)) :
    (events.map asJson).map jsonText = events.map jsonText := by
  rw [map_map]
  exact map_congr_left fun event _ => jsonText_asJson event

/-- Whatever the damage, a repair puts the files back in service. -/
theorem Scanned.inService_repair {files : SessionFiles} {snapshot : SnapshotScan N}
    {log : LogScan N} (h : Scanned host files snapshot log) :
    InService host ((scan host files).events.map jsonText) (repair host files) := by
  rw [h.events_eq]
  cases hclean : log.corrupt with
  | false =>
    rw [repair_of_healthy (h.healthy_iff.mpr hclean)]
    exact inService_of_scanned h hclean
  | true =>
    obtain ⟨after, log', hrepaired, hclean', hevents, hlogEvents⟩ :=
      scanned_repair h (h.corrupt_eq_true.mpr hclean)
    have hservice := inService_of_scanned hrepaired hclean'
    rwa [hevents, hlogEvents, ← map_append, map_jsonText_asJson] at hservice

section
variable {files : SessionFiles} (h : (scan host files).diagnosis.status = .corrupt)
include h

theorem events_repair :
    (scan host (repair host files)).events = (scan host files).events.map asJson := by
  obtain ⟨snapshot, log, hscanned⟩ := exists_scanned (by rw [h]; nofun)
  obtain ⟨after, log', hrepaired, -, hevents, hlogEvents⟩ := scanned_repair hscanned h
  rw [hrepaired.events_eq, hscanned.events_eq, hevents, hlogEvents, map_append]

theorem exists_scanned_repairUpTo (writes : Nat) :
    ∃ snapshot log, Scanned host (repairUpTo host files writes) snapshot log ∧
      (scan host (repairUpTo host files writes)).events.map jsonText =
        (scan host files).events.map jsonText := by
  obtain ⟨snapshot, log, hscanned⟩ := exists_scanned (by rw [h]; nofun)
  rw [repairUpTo, repairWrites, if_pos h]
  match writes with
  | 0 => exact ⟨snapshot, log, hscanned, rfl⟩
  | 1 =>
    obtain ⟨after, log', hcrash, hevents, hlogEvents⟩ := scanned_crash hscanned
    refine ⟨after, log', hcrash, ?_⟩
    have htexts : (after.snapshotEvents ++ log'.validLogEvents).map jsonText =
        (scan host files).events.map jsonText := by
      rw [hscanned.events_eq, hevents, hlogEvents, map_append, map_append, map_jsonText_asJson]
    exact hcrash.events_eq ▸ htexts
  | writes + 2 =>
    obtain ⟨after, log', hrepaired, -, -, -⟩ := scanned_repair hscanned h
    have hevents := congrArg (map jsonText) (events_repair h)
    rw [map_jsonText_asJson] at hevents
    rw [repair_of_corrupt h] at hrepaired hevents
    rw [take_of_length_le (Nat.le_add_left 2 writes)]
    exact ⟨after, log', hrepaired, hevents⟩

end

/-- **A repair keeps the valid prefix and restores service, also after a repair that was cut
off.**  Only numbers that JSON does not have are not kept. -/
theorem repair_keeps_prefix (host : SessionHost N) (files : SessionFiles)
    (h : (scan host files).diagnosis.status = .corrupt) :
    (scan host (repair host files)).events = (scan host files).events.map asJson ∧
      InService host ((scan host files).events.map jsonText) (repair host files) ∧
      ∀ writes, InService host ((scan host files).events.map jsonText)
        (repair host (repairUpTo host files writes)) := by
  obtain ⟨snapshot, log, hscanned⟩ := exists_scanned (by rw [h]; nofun)
  refine ⟨events_repair h, hscanned.inService_repair, fun writes => ?_⟩
  obtain ⟨snapshot', log', hcut, htexts⟩ := exists_scanned_repairUpTo h writes
  exact htexts ▸ hcut.inService_repair

/-! ## A number that JSON does not have -/

/-- Natural numbers, and an infinite one, which other numerals are read as. -/
inductive Number where
  | finite (n : Nat)
  | infinite
  deriving DecidableEq

namespace Number
variable {n : Number}

def isFinite : Number → Bool
  | finite _ => true
  | infinite => false

/-- A test that an infinite number has a fixed answer to. -/
def test (p : Nat → Bool) (ofInfinite : Bool) : Number → Bool
  | finite n => p n
  | infinite => ofInfinite

def text : Number → JsString
  | finite n => ofNat n
  | infinite => js "Infinity"

def read (s : JsString) : Number := if s.all isDigit then finite (parseNat s) else infinite

theorem exists_finite (h : n.isFinite = true) : ∃ k, n = finite k := by
  cases n with
  | finite k => exact ⟨k, rfl⟩
  | infinite => cases h

theorem read_text (h : n.isFinite = true) : read n.text = n := by
  obtain ⟨k, rfl⟩ := exists_finite h
  rw [text, read, if_pos (all_eq_true.mpr (isDigit_of_mem_ofNat k)), parseNat_ofNat]

instance : JsNumber Number where
  one := finite 1
  isFinite := isFinite
  isSafeInteger := test (fun n => n < 9007199254740992) false
  isFalsy := test (fun n => n == 0) false
  exceedsOne := test (fun n => 1 < n) true
  text := text
  read := read
  isFinite_one := rfl
  isFinite_of_isSafeInteger n h := by
    cases n with
    | finite n => rfl
    | infinite => cases h
  exceedsOne_one := rfl
  read_text_one := read_text rfl
  isNumeral_text n h := by
    obtain ⟨k, rfl⟩ := exists_finite h
    exact JsNumber.isNumeral_text k rfl
  isFinite_read_text n h := by rw [read_text h, h]
  text_read_text n h := by rw [read_text h]
  isSafeInteger_read_text n h := by rw [read_text h]
  isFalsy_read_text n h := by rw [read_text h]
  exceedsOne_read_text n h := by rw [read_text h]

def value : Number → ℚ
  | finite n => n
  | infinite => 0

def lt : Number → Number → Bool
  | finite m, finite n => m < n
  | finite _, infinite => true
  | infinite, _ => false

instance : JsReal Number where
  value := value
  isInteger := isFinite
  isNegative _ := false
  lt := lt
  lengthBelow l := test (fun n => l < n) true
  lengthAbove l := test (fun n => n < l) false
  isFinite_of_isInteger _ h := h
  text_eq_text_iff m n hm hn := by
    obtain ⟨j, rfl⟩ := exists_finite hm
    obtain ⟨k, rfl⟩ := exists_finite hn
    exact JsReal.text_eq_text_iff j k rfl rfl
  isInteger_iff n h := by
    obtain ⟨k, rfl⟩ := exists_finite h
    exact iff_of_true rfl ⟨k, (Int.cast_natCast k).symm⟩
  isNegative_iff n h := by
    obtain ⟨k, rfl⟩ := exists_finite h
    exact iff_of_false Bool.false_ne_true (not_lt.mpr k.cast_nonneg)
  lt_iff m n hm hn := by
    obtain ⟨j, rfl⟩ := exists_finite hm
    obtain ⟨k, rfl⟩ := exists_finite hn
    simp [lt, value]
  lengthBelow_iff l n h := by
    obtain ⟨k, rfl⟩ := exists_finite h
    simp [test, value]
  lengthAbove_iff l n h := by
    obtain ⟨k, rfl⟩ := exists_finite h
    simp [test, value]

instance : JsSequence Number where
  zero := finite 0
  two := finite 2
  increment
    | finite n => finite (n + 1)
    | infinite => infinite
  le m n := m == n || lt m n
  same m n := m == n
  exceedsTwo := test (fun n => 2 < n) true
  -- no event of the samples is numbered by anything else
  convertedLe _ _ := some false
  isSafeInteger_zero := rfl
  value_zero := by simp [JsReal.value, value]
  isFinite_two := rfl
  value_two := by simp [JsReal.value, value]
  isFinite_increment n h := by
    obtain ⟨k, rfl⟩ := exists_finite h
    rfl
  value_increment n h := by
    cases n with
    | finite k => simp [JsReal.value, value]
    | infinite => cases h
  increment_congr m n hm hn h := by
    obtain ⟨j, rfl⟩ := exists_finite hm
    obtain ⟨k, rfl⟩ := exists_finite hn
    simpa [JsReal.value, value] using h
  le_iff m n hm hn := by
    obtain ⟨j, rfl⟩ := exists_finite hm
    obtain ⟨k, rfl⟩ := exists_finite hn
    simp [JsReal.value, value, lt, le_iff_eq_or_lt]
  le_congr k m n hm hn h := by
    obtain ⟨i, rfl⟩ := exists_finite hm
    obtain ⟨j, rfl⟩ := exists_finite hn
    obtain rfl : i = j := by simpa [JsReal.value, value] using h
    rfl
  same_iff m n hn := by
    obtain ⟨k, rfl⟩ := exists_finite hn
    cases m with
    | finite j => simp [JsReal.value, value, JsNumber.isFinite, isFinite]
    | infinite => simp [JsNumber.isFinite, isFinite]
  exceedsTwo_iff n h := by
    obtain ⟨k, rfl⟩ := exists_finite h
    simp [JsReal.value, value, test]
  convertedLe_congr _ _ _ _ _ _ := rfl

end Number

section Sample
variable (sha256 : JsString → JsString)

def sampleHost : SessionHost Number := ⟨js "s", js "l", sha256, js "t", id⟩

/-- The event without its checksum, with the texts of its fields. -/
def sampleFields : List (JsString × JsString × JsValue Number) :=
  [(js "version", js "1", .number (.finite 1)), (js "indexSeq", js "1", .number (.finite 1)),
    (js "pid", js "1e999", .number .infinite)]

def sampleChecksum : JsString :=
  sessionIndexChecksum (sampleHost sha256) (sampleFields.map fun f => (f.1, f.2.2))

def sampleEventFields : List (JsString × JsString × JsValue Number) :=
  sampleFields ++ [(js "checksum", jsonStringify (sampleChecksum sha256),
    .string (sampleChecksum sha256))]

def sampleEvent : JsValue Number :=
  .object ((sampleEventFields sha256).map fun f => (f.1, f.2.2))

def sampleLine : JsString :=
  js "\x7b" ++ joinComma ((sampleEventFields sha256).map fun f =>
    jsonStringify f.1 ++ js ":" ++ f.2.1) ++ js "\x7d"

/-- A log of one event, and the start of another. -/
def sampleFiles : SessionFiles := ⟨none, some (utf8 (sampleLine sha256 ++ LF :: js "\x7b"))⟩

theorem parse_sampleLine : parse (sampleLine sha256) = some (sampleEvent sha256) := by
  have hfields : ∀ f ∈ sampleEventFields sha256, Completes f.2.1 f.2.2 := by
    simp only [sampleEventFields, sampleFields, cons_append, nil_append, forall_mem_cons]
    have hnumeral : ∀ s, ((s.foldlM NumeralState.step .start).any NumeralState.complete) = true →
        IsNumeral s := fun s hs => (Option.any_eq_true _ _).mp hs
    exact ⟨completes_numeral (hnumeral _ (by decide)), completes_numeral (hnumeral _ (by decide)),
      completes_numeral (hnumeral _ (by decide)), completes_string _, nofun⟩
  have hkeys : [js "version", js "indexSeq", js "pid", js "checksum"].Pairwise KeyBefore := by
    decide
  have hordered : KeysOrdered ([] ++ (sampleEventFields sha256).map fun f => (f.1, f.2.2)) :=
    keysOrdered_of_keys rfl hkeys
  obtain ⟨s, hs, hends⟩ := completes_object hfields []
  rw [spreadFields_of_ordered hordered] at hends
  rw [parse, sampleLine, hs]
  exact hends.result

theorem oneLine_sampleLine : OneLine (sampleLine sha256) := by
  refine ((oneLine_of_all (by rfl)).append (oneLine_joinComma ?_)).append (oneLine_of_all (by rfl))
  simp only [sampleEventFields, sampleFields, cons_append, nil_append, map_cons,
    map_nil, forall_mem_cons]
  exact ⟨oneLine_of_all (by rfl), oneLine_of_all (by rfl), oneLine_of_all (by rfl),
    (oneLine_of_all (by rfl)).append (oneLine_jsonStringify _), nofun⟩

theorem checksumMatches_sampleEvent :
    checksumMatches (sampleHost sha256) (sampleEvent sha256) = true := by
  change TeamTasks.equalsText (sampleChecksum sha256) (.string (sampleChecksum sha256) :
    JsValue Number) = true
  simp [TeamTasks.equalsText]

theorem scanned_sample : Scanned (sampleHost sha256) (sampleFiles sha256)
    ⟨[], zero, zero, false, none⟩ ⟨true, true, true, none, .finite 2, [sampleEvent sha256]⟩ where
  snapshot_eq := rfl
  supported := rfl
  log_eq := by
    have hline := oneLine_sampleLine sha256
    have hbrace : OneLine (js "\x7b") := oneLine_of_all (by rfl)
    have hlines : (ofBytes (utf8 (sampleLine sha256 ++ LF :: js "\x7b"))).lines =
        [sampleLine sha256, js "\x7b"] := by
      have hwell : WellFormed (sampleLine sha256 ++ LF :: js "\x7b") :=
        (wellFormed_append_cons (by decide) _ _).mpr ⟨hline.1, hbrace.1⟩
      rw [ofBytes_utf8 hwell, lines_append_LF, lines_of_not_mem hline.2]
      rfl
    have hread : LogScan.line ⟨false, false, false, none, .finite 1, []⟩ (sampleHost sha256) false
        zero (sampleLine sha256) =
          .ok ⟨false, false, true, none, .finite 2, [sampleEvent sha256]⟩ := by
      have hne : sampleLine sha256 ≠ [] := cons_ne_nil _ _
      have hsupported : unsupportedVersion JsNumber.exceedsOne (sampleEvent sha256) = none := rfl
      rw [LogScan.line, if_neg hne]
      simp only [parse_sampleLine, hsupported, checksumMatches_sampleEvent, if_true]
      rfl
    have hscan : LogScan.lines (sampleHost sha256) false zero
        ⟨false, false, false, none, increment zero, []⟩ [sampleLine sha256, js "\x7b"].dropLast =
          (⟨false, false, true, none, .finite 2, [sampleEvent sha256]⟩, none) := by
      change LogScan.lines (sampleHost sha256) false zero
        ⟨false, false, false, none, .finite 1, []⟩ [sampleLine sha256] = _
      rw [LogScan.lines, hread]
      rfl
    rw [sampleFiles, scanLog]
    simp only [hlines, hscan]
    rfl

theorem status_sample : (scan (sampleHost sha256) (sampleFiles sha256)).diagnosis.status =
    .corrupt := (scanned_sample sha256).corrupt_eq_true.mpr rfl

theorem events_sample :
    (scan (sampleHost sha256) (sampleFiles sha256)).events = [sampleEvent sha256] :=
  (scanned_sample sha256).events_eq

end Sample

/-- An infinite number is read back as null. -/
theorem events_of_repair_differ :
    (scan (sampleHost Sha256.hexDigest) (sampleFiles Sha256.hexDigest)).diagnosis.status =
        .corrupt ∧ (scan (sampleHost Sha256.hexDigest)
        (repair (sampleHost Sha256.hexDigest) (sampleFiles Sha256.hexDigest))).events ≠
      (scan (sampleHost Sha256.hexDigest) (sampleFiles Sha256.hexDigest)).events := by
  have hstatus := status_sample Sha256.hexDigest
  refine ⟨hstatus, ?_⟩
  rw [events_repair hstatus, events_sample]
  intro h
  have hpid := congrArg (map fun event => property event (js "pid")) h
  cases hpid

theorem repair_keeps_prefix_sample :
    (scan (sampleHost Sha256.hexDigest) (repair (sampleHost Sha256.hexDigest)
        (sampleFiles Sha256.hexDigest))).events =
      (scan (sampleHost Sha256.hexDigest) (sampleFiles Sha256.hexDigest)).events.map asJson :=
  And.left <| repair_keeps_prefix (sampleHost Sha256.hexDigest) (sampleFiles Sha256.hexDigest)
    (status_sample Sha256.hexDigest)

end SessionScan
end GajaeCode
