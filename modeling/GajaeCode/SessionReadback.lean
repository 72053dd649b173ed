import GajaeCode.SessionScan

/-! # Reading back what a repair writes

A repair writes the events that a scan has verified as `JSON.stringify` writes them.  Read
back, they are as they were but for numbers that JSON does not have, and their checksums hold:
those are taken of the text.  So a scan takes the snapshot and the log that a repair writes.

`SameNumber` is what JSON keeps of a number.  `SnapshotScan.Good` and `LogScan.Good` say what
holds of a scan after every line, `LogScan.Clean` what holds while it meets its own lines.
-/
namespace GajaeCode
open JsString JsValue JsonParse List

namespace SessionScan
open JsSequence

variable {N : Type} [JsNumber N] [JsReal N] [JsSequence N] {host : SessionHost N}

/-- The numbers are finite, and have one value. -/
structure SameNumber (m n : N) : Prop where
  left : JsNumber.isFinite m = true
  right : JsNumber.isFinite n = true
  value : JsReal.value m = JsReal.value n

section
omit [JsSequence N]

theorem SameNumber.symm {m n : N} (h : SameNumber m n) : SameNumber n m :=
  ⟨h.right, h.left, h.value.symm⟩

theorem SameNumber.trans {k m n : N} (h : SameNumber k m) (h' : SameNumber m n) :
    SameNumber k n := ⟨h.left, h'.right, h.value.trans h'.value⟩

/-- A number is the same when it is written and read. -/
theorem sameNumber_read {n : N} (h : JsNumber.isFinite n = true) :
    SameNumber (JsNumber.read (JsNumber.text n)) n :=
  ⟨JsNumber.isFinite_read_text n h, h, (JsReal.text_eq_text_iff _ _
    (JsNumber.isFinite_read_text n h) h).mp (JsNumber.text_read_text n h)⟩

end

/-- Adding one sees only the value. -/
theorem SameNumber.increment {m n : N} (h : SameNumber m n) :
    SameNumber (increment m) (increment n) :=
  ⟨isFinite_increment m h.left, isFinite_increment n h.right,
    increment_congr m n h.left h.right h.value⟩

theorem same_eq_true_iff {m n : N} (h : JsNumber.isFinite n = true) :
    same m n = true ↔ SameNumber m n := by
  rw [same_iff m n h]
  exact ⟨fun ⟨hm, hvalue⟩ => ⟨hm, h, hvalue⟩, fun hsame => ⟨hsame.left, hsame.value⟩⟩

theorem SameNumber.same_congr {m n : N} (h : SameNumber m n) (k : N) : same k m = same k n := by
  rw [Bool.eq_iff_iff, same_eq_true_iff h.left, same_eq_true_iff h.right]
  exact ⟨fun hk => hk.trans h, fun hk => hk.trans h.symm⟩

theorem looseLe_congr {m n : N} (h : SameNumber m n) (v : JsValue N) :
    looseLe v m = looseLe v n := by
  unfold looseLe
  cases v with
  | number k => exact congrArg some (le_congr k m n h.left h.right h.value)
  | _ => exact convertedLe_congr _ m n h.left h.right h.value

/-- The number after a safe one is not at most it. -/
theorem not_le_of_increment {m n : N} (hn : JsNumber.isSafeInteger n = true)
    (h : SameNumber m (increment n)) : le m n = false := by
  have hfinite := JsNumber.isFinite_of_isSafeInteger n hn
  rw [← Bool.not_eq_true, le_iff m n h.left hfinite, h.value, value_increment n hn]
  exact not_le.mpr (lt_add_one _)

theorem isFinite_zero : JsNumber.isFinite (zero : N) = true :=
  JsNumber.isFinite_of_isSafeInteger _ isSafeInteger_zero

omit [JsReal N] [JsSequence N] in
/-- A property of what is read back is the property, read back. -/
theorem property_asJson {event : JsValue N} (h : event.WellKeyed) (k : JsString) :
    property (asJson event) k = asJson (property event k) := by
  cases event with
  | object fields =>
    exact getField_fieldsAsJson (wellKeyed_object.mp h).1.nodup k
  | number n =>
    rw [asJson_number]
    split_ifs <;> rfl
  | _ => rfl

/-- The version of an event is supported and its checksum is right. -/
structure Verified (host : SessionHost N) (event : JsValue N) : Prop where
  wellKeyed : event.WellKeyed
  supported : unsupportedVersion JsNumber.exceedsOne event = none
  checksum : checksumMatches host event = true

section
omit [JsReal N] [JsSequence N]

/-- The version is one this code knows. -/
theorem unsupportedVersion_eq_none {exceeds : N → Bool} {event : JsValue N} :
    unsupportedVersion exceeds event = none ↔
      ∀ k ∈ [js "version", js "stateVersion"], ∀ n, property event k = .number n →
        (JsNumber.isFinite n && exceeds n) = false := by
  rw [unsupportedVersion, findSome?_eq_none_iff]
  change (∀ v ∈ [js "version", js "stateVersion"].map (property event), _) ↔ _
  rw [forall_mem_map]
  refine forall₂_congr fun k _ => ?_
  cases property event k with
  | number n | _ => simp

/-- What is verified stays so when it is read back. -/
theorem Verified.asJson {event : JsValue N} (h : Verified host event) :
    Verified host (asJson event) := by
  refine ⟨wellKeyed_asJson h.wellKeyed, ?_, ?_⟩
  · rw [unsupportedVersion_eq_none]
    intro k hk n hn
    rw [property_asJson h.wellKeyed] at hn
    cases hversion : property event k with
    | number m =>
      have hm := unsupportedVersion_eq_none.mp h.supported k hk m hversion
      rw [hversion, asJson_number] at hn
      split_ifs at hn with hfinite
      obtain rfl := number.inj hn
      rwa [JsNumber.isFinite_read_text m hfinite, JsNumber.exceedsOne_read_text m hfinite, ← hfinite]
    | _ =>
      rw [hversion] at hn
      cases hn
  · have hchecksum := h.checksum
    cases event with
    | object fields =>
      have hnodup := (wellKeyed_object.mp h.wellKeyed).1.nodup
      change TeamTasks.equalsText (sessionIndexChecksum host (eraseField (fieldsAsJson fields) _))
        (getField (fieldsAsJson fields) _) = true
      rw [getField_fieldsAsJson hnodup, ← fieldsAsJson_eraseField, sessionIndexChecksum,
        ← asJson_object, jsonText_asJson]
      change TeamTasks.equalsText _ (getField fields _) = true at hchecksum
      cases hfield : getField fields (js "checksum") with
      | string s => rwa [hfield] at hchecksum
      | _ =>
        rw [hfield] at hchecksum
        cases hchecksum
    | _ => cases hchecksum

theorem Verified.ne_undefined {event : JsValue N} (h : Verified host event) :
    event ≠ .undefined := by
  rintro rfl
  cases h.checksum

end

/-- The event has this number, as JSON has it. -/
def HasSeq (event : JsValue N) (n : N) : Prop :=
  ∃ m, property event (js "indexSeq") = .number m ∧ SameNumber m n

/-- The events are numbered one by one from a number on. -/
def Numbered : N → List (JsValue N) → Prop
  | _, [] => True
  | n, event :: events => HasSeq event n ∧ Numbered (increment n) events

omit [JsSequence N] in
theorem HasSeq.congr {event : JsValue N} {m n : N} (h : HasSeq event m) (hsame : SameNumber m n) :
    HasSeq event n := h.imp fun _ => And.imp_right fun hk => hk.trans hsame

omit [JsSequence N] in
theorem HasSeq.asJson {event : JsValue N} {n : N} (h : HasSeq event n) (hkeys : event.WellKeyed) :
    HasSeq (asJson event) n := by
  obtain ⟨m, hm, hsame⟩ := h
  exact ⟨_, by rw [property_asJson hkeys, hm, asJson_number_of_finite hsame.left],
    (sameNumber_read hsame.left).trans hsame⟩

theorem isFinite_iterate {n : N} (h : JsNumber.isFinite n = true) (k : Nat) :
    JsNumber.isFinite (increment^[k] n) = true := by
  induction k generalizing n with
  | zero => exact h
  | succ k ih => exact ih (isFinite_increment n h)

variable {events : List (JsValue N)}

/-- Only the number counts, not how it is written. -/
theorem Numbered.congr {m n : N} (h : Numbered m events)
    (hsame : SameNumber m n) : Numbered n events := by
  induction events generalizing m n with
  | nil => trivial
  | cons event events ih => exact ⟨h.1.congr hsame, ih h.2 hsame.increment⟩

/-- A list is continued by the next number. -/
theorem numbered_append_singleton {event : JsValue N} {n : N} : Numbered n (events ++ [event]) ↔
      Numbered n events ∧ HasSeq event (increment^[events.length] n) := by
  induction events generalizing n with
  | nil => exact ⟨fun h => ⟨trivial, h.1⟩, fun h => ⟨h.2, trivial⟩⟩
  | cons first events ih =>
    rw [cons_append, Numbered, Numbered, ih, and_assoc]
    rfl

/-! ## One line of the log -/

/-- What a scan of the log has seen so far: its events are verified and numbered in a row. -/
structure LogScan.Good (host : SessionHost N) (invalidSnapshot : Bool) (trusted : N)
    (st : LogScan N) : Prop where
  corrupt : st.corrupt = (invalidSnapshot || st.logCorrupt)
  verified : ∀ event ∈ st.validLogEvents, Verified host event
  numbered : Numbered (increment trusted) st.validLogEvents
  expected : st.expected = increment^[st.validLogEvents.length] (increment trusted)
  unstarted : st.tailStarted = false → st.validLogEvents = []
  reached : st.tailStarted = true → st.logCorrupt = false → st.stopsShort trusted = false

section Lines
variable {invalidSnapshot : Bool} {trusted : N} {st : LogScan N}

theorem LogScan.good_start (host : SessionHost N) (invalidSnapshot : Bool) (trusted : N) :
    LogScan.Good host invalidSnapshot trusted
      ⟨invalidSnapshot, false, false, none, increment trusted, []⟩ where
  corrupt := (Bool.or_false _).symm
  verified _ h := absurd h not_mem_nil
  numbered := trivial
  expected := rfl
  unstarted _ := rfl
  reached h := by cases h

/-- A line that is refused spoils the log and keeps what was read. -/
theorem LogScan.Good.spoiled (h : st.Good host invalidSnapshot trusted) :
    st.spoiled.Good host invalidSnapshot trusted where
  corrupt := (Bool.or_true _).symm
  verified := h.verified
  numbered := h.numbered
  expected := h.expected
  unstarted := h.unstarted
  reached _ hlog := by cases hlog

/-- An event that the snapshot has is passed over. -/
theorem LogScan.Good.historical (h : st.Good host invalidSnapshot trusted)
    (hstarted : st.tailStarted = false) (indexSeq : JsValue N) :
    (st.historical indexSeq).Good host invalidSnapshot trusted := by
  unfold LogScan.historical
  cases indexSeq with
  | number n =>
    dsimp only
    split
    · exact h.spoiled
    · exact ⟨h.corrupt, h.verified, h.numbered, h.expected, h.unstarted,
        fun hlate => absurd (hstarted.symm.trans hlate) Bool.false_ne_true⟩
  | _ => exact h.spoiled

/-- The tail starts, where the history has reached the snapshot. -/
def LogScan.start (st : LogScan N) (trusted : N) : LogScan N :=
  if st.stopsShort trusted then { st with tailStarted := true }.spoiled
  else { st with tailStarted := true }

@[simp] theorem LogScan.start_validLogEvents (st : LogScan N) (trusted : N) :
    (st.start trusted).validLogEvents = st.validLogEvents := by
  unfold LogScan.start
  split_ifs <;> rfl

@[simp] theorem LogScan.start_expected (st : LogScan N) (trusted : N) :
    (st.start trusted).expected = st.expected := by
  unfold LogScan.start
  split_ifs <;> rfl

@[simp] theorem LogScan.start_tailStarted (st : LogScan N) (trusted : N) :
    (st.start trusted).tailStarted = true := by
  unfold LogScan.start
  split_ifs <;> rfl

/-- The tail may start; a gap before it spoils the log. -/
theorem LogScan.Good.start (h : st.Good host invalidSnapshot trusted) :
    (st.start trusted).Good host invalidSnapshot trusted := by
  unfold LogScan.start
  split_ifs with hshort
  · exact ⟨(Bool.or_true _).symm, h.verified, h.numbered, h.expected, nofun, nofun⟩
  · exact ⟨h.corrupt, h.verified, h.numbered, h.expected, nofun,
      fun _ _ => eq_false_of_ne_true hshort⟩

theorem LogScan.tail_eq (event indexSeq : JsValue N) : st.tail trusted event indexSeq =
    match indexSeq with
    | .number n =>
      if !same n st.expected then (st.start trusted).spoiled
      else if !(st.start trusted).logCorrupt then
        { st.start trusted with
          validLogEvents := st.validLogEvents ++ [event]
          expected := increment st.expected }
      else st.start trusted
    | _ => (st.start trusted).spoiled := by
  have hshort : { st with tailStarted := true }.stopsShort trusted = st.stopsShort trusted := rfl
  unfold LogScan.tail LogScan.start
  cases indexSeq <;> cases h : st.stopsShort trusted <;> simp [hshort, h, LogScan.spoiled]

section
variable (h : st.Good host invalidSnapshot trusted) (hfinite : JsNumber.isFinite trusted = true)
include h hfinite

/-- An event behind the snapshot is taken if its number is the next one. -/
theorem LogScan.Good.tail {event : JsValue N} (hevent : Verified host event) :
    (st.tail trusted event (property event (js "indexSeq"))).Good host invalidSnapshot trusted := by
  have hstart := h.start
  have hexpected : JsNumber.isFinite st.expected = true :=
    h.expected ▸ isFinite_iterate (isFinite_increment _ hfinite) _
  rw [LogScan.tail_eq]
  cases hseq : property event (js "indexSeq") with
  | number n =>
    dsimp only
    split_ifs with hsame hlog
    · exact hstart.spoiled
    · have hevent' : HasSeq event (increment^[st.validLogEvents.length] (increment trusted)) :=
        ⟨n, hseq, h.expected ▸ (same_eq_true_iff hexpected).mp (by simpa using hsame)⟩
      refine ⟨hstart.corrupt, ?_, ?_, ?_, ?_, hstart.reached⟩
      · intro e he
        rcases mem_append.mp he with he | he
        · exact h.verified e he
        · rwa [mem_singleton.mp he]
      · exact numbered_append_singleton.mpr ⟨h.numbered, hevent'⟩
      · change increment st.expected = _
        rw [h.expected, length_append, length_singleton, Function.iterate_succ_apply']
      · exact fun hlate =>
          absurd (hlate.symm.trans (st.start_tailStarted trusted)) Bool.false_ne_true
    · exact hstart
  | _ => exact hstart.spoiled

/-- A verified event, wherever its number puts it. -/
theorem LogScan.Good.event {event : JsValue N} (hevent : Verified host event) :
    (st.event invalidSnapshot trusted event).Good host invalidSnapshot trusted := by
  unfold LogScan.event
  dsimp only
  split_ifs with hfront
  · have hstarted : st.tailStarted = false := by
      rw [Bool.and_eq_true, Bool.not_eq_true'] at hfront
      exact hfront.1
    split
    · exact h.spoiled
    · exact h.historical hstarted _
    · exact h.tail hfinite hevent
  · exact h.tail hfinite hevent

/-- One line of the log, read or refused. -/
theorem LogScan.Good.line {line : JsString} {st' : LogScan N}
    (hline : st.line host invalidSnapshot trusted line = .ok st') :
    st'.Good host invalidSnapshot trusted := by
  unfold LogScan.line at hline
  split_ifs at hline with hempty
  · exact Except.ok.inj hline ▸ h
  · split at hline
    · exact Except.ok.inj hline ▸ h.spoiled
    · rename_i event hparse
      split at hline
      · cases hline
      · rename_i hsupported
        split_ifs at hline with hchecksum
        · exact Except.ok.inj hline ▸
            h.event hfinite ⟨wellKeyed_parse hparse, hsupported, hchecksum⟩
        · exact Except.ok.inj hline ▸ h.spoiled

/-- **The lines of the log keep the invariant.** -/
theorem LogScan.Good.lines (lines : List JsString) :
    (LogScan.lines host invalidSnapshot trusted st lines).1.Good host invalidSnapshot trusted := by
  induction lines generalizing st with
  | nil => exact h
  | cons line lines ih =>
    rw [LogScan.lines]
    split
    · exact h
    · rename_i st' hline
      exact ih (h.line hfinite hline)

end

/-- A log is scanned piece by piece. -/
theorem LogScan.lines_append (front back : List JsString) :
    LogScan.lines host invalidSnapshot trusted st (front ++ back) =
      match LogScan.lines host invalidSnapshot trusted st front with
      | (st', none) => LogScan.lines host invalidSnapshot trusted st' back
      | (st', some error) => (st', some error) := by
  induction front generalizing st with
  | nil => rfl
  | cons line front ih =>
    rw [cons_append, LogScan.lines, LogScan.lines]
    cases st.line host invalidSnapshot trusted line with
    | error error => rfl
    | ok st' => exact ih

/-! ## Lines that were written -/

/-- Nothing was wrong with the lines so far. -/
structure LogScan.Clean (trusted : N) (st : LogScan N) : Prop where
  corrupt : st.corrupt = false
  reached : st.stopsShort trusted = false

section
variable (hgood : st.Good host false trusted) (hclean : st.Clean trusted)
    (hsafe : JsNumber.isSafeInteger trusted = true)
include hgood hclean hsafe

/-- A line that a repair has written is taken. -/
theorem LogScan.line_jsonText {event : JsValue N} (hevent : Verified host event)
    (hseq : HasSeq event st.expected) :
    ∃ st', st.line host false trusted (jsonText event) = .ok st' ∧ st'.Clean trusted ∧
      st'.validLogEvents = st.validLogEvents ++ [asJson event] := by
  have hparse : parse (jsonText event) = some (asJson event) := by
    rw [parse_jsonText hevent.wellKeyed, orNull_of_ne hevent.asJson.ne_undefined]
  have hempty : jsonText event ≠ [] := fun hnil => by
    rw [hnil, parse_nil] at hparse
    cases hparse
  obtain ⟨n, hn, hsame⟩ := hseq.asJson hevent.wellKeyed
  have hlog : st.logCorrupt = false := by
    have hcorrupt := hgood.corrupt
    rwa [hclean.corrupt, Bool.false_or, eq_comm] at hcorrupt
  -- before the tail, the event is the one after the snapshot
  have hlate (hunstarted : st.tailStarted = false) : looseLe (.number n) trusted = some false := by
    rw [hgood.expected, hgood.unstarted hunstarted] at hsame
    exact congrArg some (not_le_of_increment hsafe hsame)
  have htail : st.event false trusted (asJson event) = st.tail trusted (asJson event) (.number n) := by
    unfold LogScan.event
    dsimp only
    rw [hn]
    cases hstarted : st.tailStarted with
    | true => rfl
    | false =>
      rw [hlate hstarted]
      rfl
  have hstart : st.start trusted = { st with tailStarted := true } :=
    if_neg (by rw [hclean.reached]; exact Bool.false_ne_true)
  refine ⟨st.tail trusted (asJson event) (.number n), ?_, ?_, ?_⟩
  · rw [LogScan.line, if_neg hempty]
    simp only [hparse, hevent.asJson.supported, hevent.asJson.checksum, htail, if_true]
  all_goals
    rw [LogScan.tail_eq, hstart]
    simp only [(same_eq_true_iff hsame.right).mpr hsame, hlog, Bool.not_true, Bool.not_false,
      Bool.false_eq_true, if_false, if_true]
  exact ⟨hclean.corrupt, hclean.reached⟩

/-- **The lines of the next events are taken.** -/
theorem LogScan.lines_jsonTexts {events : List (JsValue N)}
    (hevents : ∀ event ∈ events, Verified host event) (hseq : Numbered st.expected events) :
    ∃ st', LogScan.lines host false trusted st (events.map jsonText) = (st', none) ∧
      st'.Clean trusted ∧ st'.validLogEvents = st.validLogEvents ++ events.map asJson := by
  induction events generalizing st with
  | nil => exact ⟨st, rfl, hclean, (append_nil _).symm⟩
  | cons event events ih =>
    have hfinite := JsNumber.isFinite_of_isSafeInteger _ hsafe
    obtain ⟨mid, hline, hcleanMid, hvalid⟩ := LogScan.line_jsonText hgood hclean hsafe
      (hevents event mem_cons_self) hseq.1
    have hgoodMid := hgood.line hfinite hline
    have hnext : mid.expected = increment st.expected := by
      rw [hgoodMid.expected, hvalid, hgood.expected, length_append, length_singleton,
        Function.iterate_succ_apply']
    obtain ⟨st', hlines, hclean', hvalid'⟩ := ih hgoodMid hcleanMid
      (fun e he => hevents e (mem_cons_of_mem _ he)) (hnext ▸ hseq.2)
    refine ⟨st', ?_, hclean', ?_⟩
    · rw [map_cons, LogScan.lines, hline]
      exact hlines
    · rw [hvalid', hvalid, append_assoc]
      rfl

end

end Lines

variable {trusted : N} {s : SessionIndexScan N}

section
omit [JsReal N] [JsSequence N]

theorem Verified.jsonText_ne_nil {event : JsValue N} (h : Verified host event) :
    jsonText event ≠ [] := fun hnil => by
  have hparse := parse_jsonText h.wellKeyed
  rw [hnil, parse_nil] at hparse
  cases hparse

/-- A repaired log has one line for each event, and an empty one at its end. -/
theorem lines_repairedLog (hevents : ∀ event ∈ s.validLogEvents, Verified host event) :
    (ofBytes (utf8 (repairedLog s))).lines = s.validLogEvents.map jsonText ++ [[]] := by
  have hone : ∀ text ∈ s.validLogEvents.map jsonText, OneLine text :=
    forall_mem_map.mpr fun event _ => oneLine_jsonText event
  have hwell := wellFormed_unlines fun text htext => (hone text htext).1
  by_cases hnil : s.validLogEvents = []
  · rw [repairedLog, hnil]
    rfl
  · have hlines := lines_unlines (mt map_eq_nil_iff.mp hnil) fun text htext =>
      (hone text htext).2
    have hlog : unlines (s.validLogEvents.map jsonText) ≠ [] := fun hempty => by
      rw [hempty] at hlines
      obtain ⟨event, hevent⟩ := exists_mem_of_ne_nil _ hnil
      have hmem := hlines ▸ mem_map_of_mem hevent
      exact (hevents event hevent).jsonText_ne_nil (mem_singleton.mp hmem)
    rw [repairedLog, if_neg hlog, ofBytes_utf8 ((wellFormed_append_cons (by decide) _ []).mpr ⟨hwell, trivial⟩),
      lines_append_LF, hlines]
    rfl

end

/-- Nothing is left to report after a clean scan. -/
theorem LogScan.Clean.finish {st : LogScan N} (h : st.Clean trusted) : st.finish trusted [] = st := by
  simp [LogScan.finish, h.reached]

/-- The log that a repair writes is read back whole. -/
theorem scanLog_repairedLog (hsafe : JsNumber.isSafeInteger trusted = true)
    (hevents : ∀ event ∈ s.validLogEvents, Verified host event)
    (hseq : Numbered (increment trusted) s.validLogEvents) :
    ∃ st, scanLog host false trusted (some (utf8 (repairedLog s))) = (st, none) ∧
      st.corrupt = false ∧ st.validLogEvents = s.validLogEvents.map asJson := by
  obtain ⟨st, hlines, hclean, hvalid⟩ := LogScan.lines_jsonTexts
    (LogScan.good_start host false trusted) ⟨rfl, rfl⟩ hsafe hevents hseq
  refine ⟨st, ?_, hclean.corrupt, hvalid⟩
  rw [scanLog]
  simp only [lines_repairedLog hevents, dropLast_concat, hlines, getLast?_concat,
    Option.getD_some, hclean.finish]

/-! ## The snapshot that a repair writes -/

theorem SameNumber.le_congr {k k' m m' : N} (h : SameNumber k k') (h' : SameNumber m m') :
    le k m = le k' m' := by
  rw [Bool.eq_iff_iff, le_iff k m h.left h'.left, le_iff k' m' h.right h'.right, h.value, h'.value]

/-- The first event is verified and next, and the others follow it. -/
theorem lastAccepted_cons {event : JsValue N} {previous last : N} :
    lastAccepted host previous (event :: events) = some last ↔
      ∃ seq, property event (js "indexSeq") = .number seq ∧ JsNumber.isSafeInteger seq = true ∧
        le seq previous = false ∧ checksumMatches host event = true ∧
        lastAccepted host seq events = some last := by
  rw [lastAccepted]
  cases property event (js "indexSeq") with
  | number seq =>
    cases hsafe : JsNumber.isSafeInteger seq <;> cases hle : le seq previous <;>
      cases hsum : checksumMatches host event <;> simp [hsafe, hle]
  | _ => simp

/-- The snapshot and the number it claims, as far as a scan trusts them. -/
structure SnapshotScan.Good (host : SessionHost N) (s : SnapshotScan N) : Prop where
  verified : ∀ event ∈ s.snapshotEvents, Verified host event
  accepted : ∃ last, lastAccepted host zero s.snapshotEvents = some last ∧
    SameNumber last s.trustedSnapshotSeq
  safe : JsNumber.isSafeInteger s.trustedSnapshotSeq = true
  nonneg : 0 ≤ JsReal.value s.trustedSnapshotSeq
  invalid : s.invalidSnapshot = true → s.trustedSnapshotSeq = zero

theorem SnapshotScan.good_empty (seq : N) (invalidSnapshot : Bool) :
    SnapshotScan.Good host ⟨[], seq, zero, invalidSnapshot, none⟩ where
  verified _ h := absurd h not_mem_nil
  accepted := ⟨zero, rfl, isFinite_zero, isFinite_zero, rfl⟩
  safe := isSafeInteger_zero
  nonneg := value_zero.ge
  invalid _ := rfl

omit [JsNumber N] [JsReal N] [JsSequence N] in
theorem wellKeyed_property {value : JsValue N} (h : value.WellKeyed) (k : JsString) :
    (property value k).WellKeyed := by
  cases value with
  | object fields => exact wellKeyed_getField h k
  | _ => trivial

/-- Every event that is accepted matches its checksum. -/
theorem lastAccepted_checksum {previous last : N}
    (h : lastAccepted host previous events = some last) :
    ∀ event ∈ events, checksumMatches host event = true := by
  induction events generalizing previous with
  | nil => exact fun _ h => absurd h not_mem_nil
  | cons event events ih =>
    obtain ⟨seq, -, -, -, hsum, hrest⟩ := lastAccepted_cons.mp h
    intro e he
    rcases mem_cons.mp he with rfl | he
    · exact hsum
    · exact ih hrest e he

/-- A valid snapshot has events that are accepted up to its own number. -/
theorem validSnapshot_eq_some {snapshot : JsValue N} {indexSeq : N}
    (h : validSnapshot host snapshot = some (indexSeq, events)) :
    property snapshot (js "events") = .array events ∧
      JsNumber.isSafeInteger indexSeq = true ∧ JsReal.lt indexSeq zero = false ∧
      ∃ last, lastAccepted host zero events = some last ∧ same last indexSeq = true := by
  unfold validSnapshot at h
  split at h
  · rename_i seq items hseq hitems
    split_ifs at h with hrange hlast
    obtain ⟨rfl, rfl⟩ := Prod.mk.inj (some.inj h)
    rw [Bool.or_eq_true, not_or, Bool.not_eq_true', Bool.not_eq_false, Bool.not_eq_true] at hrange
    exact ⟨hitems, hrange.1, hrange.2, (Option.any_eq_true _ _).mp hlast⟩
  · cases h

/-- What a scan keeps of a snapshot is good, if its versions are known. -/
theorem scanSnapshotValue_good {snapshot : JsValue N} (hkeys : snapshot.WellKeyed)
    (h : (scanSnapshotValue host snapshot).unsupportedError = none) :
    (scanSnapshotValue host snapshot).Good host := by
  unfold scanSnapshotValue at h ⊢
  split at h
  · cases h
  · dsimp only at h ⊢
    split at h
    · cases h
    · rename_i hsupported
      split at h
      · rename_i indexSeq events hvalid
        obtain ⟨hevents, hsafe, hrange, last, hlast, hsame⟩ := validSnapshot_eq_some hvalid
        have hfinite := JsNumber.isFinite_of_isSafeInteger _ hsafe
        have hitems : JsValue.WellKeyed (.array events) := hevents ▸ wellKeyed_property hkeys _
        simp only [hevents, findSome?_eq_none_iff] at hsupported
        exact {
          verified := fun event hevent => ⟨(wellKeyed_array.mp hitems) event hevent,
            hsupported event hevent, lastAccepted_checksum hlast event hevent⟩
          accepted := ⟨last, hlast, (same_eq_true_iff hfinite).mp hsame⟩
          safe := hsafe
          nonneg := by
            rw [← Bool.not_eq_true, JsReal.lt_iff _ _ hfinite isFinite_zero, value_zero, not_lt]
              at hrange
            exact hrange
          invalid := nofun }
      · exact SnapshotScan.good_empty _ true

/-- **What a scan takes from the snapshot is verified.** -/
theorem scanSnapshot_good {contents : Option (List UInt8)}
    (h : (scanSnapshot host contents).unsupportedError = none) :
    (scanSnapshot host contents).Good host := by
  unfold scanSnapshot at h ⊢
  cases contents with
  | none => exact SnapshotScan.good_empty _ false
  | some bytes =>
    dsimp only at h ⊢
    split at h
    · exact SnapshotScan.good_empty _ true
    · exact SnapshotScan.good_empty _ true
    · rename_i snapshot hne hparse
      exact scanSnapshotValue_good (wellKeyed_parse hparse) h

section
variable {events : List (JsValue N)} {previous last : N}
    (h : lastAccepted host previous events = some last)
include h

theorem property_last_of_accepted :
    ∀ event ∈ events.getLast?, property event (js "indexSeq") = .number last := by
  induction events generalizing previous with
  | nil => exact fun _ h => absurd h (Option.not_mem_none _)
  | cons event events ih =>
    obtain ⟨seq, hseq, -, -, -, hrest⟩ := lastAccepted_cons.mp h
    cases events with
    | nil =>
      obtain rfl := some.inj hrest
      intro e he
      obtain rfl := some.inj he
      exact hseq
    | cons e events => exact ih hrest

/-- The number written with a snapshot is that of its last event. -/
theorem lastIndexSeq_of_accepted : lastIndexSeq events (.number previous) = .number last := by
  have hlast := property_last_of_accepted h
  unfold lastIndexSeq
  cases hevents : events.getLast? with
  | none =>
    rw [getLast?_eq_none_iff.mp hevents] at h
    obtain rfl := some.inj h
    rfl
  | some event => rw [Option.map_some, hlast event hevents]

end

/-- A snapshot is accepted up to the same event when it is read back. -/
theorem lastAccepted_asJson {previous previous' last : N}
    (hevents : ∀ event ∈ events, Verified host event) (hsame : SameNumber previous' previous)
    (h : lastAccepted host previous events = some last) :
    ∃ last', lastAccepted host previous' (events.map asJson) = some last' ∧
      SameNumber last' last := by
  induction events generalizing previous previous' with
  | nil => exact ⟨previous', rfl, some.inj h ▸ hsame⟩
  | cons event events ih =>
    obtain ⟨seq, hseq, hsafe, hle, -, hrest⟩ := lastAccepted_cons.mp h
    have hevent := hevents event mem_cons_self
    have hread := sameNumber_read (JsNumber.isFinite_of_isSafeInteger _ hsafe)
    obtain ⟨last', hlast, hsame'⟩ := ih (fun e he => hevents e (mem_cons_of_mem _ he)) hread hrest
    refine ⟨last', lastAccepted_cons.mpr ⟨_, ?_, ?_, ?_, hevent.asJson.checksum, hlast⟩, hsame'⟩
    · rw [property_asJson hevent.wellKeyed, hseq, asJson_number_of_finite hread.right]
    · rwa [JsNumber.isSafeInteger_read_text _ hread.right]
    · rwa [hread.le_congr hsame]

/-- No key is written twice, so each is read back. -/
theorem wellKeyed_repairedSnapshot (hevents : ∀ event ∈ s.snapshotEvents, Verified host event)
    {last : N} (hlast : lastIndexSeq s.snapshotEvents (.number zero) = .number last) :
    (repairedSnapshot s).WellKeyed := by
  have hkeys : [js "version", js "indexSeq", js "events"].Pairwise KeyBefore := by decide
  have hitems : JsValue.WellKeyed (.array s.snapshotEvents) :=
    wellKeyed_array.mpr fun event hevent => (hevents event hevent).wellKeyed
  rw [repairedSnapshot, hlast, wellKeyed_object]
  refine ⟨keysOrdered_of_keys rfl hkeys, ?_⟩
  simp only [forall_mem_cons, wellKeyed_number, hitems, not_mem_nil, false_imp_iff,
    implies_true, and_self]

omit [JsSequence N] in
theorem SameNumber.isSafeInteger_eq {m n : N} (h : SameNumber m n) :
    JsNumber.isSafeInteger m = JsNumber.isSafeInteger n := by
  rw [← JsNumber.isSafeInteger_read_text m h.left,
    (JsReal.text_eq_text_iff m n h.left h.right).mpr h.value,
    JsNumber.isSafeInteger_read_text n h.right]

/-- The snapshot that a repair writes is valid. -/
theorem scanSnapshotValue_repairedSnapshot {v : JsValue N} {version indexSeq last : N}
    (hversion : property v (js "version") = .number version)
    (hstate : property v (js "stateVersion") = .undefined)
    (hindexSeq : property v (js "indexSeq") = .number indexSeq)
    (hitems : property v (js "events") = .array events) (htwo : exceedsTwo version = false)
    (hsupported : ∀ event ∈ events, unsupportedVersion JsNumber.exceedsOne event = none)
    (hsafe : JsNumber.isSafeInteger indexSeq = true) (hnonneg : 0 ≤ JsReal.value indexSeq)
    (hlast : lastAccepted host zero events = some last) (hsame : SameNumber last indexSeq) :
    scanSnapshotValue host v = ⟨events, claimedSeq v, indexSeq, false, none⟩ := by
  have hnone : unsupportedVersion exceedsTwo v = none := by
    rw [unsupportedVersion_eq_none]
    intro k hk n hn
    rcases mem_pair.mp hk with rfl | rfl
    · obtain rfl := number.inj (hversion.symm.trans hn)
      rw [htwo, Bool.and_false]
    · cases hstate.symm.trans hn
  have hlt : JsReal.lt indexSeq zero = false := by
    rw [← Bool.not_eq_true, JsReal.lt_iff _ _ hsame.right isFinite_zero, value_zero]
    exact not_lt.mpr hnonneg
  have hvalid : validSnapshot host v = some (indexSeq, events) := by
    simp only [validSnapshot, hindexSeq, hitems, hsafe, hlt, hlast, Bool.not_true, Bool.or_self,
      Bool.false_eq_true, if_false, Option.any_some, (same_eq_true_iff hsame.right).mpr hsame,
      if_true]
  have hevents : events.findSome? (unsupportedVersion JsNumber.exceedsOne) = none :=
    findSome?_eq_none_iff.mpr hsupported
  simp only [scanSnapshotValue, hnone, hitems, hevents, hvalid]

/-- **The snapshot that a repair writes holds what was taken from the one before it.** -/
theorem scanSnapshot_repairedSnapshot {before : SnapshotScan N} (hbefore : before.Good host)
    (hevents : s.snapshotEvents = before.snapshotEvents) :
    let after := scanSnapshot host (some (utf8 (jsonText (repairedSnapshot s))))
    after.unsupportedError = none ∧ after.invalidSnapshot = false ∧
      SameNumber after.trustedSnapshotSeq before.trustedSnapshotSeq ∧
      after.snapshotEvents = before.snapshotEvents.map asJson := by
  obtain ⟨last, hlast, hsame⟩ := hbefore.accepted
  obtain ⟨last', hlast', hsame'⟩ := lastAccepted_asJson hbefore.verified
    ⟨isFinite_zero, isFinite_zero, rfl⟩ hlast
  rw [← hevents] at hlast hlast'
  have hverified : ∀ event ∈ s.snapshotEvents, Verified host event := hevents ▸ hbefore.verified
  have hseq := lastIndexSeq_of_accepted hlast
  have hkeys := wellKeyed_repairedSnapshot hverified hseq
  have hread := sameNumber_read hsame.left
  have htwo := sameNumber_read (isFinite_two : JsNumber.isFinite (two : N) = true)
  have hitems : itemsAsJson s.snapshotEvents = s.snapshotEvents.map asJson := by
    rw [itemsAsJson_eq]
    exact map_congr_left fun event hevent =>
      orNull_of_ne (hverified event hevent).asJson.ne_undefined
  have hvalue : scanSnapshot host (some (utf8 (jsonText (repairedSnapshot s)))) =
      scanSnapshotValue host (asJson (repairedSnapshot s)) := by
    have hparse : parse (jsonText (repairedSnapshot s)) = some (asJson (repairedSnapshot s)) :=
      parse_jsonText hkeys
    rw [scanSnapshot, ofBytes_utf8 (oneLine_jsonText _).1, hparse]
    rfl
  have hversion : property (asJson (repairedSnapshot s)) (js "version") =
      .number (JsNumber.read (JsNumber.text (two : N))) := by
    rw [property_asJson hkeys]
    exact asJson_number_of_finite (isFinite_two (N := N))
  have hstate : property (asJson (repairedSnapshot s)) (js "stateVersion") = .undefined :=
    property_asJson hkeys _
  have hindexSeq : property (asJson (repairedSnapshot s)) (js "indexSeq") =
      .number (JsNumber.read (JsNumber.text last)) := by
    rw [property_asJson hkeys, ← asJson_number_of_finite hsame.left, ← hseq]
    rfl
  have hevents' : property (asJson (repairedSnapshot s)) (js "events") =
      .array (s.snapshotEvents.map asJson) := by
    rw [property_asJson hkeys, ← hitems]
    rfl
  have htwo' : exceedsTwo (JsNumber.read (JsNumber.text (two : N)) : N) = false := by
    rw [← Bool.not_eq_true, exceedsTwo_iff _ htwo.left, htwo.value, value_two]
    exact lt_irrefl _
  have htrusted := hread.trans hsame
  have hscan := scanSnapshotValue_repairedSnapshot hversion hstate hindexSeq hevents' htwo'
    (forall_mem_map.mpr fun event hevent => (hverified event hevent).asJson.supported)
    (htrusted.isSafeInteger_eq.trans hbefore.safe) (htrusted.value ▸ hbefore.nonneg) hlast'
    (hsame'.trans hread.symm)
  rw [hvalue, hscan]
  exact ⟨rfl, rfl, htrusted, congrArg _ hevents⟩

end SessionScan
end GajaeCode
