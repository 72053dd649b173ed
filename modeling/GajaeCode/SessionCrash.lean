import GajaeCode.SessionReadback

/-! # A repair that was cut off

A crash between the two replacements of a repair leaves the new snapshot with the old log.  The
snapshot holds what was taken from the old one, so a scan takes the same events from the log: the
two scans go alike until damage is found, and take nothing after it.
-/
namespace GajaeCode
open JsString JsValue JsonParse

namespace SessionScan
open JsSequence

variable {N : Type} [JsNumber N] [JsReal N] [JsSequence N] {host : SessionHost N}

/-- What two scans of one log have found, with another snapshot.  After damage no event is
taken, whatever else is found. -/
structure LogScan.Alike (st st' : LogScan N) : Prop where
  logCorrupt : st'.logCorrupt = st.logCorrupt
  valid : st'.validLogEvents = st.validLogEvents
  expected : SameNumber st'.expected st.expected
  front : st.logCorrupt = false →
    st'.tailStarted = st.tailStarted ∧ st'.historicalLast = st.historicalLast

section Crash
variable {st st' : LogScan N} {invalidSnapshot : Bool} {trusted trusted' : N}
variable {contents : Option (List UInt8)}

omit [JsSequence N] in
theorem alike_of_logCorrupt (h : st.logCorrupt = true) (h' : st'.logCorrupt = true)
    (hvalid : st'.validLogEvents = st.validLogEvents)
    (hexpected : SameNumber st'.expected st.expected) : st.Alike st' :=
  ⟨h'.trans h.symm, hvalid, hexpected, fun hclean => absurd h (Bool.not_eq_true _ ▸ hclean)⟩

omit [JsSequence N] in
theorem LogScan.Alike.spoiled (h : st.Alike st') : st.spoiled.Alike st'.spoiled where
  logCorrupt := rfl
  valid := h.valid
  expected := h.expected
  front := nofun

theorem LogScan.stopsShort_congr (hlast : st'.historicalLast = st.historicalLast)
    (hsame : SameNumber trusted' trusted) : st'.stopsShort trusted' = st.stopsShort trusted := by
  rw [LogScan.stopsShort, LogScan.stopsShort, hlast]
  exact congrArg (Option.any · _) (funext fun last => by rw [hsame.same_congr])

theorem LogScan.start_logCorrupt (h : st.logCorrupt = true) (trusted : N) :
    (st.start trusted).logCorrupt = true := by
  unfold LogScan.start
  split_ifs
  · rfl
  · exact h

theorem LogScan.Alike.start (h : st.Alike st') (hsame : SameNumber trusted' trusted) :
    (st.start trusted).Alike (st'.start trusted') := by
  by_cases hlog : st.logCorrupt = true
  · have hlog' := h.logCorrupt.trans hlog
    refine alike_of_logCorrupt (st.start_logCorrupt hlog trusted)
      (st'.start_logCorrupt hlog' trusted') ?_ ?_
    · rw [st.start_validLogEvents, st'.start_validLogEvents, h.valid]
    · rw [st.start_expected, st'.start_expected]
      exact h.expected
  · obtain ⟨hstarted, hlast⟩ := h.front (eq_false_of_ne_true hlog)
    unfold LogScan.start
    rw [LogScan.stopsShort_congr hlast hsame]
    split_ifs
    · exact ⟨rfl, h.valid, h.expected, nofun⟩
    · exact ⟨h.logCorrupt, h.valid, h.expected, fun _ => ⟨rfl, hlast⟩⟩

theorem LogScan.Alike.tail (h : st.Alike st') (hsame : SameNumber trusted' trusted)
    (event indexSeq : JsValue N) :
    (st.tail trusted event indexSeq).Alike (st'.tail trusted' event indexSeq) := by
  have hstart := h.start hsame
  rw [LogScan.tail_eq, LogScan.tail_eq]
  cases indexSeq with
  | number n =>
    dsimp only
    rw [h.expected.same_congr, hstart.logCorrupt]
    split_ifs
    · exact hstart.spoiled
    · exact ⟨rfl, by rw [h.valid], h.expected.increment, hstart.front⟩
    · exact hstart
  | _ => exact hstart.spoiled

theorem LogScan.Alike.historical (h : st.Alike st') (hlog : st.logCorrupt = false)
    (indexSeq : JsValue N) : (st.historical indexSeq).Alike (st'.historical indexSeq) := by
  obtain ⟨hstarted, hlast⟩ := h.front hlog
  unfold LogScan.historical
  cases indexSeq with
  | number n =>
    dsimp only
    rw [hlast]
    split_ifs
    · exact h.spoiled
    · exact ⟨h.logCorrupt, h.valid, h.expected, fun _ => ⟨hstarted, rfl⟩⟩
  | _ => exact h.spoiled

/-- Damage was found, and nothing was taken since. -/
structure LogScan.Stuck (st st' : LogScan N) : Prop where
  logCorrupt : st'.logCorrupt = true
  valid : st'.validLogEvents = st.validLogEvents
  expected : st'.expected = st.expected

omit [JsNumber N] [JsReal N] [JsSequence N] in
theorem LogScan.stuck_spoiled (st : LogScan N) : st.Stuck st.spoiled := ⟨rfl, rfl, rfl⟩

theorem LogScan.stuck_start_spoiled (st : LogScan N) (trusted : N) :
    st.Stuck (st.start trusted).spoiled :=
  ⟨rfl, st.start_validLogEvents trusted, st.start_expected trusted⟩

theorem LogScan.stuck_tail (h : st.logCorrupt = true) (event indexSeq : JsValue N) :
    st.Stuck (st.tail trusted event indexSeq) := by
  have hstart := st.start_logCorrupt h trusted
  rw [LogScan.tail_eq]
  cases indexSeq with
  | number n =>
    dsimp only
    rw [hstart]
    split_ifs with hsame hlog
    · exact st.stuck_start_spoiled trusted
    · cases hlog
    · exact ⟨hstart, st.start_validLogEvents trusted, st.start_expected trusted⟩
  | _ => exact st.stuck_start_spoiled trusted

theorem LogScan.stuck_historical (h : st.logCorrupt = true) (indexSeq : JsValue N) :
    st.Stuck (st.historical indexSeq) := by
  unfold LogScan.historical
  cases indexSeq with
  | number n =>
    dsimp only
    split_ifs
    · exact st.stuck_spoiled
    · exact ⟨h, rfl, rfl⟩
  | _ => exact st.stuck_spoiled

theorem LogScan.stuck_event (h : st.logCorrupt = true) (event : JsValue N) :
    st.Stuck (st.event invalidSnapshot trusted event) := by
  unfold LogScan.event
  dsimp only
  split_ifs
  · split
    · exact st.stuck_spoiled
    · exact LogScan.stuck_historical h _
    · exact LogScan.stuck_tail h event _
  · exact LogScan.stuck_tail h event _

omit [JsSequence N] in
theorem LogScan.Alike.of_stuck (h : st.Alike st') {mid mid' : LogScan N} (hmid : st.Stuck mid)
    (hmid' : st'.Stuck mid') : mid.Alike mid' :=
  alike_of_logCorrupt hmid.logCorrupt hmid'.logCorrupt
    (hmid'.valid.trans (h.valid.trans hmid.valid.symm))
    (by rw [hmid'.expected, hmid.expected]; exact h.expected)

/-- Without a snapshot, an event that is not above zero is damage. -/
theorem LogScan.Good.stuck_tail (h : st.Good host invalidSnapshot trusted)
    (hunstarted : st.tailStarted = false) (hsafe : JsNumber.isSafeInteger trusted = true)
    (event : JsValue N) {indexSeq : JsValue N} (hle : looseLe indexSeq trusted ≠ some false) :
    st.Stuck (st.tail trusted event indexSeq) := by
  rw [LogScan.tail_eq]
  cases indexSeq with
  | number n =>
    have hne : same n st.expected = false := by
      rw [h.expected, h.unstarted hunstarted, ← Bool.not_eq_true]
      exact fun hsame => hle (congrArg some (not_le_of_increment hsafe
        ((same_eq_true_iff (isFinite_increment _ (JsNumber.isFinite_of_isSafeInteger _ hsafe))).mp
          hsame)))
    dsimp only
    rw [hne]
    exact st.stuck_start_spoiled trusted
  | _ => exact st.stuck_start_spoiled trusted

theorem LogScan.stuck_historical_zero (hsame : SameNumber trusted' zero) {indexSeq : JsValue N}
    (hle : looseLe indexSeq trusted' = some true) : st.Stuck (st.historical indexSeq) := by
  cases indexSeq with
  | number n =>
    have hzero : le n zero = true := by
      rw [← le_congr n _ _ hsame.left hsame.right hsame.value]
      exact some.inj hle
    simp only [LogScan.historical, hzero, Bool.or_true, Bool.true_or, if_true]
    exact st.stuck_spoiled
  | _ => exact st.stuck_spoiled

/-- What the repair of an unusable snapshot leaves of the log. -/
structure Mended (invalidSnapshot : Bool) (trusted trusted' : N) : Prop where
  safe : JsNumber.isSafeInteger trusted = true
  same : SameNumber trusted' trusted
  invalid : invalidSnapshot = true → trusted = zero

section
variable (h : st.Alike st') (hgood : st.Good host invalidSnapshot trusted)
    (hmended : Mended invalidSnapshot trusted trusted')
include h hgood hmended

theorem LogScan.Alike.event (event : JsValue N) :
    (st.event invalidSnapshot trusted event).Alike (st'.event false trusted' event) := by
  by_cases hlog : st.logCorrupt = true
  · exact h.of_stuck (LogScan.stuck_event hlog event)
      (LogScan.stuck_event (h.logCorrupt.trans hlog) event)
  · replace hlog := eq_false_of_ne_true hlog
    have htail := h.tail hmended.same event (property event (js "indexSeq"))
    unfold LogScan.event
    dsimp only
    rw [(h.front hlog).1, looseLe_congr hmended.same]
    cases hstarted : st.tailStarted with
    | true => exact htail
    | false =>
      cases invalidSnapshot with
      | false =>
        simp only [Bool.not_false, Bool.and_self, if_true]
        split
        · exact h.spoiled
        · exact h.historical hlog _
        · exact htail
      | true =>
        simp only [Bool.not_false, Bool.not_true, Bool.and_self, Bool.and_false,
          Bool.false_eq_true, if_false, if_true]
        have hzero : SameNumber trusted' zero := hmended.invalid rfl ▸ hmended.same
        split
        · rename_i hle
          exact h.of_stuck (hgood.stuck_tail hstarted hmended.safe event (by rw [hle]; nofun))
            st'.stuck_spoiled
        · rename_i hle
          exact h.of_stuck (hgood.stuck_tail hstarted hmended.safe event (by rw [hle]; nofun))
            (LogScan.stuck_historical_zero hzero (looseLe_congr hmended.same _ ▸ hle))
        · exact htail

theorem LogScan.Alike.line {line : JsString} {mid : LogScan N}
    (hline : st.line host invalidSnapshot trusted line = .ok mid) :
    ∃ mid', st'.line host false trusted' line = .ok mid' ∧ mid.Alike mid' := by
  unfold LogScan.line at hline ⊢
  split_ifs at hline ⊢ with hempty
  · exact ⟨st', rfl, Except.ok.inj hline ▸ h⟩
  · cases hparse : parse line (N := N) with
    | none =>
      simp only [hparse] at hline ⊢
      exact ⟨_, rfl, Except.ok.inj hline ▸ h.spoiled⟩
    | some event =>
      simp only [hparse] at hline ⊢
      cases hversion : unsupportedVersion JsNumber.exceedsOne event with
      | some version =>
        simp only [hversion] at hline
        cases hline
      | none =>
        simp only [hversion] at hline ⊢
        split_ifs at hline ⊢ with hsum
        · exact ⟨_, rfl, Except.ok.inj hline ▸ h.event hgood hmended event⟩
        · exact ⟨_, rfl, Except.ok.inj hline ▸ h.spoiled⟩

/-- **The lines are read alike.** -/
theorem LogScan.Alike.lines {lines : List JsString} {last : LogScan N}
    (hlines : LogScan.lines host invalidSnapshot trusted st lines = (last, none)) :
    ∃ last', LogScan.lines host false trusted' st' lines = (last', none) ∧ last.Alike last' := by
  induction lines generalizing st st' with
  | nil => exact ⟨st', rfl, (Prod.mk.inj hlines).1 ▸ h⟩
  | cons line lines ih =>
    rw [LogScan.lines] at hlines ⊢
    cases hline : st.line host invalidSnapshot trusted line with
    | error error =>
      rw [hline] at hlines
      cases hlines
    | ok mid =>
      rw [hline] at hlines
      obtain ⟨mid', hline', hmid⟩ := h.line hgood hmended hline
      rw [hline']
      exact ih hmid (hgood.line (JsNumber.isFinite_of_isSafeInteger _ hmended.safe) hline) hlines

end

/-- The check that the history reaches the snapshot, where no tail follows. -/
def LogScan.close (st : LogScan N) (trusted : N) : LogScan N :=
  if st.stopsShort trusted && !st.tailStarted then st.spoiled else st

theorem LogScan.finish_eq (terminal : JsString) : st.finish trusted terminal =
    if terminal = [] then st.close trusted else (st.close trusted).spoiled := rfl

theorem LogScan.Alike.close (h : st.Alike st') (hsame : SameNumber trusted' trusted) :
    (st.close trusted).Alike (st'.close trusted') := by
  unfold LogScan.close
  by_cases hlog : st.logCorrupt = true
  · have hstuck : st.Stuck st := ⟨hlog, rfl, rfl⟩
    have hstuck' : st'.Stuck st' := ⟨h.logCorrupt.trans hlog, rfl, rfl⟩
    split_ifs
    · exact h.of_stuck st.stuck_spoiled st'.stuck_spoiled
    · exact h.of_stuck st.stuck_spoiled hstuck'
    · exact h.of_stuck hstuck st'.stuck_spoiled
    · exact h
  · obtain ⟨hstarted, hlast⟩ := h.front (eq_false_of_ne_true hlog)
    rw [LogScan.stopsShort_congr hlast hsame, hstarted]
    split_ifs
    · exact h.spoiled
    · exact h

theorem LogScan.Alike.finish (h : st.Alike st') (hsame : SameNumber trusted' trusted)
    (terminal : JsString) : (st.finish trusted terminal).Alike (st'.finish trusted' terminal) := by
  rw [LogScan.finish_eq, LogScan.finish_eq]
  split_ifs
  · exact h.close hsame
  · exact (h.close hsame).spoiled

theorem LogScan.Good.finish (h : st.Good host invalidSnapshot trusted) (terminal : JsString) :
    (st.finish trusted terminal).Good host invalidSnapshot trusted := by
  have hclose : (st.close trusted).Good host invalidSnapshot trusted := by
    unfold LogScan.close
    split_ifs
    · exact h.spoiled
    · exact h
  rw [LogScan.finish_eq]
  split_ifs
  · exact hclose
  · exact hclose.spoiled

theorem scanLog_eq_none (h : scanLog host invalidSnapshot trusted contents = (st, none)) :
    (contents = none ∧ st = ⟨invalidSnapshot, false, false, none, increment trusted, []⟩) ∨
    ∃ bytes mid, contents = some bytes ∧ LogScan.lines host invalidSnapshot trusted
        ⟨invalidSnapshot, false, false, none, increment trusted, []⟩
        (ofBytes bytes).lines.dropLast = (mid, none) ∧
      st = mid.finish trusted ((ofBytes bytes).lines.getLast?.getD []) := by
  cases contents with
  | none => exact .inl ⟨rfl, (Prod.mk.inj h).1.symm⟩
  | some bytes =>
    rw [scanLog] at h
    split at h
    · cases (Prod.mk.inj h).2
    · rename_i mid hlines
      exact .inr ⟨bytes, mid, rfl, hlines, (Prod.mk.inj h).1.symm⟩

theorem scanLog_good (hfinite : JsNumber.isFinite trusted = true)
    (h : scanLog host invalidSnapshot trusted contents = (st, none)) :
    st.Good host invalidSnapshot trusted := by
  have hstart := LogScan.good_start host invalidSnapshot trusted
  obtain ⟨-, rfl⟩ | ⟨bytes, mid, -, hlines, rfl⟩ := scanLog_eq_none h
  · exact hstart
  · have hmid := hstart.lines hfinite (ofBytes bytes).lines.dropLast
    rw [hlines] at hmid
    exact hmid.finish _

/-- **With a mended snapshot, the log is read alike.** -/
theorem scanLog_alike (hmended : Mended invalidSnapshot trusted trusted')
    (h : scanLog host invalidSnapshot trusted contents = (st, none)) :
    ∃ st', scanLog host false trusted' contents = (st', none) ∧ st.Alike st' := by
  have hstart : LogScan.Alike (⟨invalidSnapshot, false, false, none, increment trusted, []⟩)
      ⟨false, false, false, none, increment trusted', []⟩ :=
    ⟨rfl, rfl, hmended.same.increment, fun _ => ⟨rfl, rfl⟩⟩
  obtain ⟨rfl, rfl⟩ | ⟨bytes, mid, rfl, hlines, rfl⟩ := scanLog_eq_none h
  · exact ⟨_, rfl, hstart⟩
  · obtain ⟨mid', hlines', hmid⟩ := hstart.lines (LogScan.good_start host _ _) hmended hlines
    refine ⟨mid'.finish trusted' _, ?_, hmid.finish hmended.same _⟩
    rw [scanLog]
    simp only [hlines']

end Crash

end SessionScan
end GajaeCode
