import GajaeCode.JobManager
import GajaeCode.OutputSink
import GajaeCode.Runs

/-! # The output of a background job

`appendOutput` and `readOutputSince` of `packages/coding-agent/src/async/job-manager.ts`.  What
a job has written is kept in chunks, each with the bytes it stands for; when there are too many
bytes the oldest chunks are dropped.  A reader names the offset it has read up to.
-/
namespace GajaeCode
open List JsString

structure AsyncJobOutputChunk where
  startByte : Nat
  endByte : Nat
  text : JsString

structure AsyncJobOutputState where
  chunks : List AsyncJobOutputChunk
  startOffset : Nat
  nextOffset : Nat
  retainedBytes : Nat

structure AsyncJobOutputSlice where
  jobId : JsString
  status : JobStatus
  text : JsString
  startOffset : Nat
  nextOffset : Nat
  truncated : Bool

/-- `DEFAULT_JOB_OUTPUT_RETENTION_BYTES`. -/
def outputRetentionBytes : Nat := 512 * 1024

/-- The loop passes over the characters that fit into the bytes before the offset. -/
def sliceTextFromUtf8ByteOffset (text : JsString) (offsetBytes : Nat) : JsString :=
  if offsetBytes = 0 then text
  else text.drop (ofChars (fitHead offsetBytes (codePoints text))).length

namespace AsyncJobOutputState

/-- The `while` of `appendOutput`. -/
def dropOldest (nextOffset : Nat) : List AsyncJobOutputChunk → Nat → Nat → AsyncJobOutputState
  | [], startOffset, retainedBytes => ⟨[], startOffset, nextOffset, retainedBytes⟩
  | dropped :: chunks, startOffset, retainedBytes =>
    if outputRetentionBytes < retainedBytes then
      dropOldest nextOffset chunks dropped.endByte
        (retainedBytes - (dropped.endByte - dropped.startByte))
    else ⟨dropped :: chunks, startOffset, nextOffset, retainedBytes⟩

def append (state : AsyncJobOutputState) (chunk : JsString) : AsyncJobOutputState :=
  let endByte := state.nextOffset + byteLength chunk
  dropOldest endByte (state.chunks ++ [⟨state.nextOffset, endByte, chunk⟩]) state.startOffset
    (state.retainedBytes + byteLength chunk)

/-- The loop of `readOutputSince` over the chunks. -/
def textFrom (effectiveOffset : Nat) (chunks : List AsyncJobOutputChunk) : JsString :=
  chunks.flatMap fun chunk =>
    if chunk.endByte ≤ effectiveOffset then []
    else if chunk.startByte < effectiveOffset then
      sliceTextFromUtf8ByteOffset chunk.text (effectiveOffset - chunk.startByte)
    else chunk.text

end AsyncJobOutputState
open AsyncJobOutputState

/-- The manager with the outputs of its jobs. -/
structure JobOutputs where
  manager : AsyncJobManager
  disposed : Bool
  outputState : InsertionMap JsString AsyncJobOutputState

namespace JobOutputs

def appendOutput (m : JobOutputs) (jobId chunk : JsString) : JobOutputs :=
  if m.disposed || chunk.isEmpty || (m.manager.getJob jobId).isNone || byteLength chunk = 0 then m
  else
    let state := (m.outputState.get jobId).getD ⟨[], 0, 0, 0⟩
    { m with outputState := m.outputState.set jobId (state.append chunk) }

/-- The offset is rounded down already. -/
def readOutputSince (m : JobOutputs) (jobId : JsString) (offset : Int)
    (filter : Option JsString) : Option AsyncJobOutputSlice :=
  (m.manager.getJob jobId).bind fun job =>
    if ownerMatches filter job.ownerId then
      match m.outputState.get jobId with
      | none => some ⟨jobId, job.status, [], 0, 0, false⟩
      | some state =>
        let requestedOffset := offset.toNat
        if state.nextOffset ≤ requestedOffset then
          some ⟨jobId, job.status, [], state.startOffset, state.nextOffset, false⟩
        else
          let truncated : Bool := requestedOffset < state.startOffset
          let effectiveOffset := if truncated then state.startOffset else requestedOffset
          some ⟨jobId, job.status, textFrom effectiveOffset state.chunks, state.startOffset,
            state.nextOffset, truncated⟩
    else none

end JobOutputs

namespace AsyncJobOutputState
variable {cs ds : List Char} {n start : Nat} {chunks : List AsyncJobOutputChunk}

theorem slice_zero (text : JsString) : sliceTextFromUtf8ByteOffset text 0 = text := if_pos rfl

theorem isPrefix_fitHead (n : Nat) (cs : List Char) : fitHead n cs <+: cs := by
  rcases fitHead_cases n cs with ⟨hall, -⟩ | ⟨c, rest, hsplit, -⟩
  · rw [hall]
  · exact ⟨c :: rest, hsplit.symm⟩

/-- The text from the character on that has the byte at the offset. -/
theorem slice_ofChars (n : Nat) (cs : List Char) : sliceTextFromUtf8ByteOffset (ofChars cs) n =
    ofChars (cs.drop (fitHead n cs).length) := by
  obtain ⟨rest, hrest⟩ := isPrefix_fitHead n cs
  rw [sliceTextFromUtf8ByteOffset, codePoints_ofChars]
  generalize hhead : fitHead n cs = head at hrest
  subst hrest
  rw [ofChars_append, drop_left, drop_left]
  split_ifs with hzero
  · obtain rfl : head = [] := byteSize_eq_zero
      (Nat.le_zero.mp (hzero ▸ hhead ▸ byteSize_fitHead_le n _))
    rfl
  · rfl

theorem slice_append (h : byteSize cs ≤ n) : sliceTextFromUtf8ByteOffset (ofChars (cs ++ ds)) n =
    sliceTextFromUtf8ByteOffset (ofChars ds) (n - byteSize cs) := by
  rw [slice_ofChars, slice_ofChars, fitHead_append, if_pos h, length_append,
    drop_length_add_append]

theorem slice_append_of_lt (h : n < byteSize cs) :
    sliceTextFromUtf8ByteOffset (ofChars (cs ++ ds)) n =
      sliceTextFromUtf8ByteOffset (ofChars cs) n ++ ofChars ds := by
  rw [slice_ofChars, slice_ofChars, fitHead_append, if_neg (by omega),
    drop_append_of_le_length (isPrefix_fitHead n cs).length_le, ofChars_append]

/-- The chunks are the characters, from the byte `start` on. -/
def Covers : Nat → List Char → List AsyncJobOutputChunk → Prop
  | _, cs, [] => cs = []
  | start, cs, chunk :: chunks => ∃ c rest, cs = c ++ rest ∧
    chunk = ⟨start, start + byteSize c, ofChars c⟩ ∧ Covers (start + byteSize c) rest chunks

theorem Covers.append (h : Covers start cs chunks) (ds : List Char) : Covers start (cs ++ ds)
    (chunks ++ [⟨start + byteSize cs, start + byteSize cs + byteSize ds, ofChars ds⟩]) := by
  induction chunks generalizing start cs with
  | nil =>
    obtain rfl : cs = [] := h
    exact ⟨ds, [], (append_nil ds).symm, rfl, rfl⟩
  | cons chunk chunks ih =>
    obtain ⟨c, rest, rfl, rfl, hrest⟩ := h
    refine ⟨c, rest ++ ds, append_assoc .., rfl, ?_⟩
    rw [byteSize_append, ← Nat.add_assoc]
    exact ih hrest

theorem Covers.textFrom (h : Covers start cs chunks) (n : Nat) :
    textFrom n chunks =
      sliceTextFromUtf8ByteOffset (ofChars cs) (n - start) := by
  induction chunks generalizing start cs with
  | nil =>
    obtain rfl : cs = [] := h
    rw [slice_ofChars]
    rfl
  | cons chunk chunks ih =>
    obtain ⟨c, rest, rfl, rfl, hrest⟩ := h
    rw [textFrom, flatMap_cons, ← textFrom, ih hrest]
    dsimp only
    by_cases hbefore : start + byteSize c ≤ n
    · rw [if_pos hbefore, nil_append, slice_append (by omega), Nat.sub_sub]
    · rw [if_neg hbefore, show n - (start + byteSize c) = 0 by omega, slice_zero]
      split_ifs with hwithin
      · rw [slice_append_of_lt (by omega)]
      · rw [show n - start = 0 by omega, slice_zero, ofChars_append]

/-- The output of a job, as it was written: what was dropped, and what is kept, which is no
more than there is room for. -/
def Holds (state : AsyncJobOutputState) (cs : List Char) : Prop :=
  ∃ dropped kept, cs = dropped ++ kept ∧ Covers (byteSize dropped) kept state.chunks ∧
    state.startOffset = byteSize dropped ∧ state.nextOffset = byteSize cs ∧
    state.retainedBytes = byteSize kept ∧ byteSize kept ≤ outputRetentionBytes ∧
    (dropped = [] ∨ outputRetentionBytes < byteSize cs)

theorem holds_dropOldest {dropped kept : List Char} (h : Covers (byteSize dropped) kept chunks)
    (hneeded : dropped = [] ∨ outputRetentionBytes < byteSize (dropped ++ kept)) :
    Holds (dropOldest (byteSize (dropped ++ kept)) chunks (byteSize dropped) (byteSize kept))
      (dropped ++ kept) := by
  induction chunks generalizing dropped kept with
  | nil =>
    obtain rfl : kept = [] := h
    exact ⟨dropped, [], rfl, rfl, rfl, rfl, rfl, Nat.zero_le _, hneeded⟩
  | cons chunk chunks ih =>
    rw [dropOldest]
    split_ifs with hover
    · obtain ⟨c, rest, rfl, rfl, hrest⟩ := h
      rw [← byteSize_append] at hrest
      have hlater := ih hrest (.inr (by simp only [byteSize_append] at hover ⊢; omega))
      rw [append_assoc] at hlater
      convert hlater using 2
      · rw [byteSize_append]
      · simp only [byteSize_append]
        omega
    · exact ⟨dropped, kept, rfl, h, rfl, rfl, rfl, Nat.not_lt.mp hover, hneeded⟩

theorem Holds.append {state : AsyncJobOutputState} (h : Holds state cs) (ds : List Char) :
    Holds (state.append (ofChars ds)) (cs ++ ds) := by
  obtain ⟨dropped, kept, rfl, hcovers, hstart, hnext, hretained, -, hneeded⟩ := h
  have hlength : byteLength (ofChars ds) = byteSize ds := by
    rw [byteLength, utf8_ofChars, length_charBytes]
  have happended := hcovers.append ds
  rw [← byteSize_append] at happended
  rw [AsyncJobOutputState.append, hlength, hstart, hnext, hretained, append_assoc,
    ← byteSize_append, ← byteSize_append, append_assoc]
  rw [← byteSize_append, append_assoc] at happended
  refine holds_dropOldest happended (hneeded.imp_right fun hlt => ?_)
  rw [← append_assoc, byteSize_append]
  omega

end AsyncJobOutputState

namespace JobOutputs
variable {m : JobOutputs} {jobId : JsString} {job : AsyncJob}

/-- What is kept for a job is its output. -/
def HoldsFor (m : JobOutputs) (jobId : JsString) (cs : List Char) : Prop :=
  m.disposed = false ∧ Holds ((m.outputState.get jobId).getD ⟨[], 0, 0, 0⟩) cs

section
variable {cs : List Char} (h : m.HoldsFor jobId cs) (hjob : m.manager.getJob jobId = some job)
include h hjob

theorem HoldsFor.appendOutput (id : JsString) (ds : List Char) :
    (m.appendOutput id (ofChars ds)).HoldsFor jobId (if id = jobId then cs ++ ds else cs) := by
  obtain ⟨hlive, hholds⟩ := h
  unfold JobOutputs.appendOutput
  split_ifs with hskip hid hid
  · subst hid
    rw [hlive, hjob] at hskip
    have hnone : ds = [] := by
      rcases (by simpa [byteLength] using hskip : ofChars ds = [] ∨ byteSize ds = 0) with h | h
      · exact ofChars_injective h
      · exact byteSize_eq_zero h
    rw [hnone, append_nil]
    exact ⟨hlive, hholds⟩
  · exact ⟨hlive, hholds⟩
  · subst hid
    refine ⟨hlive, ?_⟩
    rw [InsertionMap.get_set, if_pos rfl]
    exact hholds.append ds
  · refine ⟨hlive, ?_⟩
    rw [InsertionMap.get_set, if_neg (Ne.symm hid)]
    exact hholds

/-- **A read** gives the output from the offset on, or what is kept of it. -/
theorem readOutputSince_eq (filter : Option JsString)
    (howner : ownerMatches filter job.ownerId = true) (offset : Int) :
    ∃ start, m.readOutputSince jobId offset filter = some ⟨jobId, job.status,
        sliceTextFromUtf8ByteOffset (ofChars cs) (max start offset.toNat), start, byteSize cs,
        offset.toNat < start⟩ ∧ byteSize cs ≤ start + outputRetentionBytes ∧
      (start = 0 ∨ outputRetentionBytes < byteSize cs) := by
  obtain ⟨-, dropped, kept, rfl, hcovers, hstart, hnext, -, hfits, hneeded⟩ := h
  refine ⟨byteSize dropped, ?_, by rw [byteSize_append]; omega,
    hneeded.imp_left fun hnil => by rw [hnil]; rfl⟩
  have hread : ∀ n, byteSize dropped ≤ n → sliceTextFromUtf8ByteOffset
      (ofChars (dropped ++ kept)) n = textFrom n
        ((m.outputState.get jobId).getD ⟨[], 0, 0, 0⟩).chunks := fun n hn => by
    rw [slice_append hn, hcovers.textFrom]
  rw [JobOutputs.readOutputSince, hjob, Option.bind_some, if_pos howner]
  cases hstate : m.outputState.get jobId with
  | none =>
    rw [hstate] at hstart hnext hread
    rw [hread _ (le_max_left ..), ← hstart, ← hnext]
    simp [textFrom]
  | some state =>
    rw [hstate] at hstart hnext hread
    dsimp only [Option.getD_some] at hstart hnext hread ⊢
    rw [hstart, hnext]
    by_cases hpast : byteSize (dropped ++ kept) ≤ offset.toNat
    · have hwithin : byteSize dropped ≤ offset.toNat := by
        rw [byteSize_append] at hpast
        omega
      rw [if_pos hpast, max_eq_right hwithin, slice_ofChars, fitHead_of_le hpast, drop_length,
        decide_eq_false (Nat.not_lt.mpr hwithin)]
      rfl
    · rw [if_neg hpast, hread _ (le_max_left ..), max_def]
      by_cases hbehind : offset.toNat < byteSize dropped
      · simp only [hbehind, decide_true, if_true, if_neg (Nat.not_le.mpr hbehind)]
      · simp only [hbehind, decide_false, if_pos (Nat.not_lt.mp hbehind), Bool.false_eq_true,
          if_false]

end
end JobOutputs

/-- A reader that goes on where its last read ended; it is behind once a read has told it that
output was dropped. -/
structure JobReader where
  outputs : JobOutputs
  cursor : Nat
  received : JsString
  behind : Bool

namespace JobReader
variable {m : JobOutputs} {jobId : JsString} {job : AsyncJob}

/-- The characters of a chunk come in for a job, or the reader reads. -/
def step (jobId : JsString) (r : JobReader) : Option (JsString × List Char) → JobReader
  | some (id, chunk) => { r with outputs := r.outputs.appendOutput id (ofChars chunk) }
  | none =>
    match r.outputs.readOutputSince jobId r.cursor none with
    | none => r
    | some slice =>
      ⟨r.outputs, slice.nextOffset, r.received ++ slice.text, r.behind || slice.truncated⟩

/-- All that was written for a job. -/
def written (jobId : JsString) (ops : List (Option (JsString × List Char))) : List Char :=
  ops.flatMap fun op => op.elim [] fun append => if append.1 = jobId then append.2 else []

/-- The reader has received a front part of what was written, unless it is behind. -/
structure Sees (jobId : JsString) (job : AsyncJob) (r : JobReader) (seen cs : List Char) :
    Prop where
  job : r.outputs.manager.getJob jobId = some job
  holds : r.outputs.HoldsFor jobId cs
  front : seen <+: cs
  cursor : r.cursor = byteSize seen
  received : r.behind = false → r.received = ofChars seen

theorem Sees.read {r : JobReader} {seen cs : List Char} (h : Sees jobId job r seen cs) :
    Sees jobId job (r.step jobId none) cs cs := by
  obtain ⟨start, hread, -⟩ := JobOutputs.readOutputSince_eq h.holds h.job none rfl r.cursor
  rw [step, hread]
  refine ⟨h.job, h.holds, prefix_rfl, rfl, fun hbehind => ?_⟩
  obtain ⟨hbefore, hstart⟩ := Bool.or_eq_false_iff.mp hbehind
  obtain ⟨new, rfl⟩ := h.front
  rw [decide_eq_false_iff_not, Int.toNat_natCast, Nat.not_lt] at hstart
  rw [Int.toNat_natCast, max_eq_right hstart, h.cursor, slice_append (Nat.le_refl _),
    Nat.sub_self, slice_zero, h.received hbefore, ofChars_append]

theorem Sees.run {r : JobReader} {seen cs : List Char} (h : Sees jobId job r seen cs)
    (ops : List (Option (JsString × List Char))) :
    ∃ seen, Sees jobId job (Runs.run (step jobId) r ops) seen (cs ++ written jobId ops) := by
  induction ops generalizing r seen cs with
  | nil => exact ⟨seen, by simpa [written] using h⟩
  | cons op ops ih =>
    cases op with
    | none => simpa [written] using ih h.read
    | some append =>
      have hnext : Sees jobId job (r.step jobId (some append)) seen
          (if append.1 = jobId then cs ++ append.2 else cs) := by
        refine ⟨?_, h.holds.appendOutput h.job .., ?_, h.cursor, h.received⟩
        · rw [← h.job, step, JobOutputs.appendOutput]
          split_ifs <;> rfl
        · split_ifs
          · exact h.front.trans (prefix_append ..)
          · exact h.front
      have hrest := ih hnext
      by_cases hid : append.1 = jobId
      · simpa [written, hid] using hrest
      · simpa [written, hid] using hrest

section Fresh
variable (hlive : m.disposed = false) (hfresh : m.outputState.get jobId = none)
  (hjob : m.manager.getJob jobId = some job) (ops : List (Option (JsString × List Char)))
include hlive hfresh hjob

theorem sees_run : ∃ seen, Sees jobId job (Runs.run (step jobId) ⟨m, 0, [], false⟩ ops) seen
    (written jobId ops) := by
  have hnone : m.HoldsFor jobId [] := by
    rw [JobOutputs.HoldsFor, hfresh]
    exact ⟨hlive, [], [], rfl, rfl, rfl, rfl, rfl, Nat.zero_le _, .inl rfl⟩
  have hstart : Sees jobId job ⟨m, 0, [], false⟩ [] [] :=
    ⟨hjob, hnone, prefix_rfl, rfl, fun _ => rfl⟩
  exact hstart.run ops

/-- **At every moment of every run** a read from any offset gives what was written from the
character on that has the byte at the offset; only of an output that is too long something is
dropped, and then the read says so. -/
theorem reads_exact (filter : Option JsString) (howner : ownerMatches filter job.ownerId = true)
    (offset : Int) : ∃ start,
      (Runs.run (step jobId) ⟨m, 0, [], false⟩ ops).outputs.readOutputSince jobId offset filter =
        some ⟨jobId, job.status, sliceTextFromUtf8ByteOffset (ofChars (written jobId ops))
          (max start offset.toNat), start, byteSize (written jobId ops), offset.toNat < start⟩ ∧
      byteSize (written jobId ops) ≤ start + outputRetentionBytes ∧
      (start = 0 ∨ outputRetentionBytes < byteSize (written jobId ops)) := by
  obtain ⟨_, hsees⟩ := sees_run hlive hfresh hjob ops
  exact JobOutputs.readOutputSince_eq hsees.holds hsees.job filter howner offset

/-- **A reader that goes on where its last read ended** has received all that was written, once,
unless a read has told it that something was dropped. -/
theorem reader_receives_all
    (h : (Runs.run (step jobId) ⟨m, 0, [], false⟩ (ops ++ [none])).behind = false) :
    (Runs.run (step jobId) ⟨m, 0, [], false⟩ (ops ++ [none])).received =
      ofChars (written jobId ops) := by
  obtain ⟨_, hsees⟩ := sees_run hlive hfresh hjob ops
  rw [Runs.run_append] at h ⊢
  exact hsees.read.received h

end Fresh

def loneJob : AsyncJob := ⟨js "a", .running, none, none, none, none, [], false, true⟩

/-- A manager with one job. -/
def oneJob : JobOutputs :=
  ⟨{ AsyncJobManager.new with objects := [loneJob], jobs := InsertionMap.empty.set (js "a") 0 },
    false, .empty⟩

theorem getJob_oneJob : oneJob.manager.getJob (js "a") = some loneJob := rfl

/-- A read from within a character begins with it. -/
theorem reads_exact_oneJob : (Runs.run (step (js "a")) ⟨oneJob, 0, [], false⟩
    [some (js "a", ['x', 'é']), none, some (js "a", ['y'])]).outputs.readOutputSince (js "a") 2
      none = some ⟨js "a", .running, js "éy", 0, 4, false⟩ := by
  obtain ⟨start, hread, -, hstart⟩ := reads_exact rfl rfl getJob_oneJob
    [some (js "a", ['x', 'é']), none, some (js "a", ['y'])] none rfl 2
  obtain rfl := hstart.resolve_right (by decide)
  rw [hread]
  rfl

theorem reader_receives_all_oneJob : (Runs.run (step (js "a")) ⟨oneJob, 0, [], false⟩
    [some (js "a", ['x']), none, some (js "a", ['é']), none]).received = [0x78, 0xe9] :=
  reader_receives_all rfl rfl getJob_oneJob [some (js "a", ['x']), none, some (js "a", ['é'])] rfl

end JobReader
end GajaeCode
