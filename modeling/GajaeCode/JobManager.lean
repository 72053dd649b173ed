import Mathlib.Data.List.Sort
import GajaeCode.InsertionMap
import GajaeCode.JsString

/-! # Background jobs

`packages/coding-agent/src/async/job-manager.ts`: the jobs of a process, the records of its
subagents, and the queue of the subagents that wait for a free slot to be resumed.

The handlers of a run hold the job object, while `#jobs` maps an id to the object that has it
now.  So the objects are a list, one for each `register` that went through, and `jobs` maps an
id to a place in it.

`enqueued`, `evicted` and, of a job, `before`, `settled` and `idWasFree` are not the program's;
they record what happened.  A run's result, the resume runners and the order of everything are
given from outside, as arguments.
-/
namespace GajaeCode
open JsString

inductive JobStatus where
  | running | completed | failed | cancelled | paused
  deriving DecidableEq

/-- Canonical lifecycle of a subagent across pause/resume cycles. -/
inductive SubagentLifecycle where
  | running | paused | queued | completed | failed | cancelled
  deriving DecidableEq

def JobStatus.lifecycle : JobStatus → SubagentLifecycle
  | running => .running
  | completed => .completed
  | failed => .failed
  | cancelled => .cancelled
  | paused => .paused

theorem JobStatus.lifecycle_ne_queued (status : JobStatus) : status.lifecycle ≠ .queued := by
  cases status <;> exact fun h => SubagentLifecycle.noConfusion h

def JobStatus.Ended (status : JobStatus) : Prop :=
  status = completed ∨ status = failed ∨ status = cancelled

instance (status : JobStatus) : Decidable status.Ended :=
  inferInstanceAs (Decidable (_ ∨ _ ∨ _))

def isTerminalSubagentStatus (status : SubagentLifecycle) : Bool :=
  status = .completed || status = .failed || status = .cancelled

structure AsyncJob where
  id : JsString
  status : JobStatus
  resultText : Option JsString
  errorText : Option JsString
  ownerId : Option JsString
  /-- `metadata.subagent.id`. -/
  subagent : Option JsString
  /-- The statuses before this one, the last first. -/
  before : List JobStatus
  settled : Bool
  idWasFree : Bool

/-- Assigns `job.status`. -/
def AsyncJob.become (job : AsyncJob) (status : JobStatus) : AsyncJob :=
  { job with status, before := job.status :: job.before }

/-- Typed outcome a subagent task run may produce; a string is a completed one. -/
inductive SubagentRunOutcome where
  | completed (text : JsString)
  | paused (note : Option JsString)

structure QueuedResume where
  ownerId : Option JsString
  seq : Nat
  message : Option JsString

/-- Canonical, stable-id-keyed record for a subagent. -/
structure SubagentRecord where
  subagentId : JsString
  ownerId : Option JsString
  currentJobId : Option JsString
  historicalJobIds : List JsString
  status : SubagentLifecycle
  sessionFile : Option JsString
  resumable : Bool
  queued : Option QueuedResume

/-- A pending resume awaiting a free concurrency slot. -/
structure ResumeQueueEntry where
  subagentId : JsString
  ownerId : Option JsString
  seq : Nat
  message : Option JsString
  deriving DecidableEq

/-- Lightweight, manager-owned resume payload; of its data, the session file. -/
structure ResumeDescriptor where
  subagentId : JsString
  ownerId : Option JsString
  sessionFile : Option JsString

structure AsyncJobDelivery where
  /-- The job the delivery is about, as a place in the list of all jobs. -/
  job : Nat
  jobId : JsString
  text : JsString
  ownerId : Option JsString

inductive ShutdownTargetSource where
  | record | metadataJob

structure OwnerSubagentShutdownTarget where
  subagentId : JsString
  jobId : Option JsString
  source : ShutdownTargetSource

structure OwnerSubagentShutdownLease where
  ownerId : JsString
  id : Nat
  targets : List OwnerSubagentShutdownTarget

inductive ShutdownPhase where
  | active | proving | proved
  deriving DecidableEq

inductive ShutdownReason where
  | confirmed | deadlineExceeded | missingTerminalEvidence | leaseLost
  deriving DecidableEq

structure OwnerSubagentShutdownProof where
  ownerId : JsString
  leaseId : Nat
  reason : ShutdownReason
  targets : List OwnerSubagentShutdownTarget
  terminalIds : List JsString
  unresolvedIds : List JsString

def OwnerSubagentShutdownProof.confirmed (proof : OwnerSubagentShutdownProof) : Bool :=
  proof.reason = .confirmed

structure OwnerSubagentShutdownLeaseState where
  lease : OwnerSubagentShutdownLease
  backingJobIds : InsertionMap JsString (List JsString)
  phase : ShutdownPhase
  proof : Option OwnerSubagentShutdownProof

/-- What the manager's operations throw, or a run or a resume runner does. -/
inductive JobManagerError where
  | ownerSubagentShutdown
  | jobLimit (maxRunningJobs : Nat)
  | thrown (message : JsString)
  deriving DecidableEq

def JobManagerError.message : JobManagerError → JsString
  | ownerSubagentShutdown =>
    js "Cannot start subagent while owner " ++ js "shutdown is in progress."
  | jobLimit maxRunningJobs =>
    js "Background job limit reached (" ++ ofNat maxRunningJobs ++
      js "). Wait for running jobs to finish or " ++ js "cancel one."
  | thrown message => message

structure AsyncJobManagerOptions where
  maxRunningJobs : Option Int
  retentionMs : Option Int

def DEFAULT_RETENTION_MS : Int := 5 * 60 * 1000
def DEFAULT_MAX_RUNNING_JOBS : Int := 15

namespace AsyncJobManagerOptions

/-- `#maxRunningJobs`. -/
def runningLimit (options : AsyncJobManagerOptions) : Nat :=
  (max 1 (options.maxRunningJobs.getD DEFAULT_MAX_RUNNING_JOBS)).toNat

/-- `#retentionMs`. -/
def retention (options : AsyncJobManagerOptions) : Nat :=
  (max 0 (options.retentionMs.getD DEFAULT_RETENTION_MS)).toNat

end AsyncJobManagerOptions

structure AsyncJobRegisterOptions where
  id : Option JsString
  ownerId : Option JsString
  subagent : Option JsString

/-- What a resume runner does after it registered a job, or registered none. -/
inductive RunnerResult where
  /-- It returns the id of the job it registered. -/
  | registered
  | returns (jobId : Option JsString)
  | throws (error : JobManagerError)

structure RunnerCall where
  registers : Option AsyncJobRegisterOptions
  result : RunnerResult

structure AsyncJobManager where
  objects : List AsyncJob
  jobs : InsertionMap JsString Nat
  suppressedDeliveries : List JsString
  evictionTimers : List JsString
  subagentRecords : InsertionMap JsString SubagentRecord
  liveHandles : List JsString
  resumeQueue : List ResumeQueueEntry
  resumeSeq : Nat
  resumeRunner : Bool
  resumeDescriptors : InsertionMap JsString ResumeDescriptor
  descriptorResumeRunners : List JsString
  ownerSubagentShutdownLeases : InsertionMap JsString OwnerSubagentShutdownLeaseState
  ownerSubagentShutdownSeq : Nat
  enqueued : List AsyncJobDelivery
  evicted : List (Nat × JobStatus)

/-- A filter without an owner lets everything through. -/
def ownerMatches (filter ownerId : Option JsString) : Bool :=
  filter.getD [] = [] || ownerId = filter

/-- The first of the candidates `n`, `n + 1`, … that is not taken, `fuel` of them passed
over at most. -/
def firstFree (taken : List JsString) (candidate : Nat → JsString) : Nat → Nat → JsString
  | 0, n => candidate n
  | fuel + 1, n =>
    if candidate n ∈ taken then firstFree taken candidate fuel (n + 1) else candidate n

namespace AsyncJobManager
variable (options : AsyncJobManagerOptions) (s : AsyncJobManager)

def new : AsyncJobManager where
  objects := []
  jobs := .empty
  suppressedDeliveries := []
  evictionTimers := []
  subagentRecords := .empty
  liveHandles := []
  resumeQueue := []
  resumeSeq := 0
  resumeRunner := false
  resumeDescriptors := .empty
  descriptorResumeRunners := []
  ownerSubagentShutdownLeases := .empty
  ownerSubagentShutdownSeq := 0
  enqueued := []
  evicted := []

/-- The job an id is mapped to, as a place in the list of all jobs, with its object. -/
def jobEntry (id : JsString) : Option (Nat × AsyncJob) :=
  (s.jobs.get id).bind fun n => s.objects[n]?.map (n, ·)

/-- `this.#jobs.get(id)`. -/
def getJob (id : JsString) : Option AsyncJob := (s.jobEntry id).map Prod.snd

/-- The jobs in the map, as places in the list of all jobs, with their objects. -/
def listedJobs : List (Nat × AsyncJob) :=
  s.jobs.values.filterMap fun n => s.objects[n]?.map (n, ·)

def getRunningJobs (filter : Option JsString) : List (Nat × AsyncJob) :=
  s.listedJobs.filter fun e => ownerMatches filter e.2.ownerId && e.2.status = .running

def isOwnerSubagentShutdownFenced (ownerId : Option JsString) : Bool :=
  ownerId.any fun ownerId => (s.ownerSubagentShutdownLeases.get ownerId).isSome

def resolveJobId (preferredId : Option JsString) : JsString :=
  let base := trim (preferredId.getD [])
  let taken := s.jobs.keys
  if base = [] then firstFree taken (fun n => js "bg_" ++ ofNat n) taken.length 1
  else if base ∉ taken then base
  else firstFree taken (fun n => base ++ js "-" ++ ofNat n) taken.length 2

/-- No timer would evict a job of this id, and no run of an earlier job of this id is
still going on. -/
def idIsFree (id : JsString) : Bool :=
  id ∉ s.evictionTimers && s.objects.all fun job => job.id ≠ id || job.settled

def register (register : AsyncJobRegisterOptions) :
    Except JobManagerError (AsyncJobManager × JsString) :=
  if register.ownerId.getD [] ≠ [] && s.isOwnerSubagentShutdownFenced register.ownerId then
    .error .ownerSubagentShutdown
  else if options.runningLimit ≤ (s.getRunningJobs none).length then
    .error (.jobLimit options.runningLimit)
  else
    let id := s.resolveJobId register.id
    let job : AsyncJob :=
      { id, status := .running, resultText := none, errorText := none,
        ownerId := register.ownerId, subagent := register.subagent, before := [],
        settled := false, idWasFree := s.idIsFree id }
    .ok ({ s with
      suppressedDeliveries := s.suppressedDeliveries.filter (· ≠ id)
      objects := s.objects ++ [job]
      jobs := s.jobs.set id s.objects.length }, id)

/-- Assigns fields of a job object. -/
def updateJob (n : Nat) (f : AsyncJob → AsyncJob) : AsyncJobManager :=
  { s with objects := s.objects.modify n f }

def enqueueDelivery (n : Nat) (jobId text : JsString) : AsyncJobManager :=
  if jobId ∈ s.suppressedDeliveries then s
  else
    { s with enqueued := s.enqueued ++ [⟨n, jobId, text, (s.getJob jobId).bind (·.ownerId)⟩] }

def acknowledgeDeliveries (jobIds : List JsString) : AsyncJobManager :=
  let uniqueJobIds := (jobIds.map trim).filter (· ≠ [])
  { s with suppressedDeliveries := uniqueJobIds.foldl addFirst s.suppressedDeliveries }

variable (jobId subagentId : JsString)

def recordByJobId : Option SubagentRecord :=
  s.subagentRecords.values.find? fun record => record.currentJobId = some jobId

def removeLiveHandle : AsyncJobManager :=
  { s with liveHandles := s.liveHandles.filter (· ≠ subagentId) }

def purgeTerminalSubagentStateForJob : AsyncJobManager :=
  match s.recordByJobId jobId with
  | none => s
  | some record =>
    if record.status = .paused || record.status = .queued then s
    else s.removeLiveHandle record.subagentId

def evictJob : AsyncJobManager :=
  let removed := (s.jobEntry jobId).map fun e => (e.1, e.2.status)
  let purged := s.purgeTerminalSubagentStateForJob jobId
  { purged with
    jobs := s.jobs.erase jobId
    suppressedDeliveries := s.suppressedDeliveries.filter (· ≠ jobId)
    evicted := s.evicted ++ removed.toList }

def scheduleEviction : AsyncJobManager :=
  if options.retention ≤ 0 then s.evictJob jobId
  else { s with evictionTimers := addFirst s.evictionTimers jobId }

/-- The callback of an eviction timer, if one is pending for the id. -/
def evictionTimer : AsyncJobManager :=
  if jobId ∈ s.evictionTimers then
    { s with evictionTimers := s.evictionTimers.filter (· ≠ jobId) }.evictJob jobId
  else s

/-- Assigns fields of a record, which the map lists under its id. -/
def setRecord (record : SubagentRecord) : AsyncJobManager :=
  { s with subagentRecords := s.subagentRecords.set record.subagentId record }

def markRecord (status : SubagentLifecycle) : AsyncJobManager :=
  match s.recordByJobId jobId with
  | none => s
  | some record => (s.setRecord { record with status }).removeLiveHandle record.subagentId

def markRecordPaused : AsyncJobManager := s.markRecord jobId .paused

/-- `#markRecordTerminal`, for a status of a job that is over. -/
def markRecordTerminal (status : SubagentLifecycle) : AsyncJobManager :=
  s.markRecord jobId status

def getResumeDescriptor (filter : Option JsString) : Option ResumeDescriptor :=
  (s.resumeDescriptors.get (trim subagentId)).filter fun d => ownerMatches filter d.ownerId

def recordFromResumeDescriptor (filter : Option JsString) :
    AsyncJobManager × Option SubagentRecord :=
  match s.getResumeDescriptor subagentId filter with
  | none => (s, none)
  | some descriptor =>
    let sessionFile := descriptor.sessionFile.filter fun file => trim file ≠ []
    let record : SubagentRecord :=
      { subagentId := descriptor.subagentId, ownerId := descriptor.ownerId, currentJobId := none,
        historicalJobIds := [], status := .completed, sessionFile,
        resumable := sessionFile.isSome, queued := none }
    (s.setRecord record, some record)

/-- `getSubagentRecord`, which may make the record of a resume descriptor. -/
def getSubagentRecord (filter : Option JsString) : AsyncJobManager × Option SubagentRecord :=
  match s.subagentRecords.get (trim subagentId) with
  | some record => (s, if ownerMatches filter record.ownerId then some record else none)
  | none => s.recordFromResumeDescriptor (trim subagentId) filter

/-! ## Resuming -/

inductive ResumeRefusal where
  | notFound | ownerShutdownInProgress | alreadyRunning | alreadyQueued | contextUnavailable
  | noRunner | resumeFailed
  deriving DecidableEq

/-- The result of `resumeSubagent`; one with a reason is not ok. -/
structure ResumeResult where
  status : Option SubagentLifecycle
  jobId : Option JsString
  queued : Bool
  reason : Option ResumeRefusal

def ResumeResult.refused (status : Option SubagentLifecycle) (reason : ResumeRefusal) :
    ResumeResult := ⟨status, none, false, some reason⟩

def resolveResumeRunner : Bool :=
  subagentId ∈ s.descriptorResumeRunners || s.resumeRunner

/-- Calls a resume runner: the job it registers, and what it returns or throws. -/
def callRunner (call : RunnerCall) :
    AsyncJobManager × Except JobManagerError (Option JsString) :=
  match call.registers.map (s.register options) with
  | some (.error error) => (s, .error error)
  | some (.ok (s', id)) =>
    match call.result with
    | .registered => (s', .ok (some id))
    | .returns jobId => (s', .ok jobId)
    | .throws error => (s', .error error)
  | none =>
    match call.result with
    | .registered => (s, .ok none)
    | .returns jobId => (s, .ok jobId)
    | .throws error => (s, .error error)

def startResume (call : RunnerCall) (record : SubagentRecord) :
    AsyncJobManager × Except JobManagerError ResumeResult :=
  if s.isOwnerSubagentShutdownFenced record.ownerId then
    (s, .ok (.refused (some record.status) .ownerShutdownInProgress))
  else if !s.resolveResumeRunner record.subagentId then (s, .ok (.refused none .resumeFailed))
  else
    match s.callRunner options call with
    | (s, .error error) => (s, .error error)
    | (s, .ok newJobId) =>
      let newJobId := newJobId.getD []
      if newJobId = [] then (s, .ok (.refused none .resumeFailed))
      else
        let status := ((s.getJob newJobId).map (·.status.lifecycle)).getD .running
        let historical := record.currentJobId.toList.filter fun id => id ≠ [] && id ≠ newJobId
        let record := { record with
          historicalJobIds := record.historicalJobIds ++ historical
          currentJobId := some newJobId
          status, queued := none }
        (s.setRecord record, .ok ⟨some status, some newJobId, false, none⟩)

def queuedRecord : Option SubagentRecord :=
  (s.subagentRecords.get subagentId).filter fun record => record.status = .queued

/-- The loop of `#drainResumeQueue`; `kept` are the entries before `index`. -/
def drainFrom (runners : ResumeQueueEntry → RunnerCall) :
    List ResumeQueueEntry → List ResumeQueueEntry → AsyncJobManager →
      AsyncJobManager × Option JobManagerError
  | kept, [], s => ({ s with resumeQueue := kept }, none)
  | kept, entry :: rest, s =>
    if (s.getRunningJobs none).length < options.runningLimit then
      match s.queuedRecord entry.subagentId with
      | none => drainFrom runners kept rest s
      | some record =>
        if s.isOwnerSubagentShutdownFenced entry.ownerId then
          drainFrom runners (kept ++ [entry]) rest s
        else
          match s.startResume options (runners entry) record with
          | (s, .ok result) =>
            if result.reason = some .ownerShutdownInProgress then
              drainFrom runners (kept ++ [entry]) rest s
            else drainFrom runners kept rest s
          | (s, .error .ownerSubagentShutdown) => drainFrom runners (kept ++ [entry]) rest s
          | (s, .error error) => ({ s with resumeQueue := kept ++ entry :: rest }, some error)
    else ({ s with resumeQueue := kept ++ entry :: rest }, none)

/-- `#drainResumeQueue`; what the runner does when it is called for an entry is given. -/
def drainResumeQueue (runners : ResumeQueueEntry → RunnerCall) :
    AsyncJobManager × Option JobManagerError :=
  drainFrom options runners [] (s.resumeQueue.insertionSort fun a b => a.seq ≤ b.seq) s

/-- `resumeSubagent`; what the runner does, if it is called, is given. -/
def resumeSubagent (filter message : Option JsString)
    (call : RunnerCall) : AsyncJobManager × Except JobManagerError ResumeResult :=
  match s.getSubagentRecord subagentId filter with
  | (s, none) => (s, .ok (.refused none .notFound))
  | (s, some record) =>
    if s.isOwnerSubagentShutdownFenced record.ownerId then
      (s, .ok (.refused (some record.status) .ownerShutdownInProgress))
    else if record.status = .running then (s, .ok (.refused (some .running) .alreadyRunning))
    else if record.status = .queued then
      match record.queued with
      | some queued =>
        if message ≠ none then
          let updated := s.setRecord { record with queued := some { queued with message } }
          -- `find` gives the first entry of the subagent, and that one is changed.
          let place := s.resumeQueue.findIdx fun entry => entry.subagentId = record.subagentId
          ({ updated with resumeQueue := s.resumeQueue.modify place ({ · with message }) },
            .ok ⟨some .queued, none, true, none⟩)
        else (s, .ok (.refused (some .queued) .alreadyQueued))
      | none => (s, .ok (.refused (some .queued) .alreadyQueued))
    else if !record.resumable || record.sessionFile.getD [] = [] then
      (s, .ok (.refused none .contextUnavailable))
    else if !s.resolveResumeRunner record.subagentId then (s, .ok (.refused none .noRunner))
    else if options.runningLimit ≤ (s.getRunningJobs none).length then
      let seq := s.resumeSeq + 1
      let record := { record with status := .queued, queued := some ⟨record.ownerId, seq, message⟩ }
      ({ s.setRecord record with
          resumeSeq := seq
          resumeQueue := s.resumeQueue ++ [⟨record.subagentId, record.ownerId, seq, message⟩] },
        .ok ⟨some .queued, none, true, none⟩)
    else s.startResume options call record

/-- `pauseSubagent`; the handle it finds is asked to pause, which changes nothing here. -/
def pauseSubagent (filter : Option JsString) : AsyncJobManager × Option SubagentLifecycle × Bool :=
  match s.getSubagentRecord subagentId filter with
  | (s, none) => (s, none, false)
  | (s, some record) =>
    (s, some record.status, record.status = .running && record.subagentId ∈ s.liveHandles)

/-- `cancel`; `true` if there was a job to cancel. -/
def cancel (id : JsString) (filter : Option JsString) (runners : ResumeQueueEntry → RunnerCall) :
    AsyncJobManager × Except JobManagerError Bool :=
  match s.jobEntry id with
  | none => (s, .ok false)
  | some (n, job) =>
    if !ownerMatches filter job.ownerId then (s, .ok false)
    else if job.status = .paused then
      let s := s.updateJob n (·.become .cancelled)
      let s := s.markRecordTerminal id .cancelled
      let s := s.scheduleEviction options id
      let drained := s.drainResumeQueue options runners
      (drained.1, drained.2.elim (.ok true) .error)
    else if job.status ≠ .running then (s, .ok false)
    else (s.updateJob n (·.become .cancelled), .ok true)

def cancelAll (filter : Option JsString) : AsyncJobManager :=
  (s.getRunningJobs filter).foldl (fun s e =>
    (s.updateJob e.1 (·.become .cancelled)).scheduleEviction options e.2.id) s

/-- The `try` of the job's promise, from the outcome of its run on. -/
def settleOutcome (n : Nat) (job : AsyncJob) (outcome : SubagentRunOutcome)
    (runners : ResumeQueueEntry → RunnerCall) : AsyncJobManager × Option JobManagerError :=
  if job.status = .cancelled then
    let text := match outcome with
      | .completed text => some text
      | .paused note => note
    let s := s.updateJob n ({ · with resultText := text })
    let s := s.scheduleEviction options job.id
    let s := s.markRecordTerminal job.id .cancelled
    s.drainResumeQueue options runners
  else
    match outcome with
    | .paused note =>
      let s := s.updateJob n (·.become .paused)
      let s := if note.getD [] = [] then s else s.updateJob n ({ · with resultText := note })
      let s := s.markRecordPaused job.id
      s.drainResumeQueue options runners
    | .completed text =>
      let s := s.updateJob n fun job => { job.become .completed with resultText := some text }
      let s := s.enqueueDelivery n job.id text
      let s := s.scheduleEviction options job.id
      let s := s.markRecordTerminal job.id .completed
      s.drainResumeQueue options runners

/-- The `catch` of the job's promise; `status` is the job's when it is reached. -/
def settleError (n : Nat) (id : JsString) (status : JobStatus) (error : JobManagerError)
    (runners : ResumeQueueEntry → RunnerCall) : AsyncJobManager × Option JobManagerError :=
  if status = .cancelled then
    let s := s.updateJob n ({ · with errorText := some error.message })
    let s := s.scheduleEviction options id
    let s := s.markRecordTerminal id .cancelled
    s.drainResumeQueue options runners
  else
    let s := s.updateJob n fun job =>
      { job.become .failed with errorText := some error.message }
    let s := s.enqueueDelivery n id error.message
    let s := s.scheduleEviction options id
    let s := s.markRecordTerminal id .failed
    s.drainResumeQueue options runners

/-- The run of the `n`-th job is over: what follows its `await` in the job's promise.  The
resume queue is drained at the end of the `try`, and again at the end of the `catch`. -/
def settle (n : Nat) (result : Except JsString SubagentRunOutcome)
    (runners retries : ResumeQueueEntry → RunnerCall) : AsyncJobManager :=
  match s.objects[n]? with
  | none => s
  | some job =>
    if job.settled then s
    else
      let tried := match result with
        | .ok outcome => s.settleOutcome options n job outcome runners
        | .error message => (s, some (.thrown message))
      let caught := match tried with
        | (s, none) => s
        | (s, some error) =>
          match s.objects[n]? with
          | none => s
          | some thrower => (s.settleError options n job.id thrower.status error retries).1
      caught.updateJob n ({ · with settled := true })

/-- `cancelSubagent`, across running, paused and queued states. -/
def cancelSubagent (filter : Option JsString)
    (runners : ResumeQueueEntry → RunnerCall) : AsyncJobManager × Except JobManagerError Bool :=
  match s.getSubagentRecord subagentId filter with
  | (s, none) => (s, .ok false)
  | (s, some record) =>
    let jobId := record.currentJobId.getD []
    if record.status = .running && jobId ≠ [] then s.cancel options jobId filter runners
    else if record.status = .paused then
      let s :=
        match (s.jobEntry jobId).filter fun e => jobId ≠ [] && e.2.status = .paused with
        | some (n, _) => (s.updateJob n (·.become .cancelled)).scheduleEviction options jobId
        | none => s
      let s := (s.setRecord { record with status := .cancelled }).removeLiveHandle record.subagentId
      let drained := s.drainResumeQueue options runners
      (drained.1, drained.2.elim (.ok true) .error)
    else if record.status = .queued then
      ({ s.setRecord { record with status := .cancelled, queued := none } with
        resumeQueue := s.resumeQueue.eraseP fun entry => entry.subagentId = record.subagentId },
        .ok true)
    else (s, .ok false)

def beginOwnerSubagentShutdown (ownerId : JsString) :
    AsyncJobManager × Option OwnerSubagentShutdownLease :=
  if ownerId = [] || (s.ownerSubagentShutdownLeases.get ownerId).isSome then (s, none)
  else
    let records := s.subagentRecords.values.filter fun record =>
      record.ownerId = some ownerId && !isTerminalSubagentStatus record.status
    let jobs := (s.listedJobs.map Prod.snd).filter fun job =>
      job.ownerId = some ownerId && job.subagent.getD [] ≠ [] &&
        (job.status = .running || job.status = .paused || job.status = .cancelled)
    let target (record : SubagentRecord) : OwnerSubagentShutdownTarget :=
      ⟨record.subagentId, if record.status = .queued then none else record.currentJobId, .record⟩
    let recorded : InsertionMap JsString OwnerSubagentShutdownTarget :=
      records.foldl (fun m record => m.set record.subagentId (target record)) .empty
    let targets := jobs.foldl (fun m job =>
      let subagentId := job.subagent.getD []
      if (m.get subagentId).isSome then m
      else m.set subagentId ⟨subagentId, some job.id, .metadataJob⟩) recorded
    let backing :=
      records.filterMap (fun record =>
        let jobId := record.currentJobId.getD []
        if record.status = .queued || jobId = [] then none else some (record.subagentId, jobId)) ++
      jobs.filterMap fun job =>
        if job.id = [] then none else some (job.subagent.getD [], job.id)
    let backingJobIds := backing.foldl (fun m e =>
      m.set e.1 (addFirst ((m.get e.1).getD []) e.2)) .empty
    let seq := s.ownerSubagentShutdownSeq + 1
    let lease : OwnerSubagentShutdownLease := ⟨ownerId, seq, targets.values⟩
    ({ s with
      ownerSubagentShutdownSeq := seq
      ownerSubagentShutdownLeases :=
        s.ownerSubagentShutdownLeases.set ownerId ⟨lease, backingJobIds, .active, none⟩ },
      some lease)

variable (lease : OwnerSubagentShutdownLease)

/-- The state of a lease, unless it is lost. -/
def leaseState : Option OwnerSubagentShutdownLeaseState :=
  (s.ownerSubagentShutdownLeases.get lease.ownerId).filter fun state => state.lease.id = lease.id

def setLeaseState (state : OwnerSubagentShutdownLeaseState) : AsyncJobManager :=
  { s with ownerSubagentShutdownLeases := s.ownerSubagentShutdownLeases.set lease.ownerId state }

/-- `cancelAndProveOwnerSubagents` up to its cancellations.  Each of those is a call of
`cancelSubagent` or `cancel`, an operation of its own here. -/
def startProving : AsyncJobManager :=
  match s.leaseState lease with
  | none => s
  | some state =>
    if state.phase = .proved && state.proof.isSome then s
    else s.setLeaseState lease { state with phase := .proving }

def hasTerminalShutdownEvidence (target : OwnerSubagentShutdownTarget) (ownerId : JsString)
    (backingJobIds : InsertionMap JsString (List JsString)) (settled : List JsString) : Bool :=
  (s.subagentRecords.get target.subagentId).any fun record =>
    record.ownerId = some ownerId && isTerminalSubagentStatus record.status &&
      ((backingJobIds.get target.subagentId).getD []).all fun jobId =>
        jobId ∈ settled && (s.getJob jobId).all fun job => job.ownerId = some ownerId

def ownerSubagentShutdownProof (reason : ShutdownReason)
    (unresolvedIds : List JsString) : OwnerSubagentShutdownProof :=
  ⟨lease.ownerId, lease.id, reason, lease.targets,
    (lease.targets.map (·.subagentId)).filter (· ∉ unresolvedIds), unresolvedIds⟩

/-- `cancelAndProveOwnerSubagents` after it waited: `settled` are the jobs whose promise was
seen to settle, and the deadline may have passed. -/
def proveOwnerSubagents (settled : List JsString)
    (deadlineExceeded : Bool) : AsyncJobManager × OwnerSubagentShutdownProof :=
  match (s.leaseState lease).filter fun state => state.phase = .proving with
  | none =>
    (s, ownerSubagentShutdownProof lease .leaseLost (lease.targets.map (·.subagentId)))
  | some state =>
    let unresolvedIds := (lease.targets.filter fun target =>
      !s.hasTerminalShutdownEvidence target lease.ownerId state.backingJobIds settled).map
        (·.subagentId)
    let reason :=
      if unresolvedIds = [] then .confirmed
      else if deadlineExceeded then .deadlineExceeded
      else .missingTerminalEvidence
    let proof := ownerSubagentShutdownProof lease reason unresolvedIds
    (s.setLeaseState lease { state with phase := .proved, proof := some proof }, proof)

def purgeOwnerSubagentState (ownerId : JsString) : AsyncJobManager :=
  let purged (owner : Option JsString) : Bool := owner = some ownerId
  let subagentIds := (s.subagentRecords.entries.filter fun e => purged e.2.ownerId).map Prod.fst
  { s with
    resumeQueue := s.resumeQueue.filter fun entry => !purged entry.ownerId
    liveHandles := s.liveHandles.filter (· ∉ subagentIds)
    resumeDescriptors := subagentIds.foldl .erase s.resumeDescriptors
    descriptorResumeRunners := s.descriptorResumeRunners.filter (· ∉ subagentIds)
    subagentRecords := subagentIds.foldl .erase s.subagentRecords }

inductive ShutdownOutcome where
  | commit | release
  deriving DecidableEq

/-- `finishOwnerSubagentShutdown`; the jobs whose deliveries are pending are given. -/
def finishOwnerSubagentShutdown (outcome : ShutdownOutcome)
    (pendingJobIds : List JsString) : AsyncJobManager :=
  match s.leaseState lease with
  | none => s
  | some state =>
    let s :=
      if outcome = .commit && state.proof.any (·.confirmed) then
        (s.acknowledgeDeliveries pendingJobIds).purgeOwnerSubagentState lease.ownerId
      else s
    { s with ownerSubagentShutdownLeases := s.ownerSubagentShutdownLeases.erase lease.ownerId }

inductive Op where
  | register (register : AsyncJobRegisterOptions)
  | settle (n : Nat) (result : Except JsString SubagentRunOutcome)
      (runners retries : ResumeQueueEntry → RunnerCall)
  | cancel (id : JsString) (filter : Option JsString) (runners : ResumeQueueEntry → RunnerCall)
  | cancelAll (filter : Option JsString)
  | evictionTimer (jobId : JsString)
  | acknowledgeDeliveries (jobIds : List JsString)
  | setResumeRunner
  | registerResumeDescriptor (descriptor : ResumeDescriptor) (withRunner : Bool)
  | registerSubagentRecord (record : SubagentRecord)
  | registerLiveHandle (subagentId : JsString)
  | removeLiveHandle (subagentId : JsString)
  | resumeSubagent (subagentId : JsString) (filter message : Option JsString) (call : RunnerCall)
  | cancelSubagent (subagentId : JsString) (filter : Option JsString)
      (runners : ResumeQueueEntry → RunnerCall)
  | pauseSubagent (subagentId : JsString) (filter : Option JsString)
  | beginOwnerSubagentShutdown (ownerId : JsString)
  | startProving (lease : OwnerSubagentShutdownLease)
  | proveOwnerSubagents (lease : OwnerSubagentShutdownLease) (settled : List JsString)
      (deadlineExceeded : Bool)
  | finishOwnerSubagentShutdown (lease : OwnerSubagentShutdownLease) (outcome : ShutdownOutcome)
      (pendingJobIds : List JsString)

/-- The state after an operation, whether it returns or throws. -/
def step : AsyncJobManager → Op → AsyncJobManager
  | s, .register register =>
    match s.register options register with
    | .ok (s', _) => s'
    | .error _ => s
  | s, .settle n result runners retries => s.settle options n result runners retries
  | s, .cancel id filter runners => (s.cancel options id filter runners).1
  | s, .cancelAll filter => s.cancelAll options filter
  | s, .evictionTimer jobId => s.evictionTimer jobId
  | s, .acknowledgeDeliveries jobIds => s.acknowledgeDeliveries jobIds
  | s, .setResumeRunner => { s with resumeRunner := true }
  | s, .registerResumeDescriptor descriptor withRunner =>
    { s with
      resumeDescriptors := s.resumeDescriptors.set descriptor.subagentId descriptor
      descriptorResumeRunners :=
        if withRunner then addFirst s.descriptorResumeRunners descriptor.subagentId
        else s.descriptorResumeRunners }
  | s, .registerSubagentRecord record => s.setRecord record
  | s, .registerLiveHandle subagentId =>
    { s with liveHandles := addFirst s.liveHandles subagentId }
  | s, .removeLiveHandle subagentId => s.removeLiveHandle subagentId
  | s, .resumeSubagent subagentId filter message call =>
    (s.resumeSubagent options subagentId filter message call).1
  | s, .cancelSubagent subagentId filter runners =>
    (s.cancelSubagent options subagentId filter runners).1
  | s, .pauseSubagent subagentId filter => (s.pauseSubagent subagentId filter).1
  | s, .beginOwnerSubagentShutdown ownerId => (s.beginOwnerSubagentShutdown ownerId).1
  | s, .startProving lease => s.startProving lease
  | s, .proveOwnerSubagents lease settled deadlineExceeded =>
    (s.proveOwnerSubagents lease settled deadlineExceeded).1
  | s, .finishOwnerSubagentShutdown lease outcome pendingJobIds =>
    s.finishOwnerSubagentShutdown lease outcome pendingJobIds

end AsyncJobManager
end GajaeCode
