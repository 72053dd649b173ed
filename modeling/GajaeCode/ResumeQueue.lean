import GajaeCode.JobsEndOnce

/-! # The resume queue and the queued subagents

A subagent is queued exactly when the resume queue has one entry for it (`QueueMatches`).
The record and the queue are updated apart from each other, and there are two ways in which
they come apart: a resume runner that returns no id has its entry removed, and the end of a
job overwrites the status of the record that names the job, though it may be queued.

`Matched` is the invariant; its queue is an argument, since the loop that drains the queue
holds it in two parts.
-/
namespace GajaeCode
open JsString List Bool

/-- The call of a runner that returns no id, so that nothing is resumed. -/
def RunnerCall.StartsNothing (call : RunnerCall) : Prop :=
  (call.result = .registered ∧ call.registers = none) ∨
    ∃ jobId, call.result = .returns jobId ∧ jobId.getD [] = []

namespace AsyncJobManager
variable {options : AsyncJobManagerOptions} {s s' : AsyncJobManager}
  {queue : List ResumeQueueEntry}
variable {runners : ResumeQueueEntry → RunnerCall} {jobId : JsString} {record : SubagentRecord}
    {entry : ResumeQueueEntry}
variable {retries : ResumeQueueEntry → RunnerCall} {queue' : List ResumeQueueEntry}
    {filter : Option JsString} {old : SubagentRecord} {call : RunnerCall}

/-- **A subagent is queued exactly when the queue has one entry for it.** -/
def QueueMatches (s : AsyncJobManager) : Prop :=
  ∀ id record, s.subagentRecords.get id = some record →
    (record.status = .queued ↔
      (s.resumeQueue.filter fun entry => entry.subagentId = record.subagentId).length = 1)

/-- The subagents with an entry in the queue, each once, are those whose record is queued;
they have the owner of the record, and a runner. -/
structure Matched (queue : List ResumeQueueEntry) (s : AsyncJobManager) : Prop where
  nodup : (queue.map (·.subagentId)).Nodup
  queued : ∀ id, id ∈ queue.map (·.subagentId) ↔
    ∃ record, s.subagentRecords.get id = some record ∧ record.status = .queued
  owner : ∀ entry ∈ queue, ∀ record, s.subagentRecords.get entry.subagentId = some record →
    record.ownerId = entry.ownerId
  runner : ∀ entry ∈ queue, s.resolveResumeRunner entry.subagentId = true
  record : ∀ id record, s.subagentRecords.get id = some record → record.subagentId = id
  descriptor : ∀ id descriptor, s.resumeDescriptors.get id = some descriptor →
    descriptor.subagentId = id

theorem Matched.queueMatches (h : Matched s.resumeQueue s) : QueueMatches s := by
  intro id record hget
  obtain rfl := h.record id record hget
  have hmem : record.status = .queued ↔ record.subagentId ∈ s.resumeQueue.map (·.subagentId) := by
    rw [h.queued]
    constructor
    · exact fun hstatus => ⟨record, hget, hstatus⟩
    · rintro ⟨record', hget', hstatus⟩
      rwa [some.inj (hget.symm.trans hget')]
  have hcount : (s.resumeQueue.filter fun entry =>
      entry.subagentId = record.subagentId).length =
      (s.resumeQueue.map (·.subagentId)).count record.subagentId := by
    rw [count, countP_map, countP_eq_length_filter]
    congr 2
    funext entry
    exact (beq_eq_decide _ _).symm
  rw [hmem, hcount]
  constructor
  · exact count_eq_one_of_mem h.nodup
  · exact fun hone => count_pos_iff.mp (hone ▸ Nat.one_pos)

/-- What the invariant reads of a state, but for the queue. -/
def subagentState (s : AsyncJobManager) :
    InsertionMap JsString SubagentRecord × InsertionMap JsString ResumeDescriptor ×
      List JsString × Bool :=
  (s.subagentRecords, s.resumeDescriptors, s.descriptorResumeRunners, s.resumeRunner)

theorem Matched.congr (h : Matched queue s) (heq : s'.subagentState = s.subagentState) :
    Matched queue s' := by
  obtain ⟨hrecords, hdescriptors, hrunners, hrunner⟩ :
      s'.subagentRecords = s.subagentRecords ∧ s'.resumeDescriptors = s.resumeDescriptors ∧
        s'.descriptorResumeRunners = s.descriptorResumeRunners ∧
        s'.resumeRunner = s.resumeRunner := by
    simpa [subagentState] using heq
  refine ⟨h.nodup, hrecords ▸ h.queued, hrecords ▸ h.owner, ?_, hrecords ▸ h.record,
    hdescriptors ▸ h.descriptor⟩
  unfold resolveResumeRunner
  rw [hrunners, hrunner]
  exact h.runner

/-- A queue with the same entries but for their messages matches as well. -/
theorem Matched.of_map_eq (h : Matched queue s)
    (heq : queue'.map (fun e => (e.subagentId, e.ownerId)) = queue.map fun e => (e.subagentId,
      e.ownerId)) : Matched queue' s := by
  have hids : queue'.map (·.subagentId) = queue.map (·.subagentId) := by
    have hfst := congrArg (map Prod.fst) heq
    rw [map_map, map_map] at hfst
    exact hfst
  have hmem : ∀ entry' ∈ queue', ∃ entry ∈ queue, entry.subagentId = entry'.subagentId ∧
      entry.ownerId = entry'.ownerId := by
    intro entry' hentry'
    have hpair : (entry'.subagentId, entry'.ownerId) ∈
        queue.map fun e => (e.subagentId, e.ownerId) :=
      heq ▸ mem_map.mpr ⟨entry', hentry', rfl⟩
    obtain ⟨entry, hentry, hboth⟩ := mem_map.mp hpair
    exact ⟨entry, hentry, (Prod.mk.inj hboth).1, (Prod.mk.inj hboth).2⟩
  refine ⟨hids ▸ h.nodup, hids ▸ h.queued, ?_, ?_, h.record, h.descriptor⟩
  · intro entry' hentry' record hget
    obtain ⟨entry, hentry, hid, howner⟩ := hmem entry' hentry'
    exact (h.owner entry hentry record (hid ▸ hget)).trans howner
  · intro entry' hentry'
    obtain ⟨entry, hentry, hid, -⟩ := hmem entry' hentry'
    exact hid ▸ h.runner entry hentry

theorem Matched.perm (h : Matched queue s) (hperm : queue'.Perm queue) : Matched queue' s where
  nodup := (hperm.map _).nodup_iff.mpr h.nodup
  queued id := (hperm.map _).mem_iff.trans (h.queued id)
  owner entry hentry := h.owner entry (hperm.mem_iff.mp hentry)
  runner entry hentry := h.runner entry (hperm.mem_iff.mp hentry)
  record := h.record
  descriptor := h.descriptor

theorem get_setRecord (s : AsyncJobManager) (record : SubagentRecord) (id : JsString) :
    (s.setRecord record).subagentRecords.get id =
      if id = record.subagentId then some record else s.subagentRecords.get id :=
  InsertionMap.get_set ..

theorem Matched.record_of_mem (h : Matched queue s) (hentry : entry ∈ queue) :
    ∃ record, s.subagentRecords.get entry.subagentId = some record ∧ record.status = .queued :=
  (h.queued entry.subagentId).mp (mem_map_of_mem hentry)

/-- A record that is not queued may be replaced by another that is not. -/
theorem Matched.setRecord (h : Matched queue s)
    (hold : ∀ old, s.subagentRecords.get record.subagentId = some old → old.status ≠ .queued)
    (hnew : record.status ≠ .queued) : Matched queue (s.setRecord record) := by
  have hnot : record.subagentId ∉ queue.map (·.subagentId) := by
    rw [h.queued]
    rintro ⟨old, hget, hstatus⟩
    exact hold old hget hstatus
  refine ⟨h.nodup, fun id => ?_, fun entry hentry other hget => ?_, h.runner,
    fun id other hget => ?_, h.descriptor⟩
  · rw [get_setRecord]
    by_cases hid : id = record.subagentId
    · subst hid
      refine iff_of_false hnot ?_
      rintro ⟨other, hget, hstatus⟩
      rw [if_pos rfl] at hget
      obtain rfl := some.inj hget
      exact hnew hstatus
    · rw [if_neg hid]
      exact h.queued id
  · rw [get_setRecord, if_neg] at hget
    · exact h.owner entry hentry other hget
    · exact fun hid => hnot (hid ▸ mem_map_of_mem hentry)
  · rw [get_setRecord] at hget
    split_ifs at hget with hid
    · rw [← some.inj hget, hid]
    · exact h.record id other hget

theorem Matched.dequeue {before after : List ResumeQueueEntry}
    (h : Matched (before ++ entry :: after) s) (hid : record.subagentId = entry.subagentId)
    (hnew : record.status ≠ .queued) : Matched (before ++ after) (s.setRecord record) := by
  have hsub : (before ++ after).Sublist (before ++ entry :: after) :=
    (Sublist.refl before).append (sublist_cons_self entry after)
  have hperm : ((before ++ entry :: after).map (·.subagentId)).Perm
      (entry.subagentId :: (before ++ after).map (·.subagentId)) := by
    rw [map_append, map_cons, map_append]
    exact perm_middle
  obtain ⟨hnot, hrest⟩ := nodup_cons.mp (hperm.nodup_iff.mp h.nodup)
  refine ⟨hrest, fun id => ?_, fun other hother old hget => ?_,
    fun other hother => h.runner other (hsub.subset hother), fun id old hget => ?_, h.descriptor⟩
  · rw [get_setRecord, hid]
    by_cases heq : id = entry.subagentId
    · subst heq
      refine iff_of_false hnot ?_
      rintro ⟨old, hget, hstatus⟩
      rw [if_pos rfl] at hget
      obtain rfl := some.inj hget
      exact hnew hstatus
    · rw [if_neg heq, ← h.queued id, hperm.mem_iff, mem_cons, or_iff_right heq]
  · have hne : other.subagentId ≠ entry.subagentId := by
      intro heq
      rw [← heq] at hnot
      exact hnot (mem_map_of_mem hother)
    rw [get_setRecord, hid, if_neg hne] at hget
    exact h.owner other (hsub.subset hother) old hget
  · rw [get_setRecord] at hget
    split_ifs at hget with heq
    · rw [← some.inj hget, heq]
    · exact h.record id old hget

theorem Matched.enqueue (h : Matched queue s)
    (hold : ∀ old, s.subagentRecords.get record.subagentId = some old → old.status ≠ .queued)
    (hnew : record.status = .queued) (hrunner : s.resolveResumeRunner record.subagentId = true)
    (hid : entry.subagentId = record.subagentId) (howner : entry.ownerId = record.ownerId) :
    Matched (queue ++ [entry]) (s.setRecord record) := by
  have hnot : record.subagentId ∉ queue.map (·.subagentId) := by
    rw [h.queued]
    rintro ⟨old, hget, hstatus⟩
    exact hold old hget hstatus
  refine ⟨?_, fun id => ?_, fun other hother old hold => ?_, fun other hother => ?_,
    fun id old hold => ?_, h.descriptor⟩
  · rw [map_append, map_singleton, hid]
    exact h.nodup.append (nodup_singleton _) (by simpa using hnot)
  · rw [get_setRecord, map_append, mem_append, map_singleton, mem_singleton, hid]
    by_cases heq : id = record.subagentId
    · rw [if_pos heq]
      exact iff_of_true (.inr heq) ⟨record, rfl, hnew⟩
    · rw [if_neg heq, or_iff_left heq, h.queued id]
  · rw [get_setRecord] at hold
    rcases mem_append.mp hother with hother | hother
    · have hne : other.subagentId ≠ record.subagentId := by
        intro heq
        rw [← heq] at hnot
        exact hnot (mem_map_of_mem hother)
      rw [if_neg hne] at hold
      exact h.owner other hother old hold
    · obtain rfl := mem_singleton.mp hother
      rw [if_pos hid] at hold
      rw [← some.inj hold, howner]
  · rcases mem_append.mp hother with hother | hother
    · exact h.runner other hother
    · rw [mem_singleton.mp hother, hid]
      exact hrunner
  · rw [get_setRecord] at hold
    split_ifs at hold with heq
    · rw [← some.inj hold, heq]
    · exact h.record id old hold

/-! ## What draining the queue does to the records -/

theorem resolveJobId_ne_nil (s : AsyncJobManager) (preferredId : Option JsString) :
    s.resolveJobId preferredId ≠ [] := by
  have hfirst : ∀ (taken : List JsString) (candidate : Nat → JsString) (fuel n : Nat),
      (∀ n, candidate n ≠ []) → firstFree taken candidate fuel n ≠ [] := by
    intro taken candidate fuel
    induction fuel with
    | zero => exact fun n h => h n
    | succ fuel ih =>
      intro n h
      rw [firstFree]
      split_ifs
      · exact ih (n + 1) h
      · exact h n
  unfold resolveJobId
  dsimp only
  split_ifs with hbase
  · exact hfirst _ _ _ _ fun n => by simp [js]
  · exact hfirst _ _ _ _ fun n => by simp [hbase]
  · exact hbase

section
variable {register : AsyncJobRegisterOptions} {id : JsString}
    (h : s.register options register = .ok (s', id))
include h

theorem id_of_register : id = s.resolveJobId register.id := by
  unfold AsyncJobManager.register at h
  split_ifs at h
  exact (Prod.mk.inj (Except.ok.inj h)).2.symm

theorem subagentState_register : s'.subagentState = s.subagentState := by
  obtain ⟨job, -, -, -, -, rfl⟩ := register_eq_ok h
  rfl

end

theorem subagentState_callRunner (options : AsyncJobManagerOptions) (s : AsyncJobManager)
    (call : RunnerCall) : (s.callRunner options call).1.subagentState = s.subagentState :=
  callRunner_induction (motive := fun s' => s'.subagentState = s.subagentState)
    (fun _ _ _ _ hok h => (subagentState_register hok).trans h) call rfl

theorem startsNothing_of_callRunner {jobId : Option JsString}
    (h : s.callRunner options call = (s', .ok jobId)) (hnone : jobId.getD [] = []) :
    call.StartsNothing := by
  unfold callRunner at h
  cases hregisters : call.registers with
  | none =>
    rw [hregisters] at h
    cases hresult : call.result with
    | registered => exact .inl ⟨hresult, hregisters⟩
    | returns jobId' =>
      rw [hresult] at h
      obtain rfl := Except.ok.inj (Prod.mk.inj h).2
      exact .inr ⟨jobId', hresult, hnone⟩
    | throws error =>
      rw [hresult] at h
      cases (Prod.mk.inj h).2
  | some register =>
    rw [hregisters, Option.map_some] at h
    cases hregistered : s.register options register with
    | error error =>
      rw [hregistered] at h
      cases (Prod.mk.inj h).2
    | ok e =>
      rw [hregistered] at h
      cases hresult : call.result with
      | registered =>
        rw [hresult] at h
        obtain rfl := Except.ok.inj (Prod.mk.inj h).2
        exact absurd hnone (id_of_register hregistered ▸ resolveJobId_ne_nil s _)
      | returns jobId' =>
        rw [hresult] at h
        obtain rfl := Except.ok.inj (Prod.mk.inj h).2
        exact .inr ⟨jobId', hresult, hnone⟩
      | throws error =>
        rw [hresult] at h
        cases (Prod.mk.inj h).2

/-- **What a resume does.**  It assigns a new status to the record, or leaves all records
as they are: it throws, the owner is fenced, or there is nothing that could start it. -/
theorem startResume_cases {result : Except JobManagerError ResumeResult}
    (h : s.startResume options call record = (s', result)) :
    (∃ (s₁ : AsyncJobManager) (started : SubagentRecord), s₁.subagentState = s.subagentState ∧
      s' = s₁.setRecord started ∧ started.subagentId = record.subagentId ∧
      started.status ≠ .queued ∧ ∃ r, result = .ok r ∧ r.reason = none) ∨
    (s'.subagentState = s.subagentState ∧ ((∃ error, result = .error error) ∨ ∃ r, result = .ok r ∧
          (s.isOwnerSubagentShutdownFenced record.ownerId = true ∧
              r.reason = some .ownerShutdownInProgress ∨ r.reason = some .resumeFailed ∧
              (s.resolveResumeRunner record.subagentId = false ∨ call.StartsNothing)))) := by
  unfold startResume at h
  by_cases hfenced : s.isOwnerSubagentShutdownFenced record.ownerId = true
  · rw [if_pos hfenced] at h
    obtain ⟨rfl, rfl⟩ := Prod.mk.inj h
    exact .inr ⟨rfl, .inr ⟨_, rfl, .inl ⟨hfenced, rfl⟩⟩⟩
  rw [if_neg hfenced] at h
  cases hrunner : s.resolveResumeRunner record.subagentId with
  | false =>
    rw [hrunner] at h
    obtain ⟨rfl, rfl⟩ := Prod.mk.inj h
    exact .inr ⟨rfl, .inr ⟨_, rfl, .inr ⟨rfl, .inl rfl⟩⟩⟩
  | true =>
    rw [hrunner] at h
    have hstate := subagentState_callRunner options s call
    cases hcalled : s.callRunner options call with
    | mk s₁ returned =>
      rw [hcalled] at h hstate
      cases returned with
      | error error =>
        obtain ⟨rfl, rfl⟩ := Prod.mk.inj h
        exact .inr ⟨hstate, .inl ⟨error, rfl⟩⟩
      | ok jobId =>
        change (if jobId.getD [] = [] then _ else _) = _ at h
        by_cases hnone : jobId.getD [] = []
        · rw [if_pos hnone] at h
          obtain ⟨rfl, rfl⟩ := Prod.mk.inj h
          exact .inr ⟨hstate, .inr ⟨_, rfl, .inr ⟨rfl, .inr (startsNothing_of_callRunner hcalled
            hnone)⟩⟩⟩
        · rw [if_neg hnone] at h
          obtain ⟨rfl, rfl⟩ := Prod.mk.inj h
          refine .inl ⟨s₁, _, hstate, rfl, rfl, ?_, _, rfl, rfl⟩
          cases s₁.getJob (jobId.getD []) with
          | none => exact SubagentLifecycle.noConfusion
          | some job => exact job.status.lifecycle_ne_queued

/-- **Draining keeps the queue and the records matched**, if every runner it calls starts
something or throws. -/
theorem drainFrom_matched {kept rest : List ResumeQueueEntry} (h : Matched (kept ++ rest) s)
    (hstarts : ∀ entry ∈ rest, ¬ (runners entry).StartsNothing) :
    Matched (drainFrom options runners kept rest s).1.resumeQueue
      (drainFrom options runners kept rest s).1 := by
  induction rest generalizing kept s with
  | nil =>
    rw [append_nil] at h
    exact h.congr rfl
  | cons entry rest ih =>
    obtain ⟨hentry, hrest⟩ := forall_mem_cons.mp hstarts
    have hkeep : ∀ {s₁ : AsyncJobManager}, s₁.subagentState = s.subagentState →
        Matched ((kept ++ [entry]) ++ rest) s₁ := by
      intro s₁ heq
      rw [append_assoc]
      exact h.congr heq
    have hmem : entry ∈ kept ++ entry :: rest := mem_append_right _ mem_cons_self
    rw [drainFrom]
    by_cases hslots : (s.getRunningJobs none).length < options.runningLimit
    · rw [if_pos hslots]
      cases hqueued : s.queuedRecord entry.subagentId with
      | none =>
        -- The record of an entry is queued.
        obtain ⟨record, hget, hstatus⟩ := h.record_of_mem hmem
        rw [queuedRecord_eq_some.mpr ⟨hget, hstatus⟩] at hqueued
        exact absurd hqueued (Option.some_ne_none record)
      | some record =>
        obtain ⟨hget, hstatus⟩ := queuedRecord_eq_some.mp hqueued
        have hid := h.record _ record hget
        have howner := h.owner entry hmem record hget
        have hrunner := h.runner entry hmem
        dsimp only
        by_cases hfenced : s.isOwnerSubagentShutdownFenced entry.ownerId = true
        · rw [if_pos hfenced]
          exact ih (hkeep rfl) hrest
        · rw [if_neg hfenced]
          cases hstarted : s.startResume options (runners entry) record with
          | mk s₁ result =>
            rcases startResume_cases hstarted with
              ⟨s₂, started, heq, rfl, hid', hne, r, rfl, hreason⟩ |
              ⟨heq, ⟨error, rfl⟩ | ⟨r, rfl, ⟨hfence, -⟩ | ⟨-, hfailed⟩⟩⟩
            · dsimp only
              rw [hreason, if_neg (Option.some_ne_none _).symm]
              exact ih ((h.congr heq).dequeue (hid'.trans hid) hne) hrest
            · cases error with
              | ownerSubagentShutdown => exact ih (hkeep heq) hrest
              | jobLimit _ | thrown _ => exact h.congr heq
            · exact absurd (howner ▸ hfence) hfenced
            · rcases hfailed with hfailed | hfailed
              · rw [hid, hrunner] at hfailed
                exact Bool.noConfusion hfailed
              · exact absurd hfailed hentry
    · rw [if_neg hslots]
      exact h.congr rfl

/-- No runner that draining the queue may call starts nothing. -/
def StartsAll (s : AsyncJobManager) (runners : ResumeQueueEntry → RunnerCall) : Prop :=
  ∀ entry ∈ s.resumeQueue, ¬ (runners entry).StartsNothing

theorem drainResumeQueue_matched (h : Matched s.resumeQueue s) (hstarts : s.StartsAll runners) :
    Matched (s.drainResumeQueue options runners).1.resumeQueue
      (s.drainResumeQueue options runners).1 := by
  have hperm := perm_insertionSort (fun a b : ResumeQueueEntry => a.seq ≤ b.seq) s.resumeQueue
  have hsorted : Matched ([] ++ s.resumeQueue.insertionSort fun a b => a.seq ≤ b.seq) s :=
    h.perm hperm
  exact drainFrom_matched hsorted fun entry hentry => hstarts entry (hperm.mem_iff.mp hentry)

theorem mem_of_mem_drainFrom {kept rest : List ResumeQueueEntry}
    (h : entry ∈ (drainFrom options runners kept rest s).1.resumeQueue) : entry ∈ kept ++ rest := by
  induction rest generalizing kept s with
  | nil => exact mem_append_left _ h
  | cons first rest ih =>
    have hdrop : entry ∈ kept ++ rest → entry ∈ kept ++ first :: rest := by
      simp only [mem_append, mem_cons]
      tauto
    have hkeep : entry ∈ (kept ++ [first]) ++ rest → entry ∈ kept ++ first :: rest := by
      rw [append_assoc]
      exact id
    rw [drainFrom] at h
    by_cases hslots : (s.getRunningJobs none).length < options.runningLimit
    · rw [if_pos hslots] at h
      cases hqueued : s.queuedRecord first.subagentId with
      | none =>
        rw [hqueued] at h
        exact hdrop (ih h)
      | some record =>
        rw [hqueued] at h
        dsimp only at h
        by_cases hfenced : s.isOwnerSubagentShutdownFenced first.ownerId = true
        · rw [if_pos hfenced] at h
          exact hkeep (ih h)
        · rw [if_neg hfenced] at h
          generalize s.startResume options (runners first) record = started at h
          obtain ⟨s₁, error | result⟩ := started
          · cases error with
            | ownerSubagentShutdown => exact hkeep (ih h)
            | jobLimit _ | thrown _ => exact h
          · dsimp only at h
            split_ifs at h
            · exact hkeep (ih h)
            · exact hdrop (ih h)
    · rw [if_neg hslots] at h
      exact h

/-- The record that the end of a job would be written to is not queued. -/
def JobRecordNotQueued (s : AsyncJobManager) (jobId : JsString) : Prop :=
  ∀ record, s.recordByJobId jobId = some record → record.status ≠ .queued

/-- A started record takes the place of a queued one, which is not the first of the job. -/
theorem JobRecordNotQueued.setRecord (h : s.JobRecordNotQueued jobId)
    (hget : s.subagentRecords.get record.subagentId = some old)
    (hold : old.status = .queued ∨ record.currentJobId = some jobId)
    (hnew : record.status ≠ .queued) : (s.setRecord record).JobRecordNotQueued jobId := by
  intro found hfound
  rcases InsertionMap.find?_values_set hfound with rfl | hfound | ⟨w, hw, hfound, hnot⟩
  · exact hnew
  · exact h found hfound
  · obtain rfl := some.inj (hget.symm.trans hw)
    rcases hold with hold | hold
    · exact absurd hold (h old hfound)
    · simp [hold] at hnot

/-! ## The end of a job -/

theorem subagentState_scheduleEviction (options : AsyncJobManagerOptions) (s : AsyncJobManager)
    (jobId : JsString) : (s.scheduleEviction options jobId).subagentState = s.subagentState := by
  obtain ⟨handles, heq⟩ := evictJob_eq s jobId
  unfold AsyncJobManager.scheduleEviction
  split_ifs
  · rw [heq]
    rfl
  · rfl

theorem subagentState_enqueueDelivery (s : AsyncJobManager) (n : Nat) (jobId text : JsString) :
    (s.enqueueDelivery n jobId text).subagentState = s.subagentState := by
  unfold AsyncJobManager.enqueueDelivery
  split_ifs <;> rfl

/-- The queue matches, and the record that the end of the job is written to is not queued. -/
structure Ending (jobId : JsString) (s : AsyncJobManager) : Prop where
  matched : Matched s.resumeQueue s
  record : s.JobRecordNotQueued jobId

section
variable (h : Ending jobId s)
include h

theorem Ending.congr (heq : s'.subagentState = s.subagentState)
    (hqueue : s'.resumeQueue = s.resumeQueue) : Ending jobId s' where
  matched := hqueue ▸ h.matched.congr heq
  record := by
    have hrecords : s'.subagentRecords = s.subagentRecords := congrArg Prod.fst heq
    unfold JobRecordNotQueued recordByJobId
    rw [hrecords]
    exact h.record

theorem Ending.updateJob (n : Nat) (f : AsyncJob → AsyncJob) : Ending jobId (s.updateJob n f) :=
  h.congr rfl rfl

theorem Ending.scheduleEviction (options : AsyncJobManagerOptions) (id : JsString) :
    Ending jobId (s.scheduleEviction options id) :=
  h.congr (subagentState_scheduleEviction options s id) (resumeQueue_scheduleEviction options s id)

theorem Ending.enqueueDelivery (n : Nat) (id text : JsString) :
    Ending jobId (s.enqueueDelivery n id text) :=
  h.congr (subagentState_enqueueDelivery s n id text) (resumeQueue_enqueueDelivery s n id text)

theorem Ending.markRecord {status : SubagentLifecycle} (hstatus : status ≠ .queued) :
    Ending jobId (s.markRecord jobId status) := by
  unfold AsyncJobManager.markRecord
  cases hfound : s.recordByJobId jobId with
  | none => exact h
  | some record =>
    have hnot := h.record record hfound
    obtain ⟨e, he, hrecord⟩ := mem_map.mp (mem_of_find?_eq_some hfound)
    have hkey : s.subagentRecords.get e.1 = some record :=
      hrecord ▸ InsertionMap.get_of_mem_entries he
    have hget : s.subagentRecords.get record.subagentId = some record := by
      rw [h.matched.record _ record hkey]
      exact hkey
    have hset : Matched s.resumeQueue (s.setRecord { record with status }) := by
      refine h.matched.setRecord (fun old hold => ?_) hstatus
      rwa [← some.inj (hget.symm.trans hold)]
    refine ⟨hset.congr rfl, ?_⟩
    have hjob : record.currentJobId = some jobId := by simpa using find?_some hfound
    exact h.record.setRecord hget (.inr hjob) hstatus

theorem Ending.drain (hstarts : s.StartsAll runners) :
    Ending jobId (s.drainResumeQueue options runners).1 where
  matched := drainResumeQueue_matched h.matched hstarts
  record := by
    have hinit : s.JobRecordNotQueued jobId ∧
        ∀ id record, s.subagentRecords.get id = some record → record.subagentId = id :=
      ⟨h.record, h.matched.record⟩
    refine (drainResumeQueue_induction (motive := fun s => s.JobRecordNotQueued jobId ∧
      ∀ id record, s.subagentRecords.get id = some record → record.subagentId = id)
      (fun _ _ h => h) ?_ ?_ runners hinit).1
    · rintro s id record started hget hstatus hid hne ⟨hjob, hkeys⟩
      have hget' : s.subagentRecords.get started.subagentId = some record := by
        rw [hid, hkeys id record hget]
        exact hget
      refine ⟨hjob.setRecord hget' (.inl hstatus) hne, fun id' found hfound => ?_⟩
      rw [get_setRecord] at hfound
      split_ifs at hfound with heq
      · rw [← some.inj hfound, heq]
      · exact hkeys id' found hfound
    · rintro s s' register id hok ⟨hjob, hkeys⟩
      unfold JobRecordNotQueued recordByJobId
      rw [subagentRecords_register hok]
      exact ⟨hjob, hkeys⟩

end

theorem mem_of_mem_drainResumeQueue (h : entry ∈ (s.drainResumeQueue options runners).1.resumeQueue)
    : entry ∈ s.resumeQueue := by
  have hsorted : entry ∈ [] ++ s.resumeQueue.insertionSort fun a b => a.seq ≤ b.seq :=
    mem_of_mem_drainFrom h
  exact (perm_insertionSort _ s.resumeQueue).mem_iff.mp hsorted

/-- The branches of a run's handler: they change the job, may deliver and evict it, write
its end to the record, and drain the queue. -/
theorem Ending.branch {s₁ : AsyncJobManager} (h : Ending jobId s₁)
    (hqueue : s₁.resumeQueue = s.resumeQueue) {status : SubagentLifecycle}
    (hstatus : status ≠ .queued) (hstarts : s.StartsAll runners) :
    Ending jobId ((s₁.markRecord jobId status).drainResumeQueue options runners).1 ∧
      ∀ entry ∈ ((s₁.markRecord jobId status).drainResumeQueue options runners).1.resumeQueue,
        entry ∈ s.resumeQueue := by
  have hmarked := resumeQueue_markRecord s₁ jobId status
  refine ⟨(h.markRecord hstatus).drain ?_, fun entry hentry => ?_⟩
  · unfold StartsAll
    rw [hmarked, hqueue]
    exact hstarts
  · have hmem := mem_of_mem_drainResumeQueue hentry
    rwa [hmarked, hqueue] at hmem

theorem settleOutcome_ending (options : AsyncJobManagerOptions) (n : Nat) {job : AsyncJob}
    (h : Ending job.id s) (outcome : SubagentRunOutcome) (hstarts : s.StartsAll runners) :
    Ending job.id (s.settleOutcome options n job outcome runners).1 ∧
      ∀ entry ∈ (s.settleOutcome options n job outcome runners).1.resumeQueue,
        entry ∈ s.resumeQueue := by
  have hupdate := h.updateJob n
  unfold settleOutcome
  split_ifs
  · exact Ending.branch ((hupdate _).scheduleEviction options job.id)
      (resumeQueue_scheduleEviction ..) SubagentLifecycle.noConfusion hstarts
  · cases outcome with
    | paused note =>
      dsimp only
      split_ifs
      · exact Ending.branch (hupdate _) rfl SubagentLifecycle.noConfusion hstarts
      · exact Ending.branch ((hupdate _).updateJob n _) rfl SubagentLifecycle.noConfusion hstarts
    | completed text =>
      refine Ending.branch (((hupdate _).enqueueDelivery n job.id text).scheduleEviction options
        job.id) ?_ SubagentLifecycle.noConfusion hstarts
      rw [resumeQueue_scheduleEviction, resumeQueue_enqueueDelivery]
      rfl

theorem settleError_ending {n : Nat} (h : Ending jobId s) (status : JobStatus)
    (error : JobManagerError) (hstarts : s.StartsAll retries) :
    Ending jobId (s.settleError options n jobId status error retries).1 := by
  have hupdate := h.updateJob n
  unfold settleError
  split_ifs
  · exact (Ending.branch ((hupdate _).scheduleEviction options jobId)
      (resumeQueue_scheduleEviction ..) SubagentLifecycle.noConfusion hstarts).1
  · refine (Ending.branch (((hupdate _).enqueueDelivery n jobId error.message).scheduleEviction
      options jobId) ?_ SubagentLifecycle.noConfusion hstarts).1
    rw [resumeQueue_scheduleEviction, resumeQueue_enqueueDelivery]
    rfl

theorem Matched.settle (h : Matched s.resumeQueue s) {n : Nat}
    {result : Except JsString SubagentRunOutcome}
    (hcond : ∀ job, s.objects[n]? = some job → job.settled = false → s.JobRecordNotQueued job.id ∧
      s.StartsAll runners ∧ s.StartsAll retries) :
    Matched (s.settle options n result runners retries).resumeQueue
      (s.settle options n result runners retries) := by
  unfold AsyncJobManager.settle
  cases hjob : s.objects[n]? with
  | none => exact h
  | some job =>
    dsimp only
    split_ifs with hover
    · exact h
    · obtain ⟨hrecord, hrunners, hretries⟩ := hcond job hjob (not_eq_true _ ▸ hover)
      have hending : Ending job.id s := ⟨h, hrecord⟩
      refine Ending.matched (Ending.updateJob (?_ : Ending job.id _) n _)
      cases result with
      | error message =>
        dsimp only
        rw [hjob]
        exact settleError_ending hending job.status (.thrown message) hretries
      | ok outcome =>
        obtain ⟨htried, hqueue⟩ :=
          settleOutcome_ending options n hending outcome hrunners
        dsimp only
        generalize s.settleOutcome options n job outcome runners = tried at htried hqueue ⊢
        obtain ⟨s₁, _ | error⟩ := tried
        · exact htried
        · dsimp only at htried hqueue ⊢
          cases s₁.objects[n]? with
          | none => exact htried
          | some thrower =>
            exact settleError_ending htried thrower.status error
              fun entry hentry => hretries entry (hqueue entry hentry)

/-! ## The operations -/

theorem map_modify_of_eq {α β : Type} {f : α → α} {g : α → β} (h : ∀ a, g (f a) = g a)
    (l : List α) (i : Nat) : (l.modify i f).map g = l.map g := by
  apply ext_getElem?
  intro j
  rw [getElem?_map, getElem?_map, getElem?_modify]
  cases l[j]? with
  | none => rfl
  | some a =>
    by_cases hij : i = j
    · simp [hij, h]
    · simp [hij]

theorem Matched.replace (h : Matched queue s)
    (hget : s.subagentRecords.get record.subagentId = some old)
    (hstatus : record.status = old.status) (howner : record.ownerId = old.ownerId) :
    Matched queue (s.setRecord record) := by
  refine ⟨h.nodup, fun id => ?_, fun entry hentry other hother => ?_, h.runner,
    fun id other hother => ?_, h.descriptor⟩
  · rw [h.queued, get_setRecord]
    by_cases hid : id = record.subagentId
    · subst hid
      rw [if_pos rfl, hget]
      simp [hstatus]
    · rw [if_neg hid]
  · rw [get_setRecord] at hother
    split_ifs at hother with hid
    · rw [← some.inj hother, howner]
      exact h.owner entry hentry old (hid ▸ hget)
    · exact h.owner entry hentry other hother
  · rw [get_setRecord] at hother
    split_ifs at hother with hid
    · rw [← some.inj hother, hid]
    · exact h.record id other hother

/-- The record that is found or made is in the map, and the queue matches as before. -/
theorem Matched.getSubagentRecord (h : Matched s.resumeQueue s) (subagentId : JsString)
    (filter : Option JsString) : Matched (s.getSubagentRecord subagentId filter).1.resumeQueue
        (s.getSubagentRecord subagentId filter).1 ∧
      ∀ record, (s.getSubagentRecord subagentId filter).2 = some record →
        (s.getSubagentRecord subagentId filter).1.subagentRecords.get record.subagentId =
            some record ∧
          ((s.getSubagentRecord subagentId filter).1 = s ∨ record.status = .completed) := by
  unfold AsyncJobManager.getSubagentRecord
  cases hget : s.subagentRecords.get (trim subagentId) with
  | some record =>
    refine ⟨h, fun found hfound => ?_⟩
    dsimp only at hfound ⊢
    split_ifs at hfound
    obtain rfl := some.inj hfound
    rw [h.record _ record hget]
    exact ⟨hget, .inl rfl⟩
  | none =>
    dsimp only
    unfold recordFromResumeDescriptor getResumeDescriptor
    rw [trim_trim]
    cases hdescriptor : (s.resumeDescriptors.get (trim subagentId)).filter fun d =>
        ownerMatches filter d.ownerId with
    | none => exact ⟨h, fun found hfound => (Option.some_ne_none found hfound.symm).elim⟩
    | some descriptor =>
      have hid := h.descriptor _ descriptor (Option.filter_eq_some_iff.mp hdescriptor).1
      refine ⟨h.setRecord (fun old hold => ?_) SubagentLifecycle.noConfusion,
        fun found hfound => ?_⟩
      · dsimp only at hold
        rw [hid, hget] at hold
        exact (Option.some_ne_none old hold.symm).elim
      · obtain rfl := some.inj hfound
        dsimp only
        rw [get_setRecord, if_pos rfl]
        exact ⟨rfl, .inr rfl⟩

theorem resumeQueue_startResume (options : AsyncJobManagerOptions) (s : AsyncJobManager)
    (call : RunnerCall) (record : SubagentRecord) :
    (s.startResume options call record).1.resumeQueue = s.resumeQueue :=
  startResume_induction (motive := fun s' => s'.resumeQueue = s.resumeQueue)
    (fun _ _ _ _ _ _ h => h)
    (fun _ _ _ _ hok h => by
      obtain ⟨job, -, -, -, -, rfl⟩ := register_eq_ok hok
      exact h) call rfl

theorem Matched.resumeSubagent (h : Matched s.resumeQueue s) (subagentId : JsString)
    (filter message : Option JsString) (call : RunnerCall) :
    Matched (s.resumeSubagent options subagentId filter message call).1.resumeQueue
      (s.resumeSubagent options subagentId filter message call).1 := by
  obtain ⟨hfound, hrecord⟩ := h.getSubagentRecord subagentId filter
  unfold AsyncJobManager.resumeSubagent
  generalize s.getSubagentRecord subagentId filter = found at hfound hrecord ⊢
  obtain ⟨s₁, _ | record⟩ := found
  · exact hfound
  · have hget : s₁.subagentRecords.get record.subagentId = some record := (hrecord record rfl).1
    dsimp only at hfound hget ⊢
    split_ifs with hfenced hrunning hqueued hmessage hcontext hrunner hslots
    · exact hfound
    · exact hfound
    · cases record.queued with
      | none => exact hfound
      | some queued =>
        dsimp only
        have hreplaced : Matched s₁.resumeQueue (s₁.setRecord { record with
            queued := some { queued with message } }) := hfound.replace hget rfl rfl
        have hmap : ∀ i, (s₁.resumeQueue.modify i ({ · with message })).map
            (fun e => (e.subagentId, e.ownerId)) =
              s₁.resumeQueue.map fun e => (e.subagentId, e.ownerId) := by
          apply map_modify_of_eq
          exact fun _ => rfl
        exact (hreplaced.of_map_eq (hmap _)).congr rfl
    · cases record.queued <;> exact hfound
    · exact hfound
    · exact hfound
    · have hnot : ∀ old, s₁.subagentRecords.get record.subagentId = some old →
          old.status ≠ .queued := fun old hold => by
        rwa [← some.inj (hget.symm.trans hold)]
      have henqueued : Matched
          (s₁.resumeQueue ++ [⟨record.subagentId, record.ownerId, s₁.resumeSeq + 1, message⟩])
          (s₁.setRecord { record with
            status := .queued, queued := some ⟨record.ownerId, s₁.resumeSeq + 1, message⟩ }) := by
        apply hfound.enqueue
        · exact hnot
        · rfl
        · simpa using hrunner
        · rfl
        · rfl
      exact henqueued.congr rfl
    · have hqueue := resumeQueue_startResume options s₁ call record
      cases hstarted : s₁.startResume options call record with
      | mk s₂ result =>
        rw [hstarted] at hqueue
        rcases startResume_cases hstarted with ⟨s₃, started, heq, rfl, hid, hne, -⟩ | ⟨heq, -⟩
        · refine hqueue ▸ (hfound.congr heq).setRecord (fun old hold => ?_) hne
          have hrecords : s₃.subagentRecords = s₁.subagentRecords := congrArg Prod.fst heq
          rw [hid, hrecords] at hold
          rwa [← some.inj (hget.symm.trans hold)]
        · exact hqueue ▸ hfound.congr heq

/-- The paused job of an id, if it has one, ends without its end being written to a queued
record, and the runners called then start something. -/
def CancelKeeps (s : AsyncJobManager) (id : JsString) (runners : ResumeQueueEntry → RunnerCall) :
    Prop :=
  ∀ job, s.getJob id = some job → job.status = .paused →
    s.JobRecordNotQueued id ∧ s.StartsAll runners

theorem Matched.cancel (h : Matched s.resumeQueue s) {id : JsString}
    (hcond : s.CancelKeeps id runners) : Matched (s.cancel options id filter runners).1.resumeQueue
      (s.cancel options id filter runners).1 := by
  unfold AsyncJobManager.cancel
  cases hentry : s.jobEntry id with
  | none => exact h
  | some e =>
    obtain ⟨n, job⟩ := e
    dsimp only
    split_ifs with howner hpaused
    · exact h
    · have hjob : s.getJob id = some job := by
        unfold getJob
        rw [hentry]
        rfl
      obtain ⟨hrecord, hstarts⟩ := hcond job hjob hpaused
      have hending : Ending id s := ⟨h, hrecord⟩
      refine ((((hending.updateJob n _).markRecord SubagentLifecycle.noConfusion).scheduleEviction
        options id).drain ?_).matched
      unfold StartsAll
      rw [resumeQueue_scheduleEviction, resumeQueue_markRecord]
      exact hstarts
    · exact h
    · exact h.congr rfl

/-- The condition under which `cancelSubagent` keeps the queue matched. -/
def CancelSubagentKeeps (s : AsyncJobManager) (subagentId : JsString) (filter : Option JsString)
    (runners : ResumeQueueEntry → RunnerCall) : Prop :=
  ∀ record, (s.getSubagentRecord subagentId filter).2 = some record →
    (record.status = .running → s.CancelKeeps (record.currentJobId.getD []) runners) ∧
      (record.status = .paused → s.StartsAll runners)

theorem Matched.cancelSubagent (h : Matched s.resumeQueue s) {subagentId : JsString}
    (hcond : s.CancelSubagentKeeps subagentId filter runners) :
    Matched (s.cancelSubagent options subagentId filter runners).1.resumeQueue
      (s.cancelSubagent options subagentId filter runners).1 := by
  obtain ⟨hfound, hrecord⟩ := h.getSubagentRecord subagentId filter
  unfold CancelSubagentKeeps at hcond
  unfold AsyncJobManager.cancelSubagent
  generalize s.getSubagentRecord subagentId filter = found at hfound hrecord hcond ⊢
  obtain ⟨s₁, _ | record⟩ := found
  · exact hfound
  · obtain ⟨hrunningKeeps, hpausedStarts⟩ := hcond record rfl
    obtain ⟨hget, hsame⟩ := hrecord record rfl
    dsimp only at hfound hget hsame ⊢
    split_ifs with hrunning hpaused hqueued
    · have hstatus : record.status = .running := by simpa using (and_eq_true_iff.mp hrunning).1
      obtain rfl := hsame.resolve_right (hstatus ▸ SubagentLifecycle.noConfusion)
      exact hfound.cancel (hrunningKeeps hstatus)
    · obtain rfl := hsame.resolve_right (hpaused ▸ SubagentLifecycle.noConfusion)
      -- Whatever happens to the job, the records and the queue are as before.
      have hjob : ∀ s₂ : AsyncJobManager, s₂.subagentState = s₁.subagentState →
          s₂.resumeQueue = s₁.resumeQueue →
          Matched (((s₂.setRecord { record with status := .cancelled }).removeLiveHandle
              record.subagentId).drainResumeQueue options runners).1.resumeQueue
            (((s₂.setRecord { record with status := .cancelled }).removeLiveHandle
              record.subagentId).drainResumeQueue options runners).1 := by
        intro s₂ heq hqueue
        have hset : Matched s₂.resumeQueue (s₂.setRecord { record with status := .cancelled }) := by
          refine (hqueue ▸ hfound.congr heq).setRecord (fun old hold => ?_)
            SubagentLifecycle.noConfusion
          have hrecords : s₂.subagentRecords = s₁.subagentRecords := congrArg Prod.fst heq
          rw [hrecords] at hold
          rw [← some.inj (hget.symm.trans hold), hpaused]
          exact SubagentLifecycle.noConfusion
        refine drainResumeQueue_matched (hset.congr rfl) ?_
        have hstarts := hpausedStarts hpaused
        unfold StartsAll at hstarts ⊢
        rw [← hqueue] at hstarts
        exact hstarts
      cases (s₁.jobEntry (record.currentJobId.getD [])).filter fun e =>
          record.currentJobId.getD [] ≠ [] && e.2.status = .paused with
      | none => exact hjob s₁ rfl rfl
      | some e =>
        exact hjob _ (subagentState_scheduleEviction options _ _)
          (resumeQueue_scheduleEviction options _ _)
    · have hmem : record.subagentId ∈ s₁.resumeQueue.map (·.subagentId) :=
        (hfound.queued _).mpr ⟨record, hget, hqueued⟩
      obtain ⟨entry, hentry, hid⟩ := mem_map.mp hmem
      obtain ⟨first, before, after, -, hfirst, hqueue, herase⟩ :=
        exists_of_eraseP (p := fun entry => entry.subagentId = record.subagentId) hentry
          (decide_eq_true hid)
      rw [hqueue] at hfound
      have hdequeued : Matched (before ++ after) (s₁.setRecord { record with
          status := .cancelled, queued := none }) := by
        apply hfound.dequeue
        · exact (of_decide_eq_true hfirst).symm
        · exact SubagentLifecycle.noConfusion
      exact (herase ▸ hdequeued).congr rfl
    · exact hfound

/-- The records of an owner go with the entries of the owner. -/
theorem Matched.purgeOwnerSubagentState (h : Matched s.resumeQueue s) (ownerId : JsString) :
    Matched (s.purgeOwnerSubagentState ownerId).resumeQueue
      (s.purgeOwnerSubagentState ownerId) := by
  -- A purged subagent is one whose record has the owner.
  have hpurged : ∀ id record, s.subagentRecords.get id = some record →
      (id ∈ (s.subagentRecords.entries.filter fun e => e.2.ownerId = some ownerId).map Prod.fst ↔
        record.ownerId = some ownerId) := by
    intro id record hget
    constructor
    · intro hid
      obtain ⟨e, he, rfl⟩ := mem_map.mp hid
      obtain ⟨hentry, howner⟩ := mem_filter.mp he
      obtain rfl := some.inj (hget.symm.trans (InsertionMap.get_of_mem_entries hentry))
      exact of_decide_eq_true howner
    · intro howner
      exact mem_map.mpr ⟨(id, record), mem_filter.mpr
        ⟨InsertionMap.mem_entries_iff.mpr hget, decide_eq_true howner⟩, rfl⟩
  unfold AsyncJobManager.purgeOwnerSubagentState
  dsimp only
  generalize (s.subagentRecords.entries.filter fun e => e.2.ownerId = some ownerId).map Prod.fst =
    subagentIds at hpurged ⊢
  have hkept : ∀ entry, entry ∈ s.resumeQueue.filter (fun entry =>
      !decide (entry.ownerId = some ownerId)) ↔
        entry ∈ s.resumeQueue ∧ entry.subagentId ∉ subagentIds := by
    intro entry
    rw [mem_filter]
    refine and_congr_right fun hentry => ?_
    obtain ⟨record, hget, -⟩ := h.record_of_mem hentry
    rw [hpurged _ record hget, h.owner entry hentry record hget]
    simp
  refine ⟨h.nodup.sublist (filter_sublist.map _), fun id => ?_,
    fun entry hentry record hget => ?_, fun entry hentry => ?_, fun id record hget => ?_,
    fun id descriptor hget => ?_⟩
  · dsimp only
    rw [InsertionMap.get_foldl_erase]
    constructor
    · intro hid
      obtain ⟨entry, hentry, rfl⟩ := mem_map.mp hid
      obtain ⟨hmem, hnot⟩ := (hkept entry).mp hentry
      rw [if_neg hnot]
      exact h.record_of_mem hmem
    · rintro ⟨record, hget, hstatus⟩
      split_ifs at hget with hnot
      obtain ⟨entry, hentry, rfl⟩ := mem_map.mp ((h.queued id).mpr ⟨record, hget, hstatus⟩)
      exact mem_map_of_mem ((hkept entry).mpr ⟨hentry, hnot⟩)
  · dsimp only at hget
    rw [InsertionMap.get_foldl_erase, if_neg ((hkept entry).mp hentry).2] at hget
    exact h.owner entry ((hkept entry).mp hentry).1 record hget
  · obtain ⟨hmem, hnot⟩ := (hkept entry).mp hentry
    have hrunner := h.runner entry hmem
    unfold resolveResumeRunner at hrunner ⊢
    simpa [mem_filter, hnot] using hrunner
  · dsimp only at hget
    rw [InsertionMap.get_foldl_erase] at hget
    split_ifs at hget
    exact h.record id record hget
  · dsimp only at hget
    rw [InsertionMap.get_foldl_erase] at hget
    split_ifs at hget
    exact h.descriptor id descriptor hget

/-- The condition on an operation: no end of a job is written to a queued record, no resume
runner that is called for an entry of the queue starts nothing, and a record is registered
neither as queued nor over a queued one. -/
def KeepsQueue (s : AsyncJobManager) : Op → Prop
  | .settle n _ runners retries => ∀ job, s.objects[n]? = some job → job.settled = false →
    s.JobRecordNotQueued job.id ∧ s.StartsAll runners ∧ s.StartsAll retries
  | .cancel id _ runners => s.CancelKeeps id runners
  | .cancelSubagent subagentId filter runners => s.CancelSubagentKeeps subagentId filter runners
  | .registerSubagentRecord record => record.status ≠ .queued ∧
    ∀ old, s.subagentRecords.get record.subagentId = some old → old.status ≠ .queued
  | _ => True

theorem Matched.cancelAll (h : Matched s.resumeQueue s) (filter : Option JsString) :
    Matched (s.cancelAll options filter).resumeQueue (s.cancelAll options filter) := by
  unfold AsyncJobManager.cancelAll
  generalize s.getRunningJobs filter = jobs
  induction jobs generalizing s with
  | nil => exact h
  | cons e jobs ih =>
    have hscheduled : Matched s.resumeQueue
        ((s.updateJob e.1 (·.become .cancelled)).scheduleEviction options e.2.id) :=
      h.congr (subagentState_scheduleEviction options _ _)
    refine ih ?_
    rw [resumeQueue_scheduleEviction]
    exact hscheduled

theorem Matched.evictionTimer (h : Matched s.resumeQueue s) (jobId : JsString) :
    Matched (s.evictionTimer jobId).resumeQueue (s.evictionTimer jobId) := by
  unfold AsyncJobManager.evictionTimer
  split_ifs
  · obtain ⟨handles, heq⟩ := evictJob_eq
      { s with evictionTimers := s.evictionTimers.filter (· ≠ jobId) } jobId
    rw [heq]
    exact h.congr rfl
  · exact h

/-- More resume runners do no harm, nor does another resume descriptor. -/
theorem Matched.moreRunners (h : Matched queue s)
    (hrecords : s'.subagentRecords = s.subagentRecords)
    (hrunner : ∀ id, s.resolveResumeRunner id = true → s'.resolveResumeRunner id = true)
    (hdescriptor : ∀ id descriptor, s'.resumeDescriptors.get id = some descriptor →
      descriptor.subagentId = id) : Matched queue s' where
  nodup := h.nodup
  queued := hrecords ▸ h.queued
  owner := hrecords ▸ h.owner
  runner entry hentry := hrunner _ (h.runner entry hentry)
  record := hrecords ▸ h.record
  descriptor := hdescriptor

section
variable (h : Matched s.resumeQueue s)
include h

theorem Matched.registerResumeDescriptor (descriptor : ResumeDescriptor) (withRunner : Bool) :
    Matched (s.step options (.registerResumeDescriptor descriptor withRunner)).resumeQueue
      (s.step options (.registerResumeDescriptor descriptor withRunner)) := by
  refine h.moreRunners rfl (fun id hid => ?_) (fun id other hget => ?_)
  · unfold resolveResumeRunner at hid ⊢
    rcases or_eq_true_iff.mp hid with hid | hid
    · refine or_eq_true_iff.mpr (.inl (decide_eq_true ?_))
      simp only [AsyncJobManager.step]
      split_ifs
      · exact mem_addFirst.mpr (.inl (of_decide_eq_true hid))
      · exact of_decide_eq_true hid
    · exact or_eq_true_iff.mpr (.inr hid)
  · simp only [AsyncJobManager.step, InsertionMap.get_set] at hget
    split_ifs at hget with hid
    · rw [← some.inj hget, hid]
    · exact h.descriptor id other hget

theorem Matched.finishOwnerSubagentShutdown (lease : OwnerSubagentShutdownLease)
    (outcome : ShutdownOutcome) (pendingJobIds : List JsString) :
    Matched (s.finishOwnerSubagentShutdown lease outcome pendingJobIds).resumeQueue
      (s.finishOwnerSubagentShutdown lease outcome pendingJobIds) := by
  unfold AsyncJobManager.finishOwnerSubagentShutdown
  cases s.leaseState lease with
  | none => exact h
  | some state =>
    dsimp only
    split_ifs
    · have hacknowledged : Matched (s.acknowledgeDeliveries pendingJobIds).resumeQueue
          (s.acknowledgeDeliveries pendingJobIds) := h.congr rfl
      exact (hacknowledged.purgeOwnerSubagentState lease.ownerId).congr rfl
    · exact h.congr rfl

theorem Matched.pauseSubagent (subagentId : JsString) (filter : Option JsString) :
    Matched (s.pauseSubagent subagentId filter).1.resumeQueue
      (s.pauseSubagent subagentId filter).1 := by
  have hfound := (h.getSubagentRecord subagentId filter).1
  unfold AsyncJobManager.pauseSubagent
  generalize s.getSubagentRecord subagentId filter = found at hfound ⊢
  obtain ⟨s₁, _ | record⟩ := found
  · exact hfound
  · exact hfound

theorem Matched.beginOwnerSubagentShutdown (ownerId : JsString) :
    Matched (s.beginOwnerSubagentShutdown ownerId).1.resumeQueue
      (s.beginOwnerSubagentShutdown ownerId).1 := by
  unfold AsyncJobManager.beginOwnerSubagentShutdown
  split_ifs
  · exact h
  · exact h.congr rfl

theorem Matched.startProving (lease : OwnerSubagentShutdownLease) :
    Matched (s.startProving lease).resumeQueue (s.startProving lease) := by
  unfold AsyncJobManager.startProving
  cases s.leaseState lease with
  | none => exact h
  | some state =>
    dsimp only
    split_ifs
    · exact h
    · exact h.congr rfl

theorem Matched.proveOwnerSubagents (lease : OwnerSubagentShutdownLease) (settled : List JsString)
    (deadlineExceeded : Bool) :
    Matched (s.proveOwnerSubagents lease settled deadlineExceeded).1.resumeQueue
      (s.proveOwnerSubagents lease settled deadlineExceeded).1 := by
  unfold AsyncJobManager.proveOwnerSubagents
  cases (s.leaseState lease).filter fun state => state.phase = .proving with
  | none => exact h
  | some state => exact h.congr rfl

end

/-- **An operation that meets the condition keeps the queue matched.** -/
theorem Matched.step (h : Matched s.resumeQueue s) {op : Op} (hcond : s.KeepsQueue op) :
    Matched (s.step options op).resumeQueue (s.step options op) := by
  cases op with
  | register register =>
    cases hok : s.register options register with
    | error error => simpa only [AsyncJobManager.step, hok] using h
    | ok e =>
      simp only [AsyncJobManager.step, hok]
      obtain ⟨job, -, -, -, -, heq⟩ := register_eq_ok hok
      rw [heq]
      exact h.congr rfl
  | settle n result runners retries => exact h.settle hcond
  | cancel id filter runners => exact h.cancel hcond
  | cancelAll filter => exact h.cancelAll filter
  | evictionTimer jobId => exact h.evictionTimer jobId
  | acknowledgeDeliveries jobIds => exact h.congr rfl
  | setResumeRunner =>
    exact h.moreRunners rfl (fun _ _ => or_true _) h.descriptor
  | registerResumeDescriptor descriptor withRunner =>
    exact h.registerResumeDescriptor descriptor withRunner
  | registerSubagentRecord record => exact h.setRecord hcond.2 hcond.1
  | registerLiveHandle subagentId | removeLiveHandle subagentId => exact h.congr rfl
  | resumeSubagent subagentId filter message call =>
    exact h.resumeSubagent subagentId filter message call
  | cancelSubagent subagentId filter runners => exact h.cancelSubagent hcond
  | pauseSubagent subagentId filter => exact h.pauseSubagent subagentId filter
  | beginOwnerSubagentShutdown ownerId => exact h.beginOwnerSubagentShutdown ownerId
  | startProving lease => exact h.startProving lease
  | proveOwnerSubagents lease settled deadlineExceeded =>
    exact h.proveOwnerSubagents lease settled deadlineExceeded
  | finishOwnerSubagentShutdown lease outcome pendingJobIds =>
    exact h.finishOwnerSubagentShutdown lease outcome pendingJobIds

theorem matched_new : Matched new.resumeQueue new where
  nodup := nodup_nil
  queued id := by
    constructor
    · exact fun hid => absurd hid (not_mem_nil (a := id))
    · rintro ⟨record, hget, -⟩
      exact absurd hget (Option.some_ne_none record).symm
  owner _ hentry := absurd hentry not_mem_nil
  runner _ hentry := absurd hentry not_mem_nil
  record _ record hget := absurd hget (Option.some_ne_none record).symm
  descriptor _ descriptor hget := absurd hget (Option.some_ne_none descriptor).symm

/-- **In every run whose operations meet the condition, a subagent is queued exactly when
the queue has one entry for it.** -/
theorem no_subagent_stranded {ops : List Op} (h : Runs.Meets (step options) KeepsQueue new ops) :
    Runs.Throughout (step options) QueueMatches new ops :=
  (Runs.throughout_of_meets (I := fun s => Matched s.resumeQueue s)
    (fun _ _ hs hcond => hs.step hcond) matched_new h).mono fun _ hs => hs.queueMatches

/-- A runner that returns `undefined`. -/
def refuses : RunnerCall := ⟨none, .returns none⟩

theorem no_subagent_stranded_waiting : Runs.Throughout (step (oneSlot 0)) QueueMatches new
    (waiting ++ [.settle 0 done (fun _ => starts) (fun _ => starts)]) := by
  apply no_subagent_stranded
  have hstarts : ¬ starts.StartsNothing := by
    rintro (⟨-, h⟩ | ⟨jobId, h, -⟩)
    · cases h
    · cases h
  refine ⟨trivial, trivial, ⟨SubagentLifecycle.noConfusion, ?_⟩, trivial, ?_, trivial⟩
  · intro old hold
    cases (show none = some old from hold)
  · rintro job hjob -
    refine ⟨fun record hrecord => ?_, fun _ _ => hstarts, fun _ _ => hstarts⟩
    obtain rfl : _ = job := some.inj hjob
    cases (show none = some record from hrecord)

/-- The end of a job is written to a paused subagent that was queued again: the job is
cancelled while the slots are taken. -/
def pausedTwice : List Op :=
  [.setResumeRunner, .register ⟨some (js "s"), none, none⟩,
    .registerSubagentRecord { pausedSubagent with currentJobId := some (js "s") },
    .settle 0 (.ok (.paused none)) (fun _ => starts) (fun _ => starts),
    .register ⟨some (js "a"), none, none⟩,
    .resumeSubagent (js "s") none none refuses,
    .cancel (js "s") none fun _ => starts]

/-- A runner that returns `undefined` leaves its subagent queued without an entry, and the
cancelled job of a queued subagent leaves the entry without a queued subagent. -/
theorem not_no_subagent_stranded : ¬ Runs.Throughout (step (oneSlot 1000)) QueueMatches new
      (waiting ++ [.settle 0 done (fun _ => refuses) (fun _ => refuses)]) ∧
    ¬ Runs.Throughout (step (oneSlot 1000)) QueueMatches new pausedTwice := by
  constructor
  · intro h
    have hlast := Runs.throughout_iff.mp h _ (prefix_refl _)
    obtain ⟨record, hget, hqueued, hnone⟩ : ∃ record,
        (Runs.run (step (oneSlot 1000)) new (waiting ++ [.settle 0 done (fun _ => refuses)
          (fun _ => refuses)])).subagentRecords.get (js "s") = some record ∧
        record.status = .queued ∧ (Runs.run (step (oneSlot 1000)) new (waiting ++ [.settle 0 done
          (fun _ => refuses) (fun _ => refuses)])).resumeQueue = [] :=
      ⟨_, rfl, rfl, rfl⟩
    have hone := (hlast _ record hget).mp hqueued
    rw [hnone] at hone
    exact Nat.zero_ne_one hone
  · intro h
    have hlast := Runs.throughout_iff.mp h _ (prefix_refl _)
    obtain ⟨record, hget, hcancelled, hone⟩ : ∃ record,
        (Runs.run (step (oneSlot 1000)) new pausedTwice).subagentRecords.get (js "s") =
          some record ∧ record.status = .cancelled ∧
        ((Runs.run (step (oneSlot 1000)) new pausedTwice).resumeQueue.filter fun entry =>
          entry.subagentId = record.subagentId).length = 1 :=
      ⟨_, rfl, rfl, rfl⟩
    rw [(hlast _ record hget).mpr hone] at hcancelled
    cases hcancelled

end AsyncJobManager
end GajaeCode
