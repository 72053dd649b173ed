import GajaeCode.JobManager

/-! # What the parts of an operation do to the jobs

Draining the resume queue only registers jobs (`Resumed`).  The map of jobs, the timers and
what was evicted stay in order (`Orderly`) as long as no job is registered under an id that
is still in use: by an earlier job whose run goes on, or by an eviction timer.

The handler of a run changes one job of those there are (`Handled`), and ends it once
unless a resume runner throws into its `try` (`settle_handled`).
-/
namespace GajaeCode
open JsString List Option
variable {candidate : Nat → JsString} {taken : List JsString}

theorem ofNat_injective : Function.Injective ofNat :=
  Function.LeftInverse.injective foldl_digits_ofNat

theorem forall_mem_of_firstFree_mem {fuel n : Nat} (h : firstFree taken candidate fuel n ∈ taken) :
    ∀ k ≤ fuel, candidate (n + k) ∈ taken := by
  induction fuel generalizing n with
  | zero =>
    intro k hk
    rw [Nat.le_zero.mp hk]
    exact h
  | succ fuel ih =>
    rw [firstFree] at h
    by_cases hn : candidate n ∈ taken
    · rw [if_pos hn] at h
      intro k hk
      cases k with
      | zero => exact hn
      | succ k =>
        rw [show n + (k + 1) = n + 1 + k by omega]
        exact ih h k (by omega)
    · rw [if_neg hn] at h
      exact absurd h hn

/-- Among one more candidates than there are taken ids, one is not taken. -/
theorem firstFree_not_mem (hinj : Function.Injective candidate) (n : Nat) :
    firstFree taken candidate taken.length n ∉ taken := by
  intro h
  have hall := forall_mem_of_firstFree_mem h
  have hnodup : ((range (taken.length + 1)).map fun k => candidate (n + k)).Nodup :=
    nodup_range.map fun a b hab => Nat.add_left_cancel (hinj hab)
  have hsub : ((range (taken.length + 1)).map fun k => candidate (n + k)) ⊆ taken := by
    intro id hid
    obtain ⟨k, hk, rfl⟩ := mem_map.mp hid
    exact hall k (Nat.le_of_lt_succ (mem_range.mp hk))
  have hlength := hnodup.length_le_of_subset hsub
  rw [length_map, length_range] at hlength
  omega

/-- The job's status did not change any more after it was first completed, failed or
cancelled. -/
def AsyncJob.EndsOnce (job : AsyncJob) : Prop :=
  (job.status :: job.before).IsChain fun later earlier => earlier.Ended → later = earlier

theorem AsyncJob.EndsOnce.become {job : AsyncJob} (h : job.EndsOnce) (hgoing : ¬ job.status.Ended)
    (status : JobStatus) : (job.become status).EndsOnce :=
  isChain_cons_cons.mpr ⟨fun hended => absurd hended hgoing, h⟩

/-- The call throws an error other than `OwnerSubagentShutdownError`. -/
def RunnerCall.Throws (call : RunnerCall) : Prop :=
  ∃ error, call.result = .throws error ∧ error ≠ .ownerSubagentShutdown

namespace AsyncJobManager
variable {options : AsyncJobManagerOptions} {s s' : AsyncJobManager}
variable {jobId : JsString}

theorem resolveJobId_not_mem (preferredId : Option JsString) :
    s.resolveJobId preferredId ∉ s.jobs.keys := by
  unfold resolveJobId
  dsimp only
  split_ifs with hbase htaken
  · exact firstFree_not_mem (fun a b h => ofNat_injective (append_cancel_left h)) 1
  · exact firstFree_not_mem (fun a b h => ofNat_injective (append_cancel_left h)) 2
  · exact htaken

theorem jobEntry_eq_some {id : JsString} {n : Nat} {job : AsyncJob} :
    s.jobEntry id = some (n, job) ↔ s.jobs.get id = some n ∧ s.objects[n]? = some job := by
  simp only [jobEntry, bind_eq_some_iff, map_eq_some_iff, Prod.mk.injEq]
  constructor
  · rintro ⟨m, hm, job', hjob', rfl, rfl⟩
    exact ⟨hm, hjob'⟩
  · rintro ⟨hn, hjob⟩
    exact ⟨n, hn, job, hjob, rfl, rfl⟩

/-! ## What a registration does -/

/-- A job as `register` makes it. -/
structure Fresh (job : AsyncJob) : Prop where
  status : job.status = .running
  before : job.before = []
  settled : job.settled = false

theorem register_eq_ok {register : AsyncJobRegisterOptions} {id : JsString}
    (h : s.register options register = .ok (s', id)) :
    ∃ job, Fresh job ∧ job.id = id ∧ id ∉ s.jobs.keys ∧ job.idWasFree = s.idIsFree id ∧
      s' = { s with
        suppressedDeliveries := s.suppressedDeliveries.filter (· ≠ id)
        objects := s.objects ++ [job]
        jobs := s.jobs.set id s.objects.length } := by
  unfold AsyncJobManager.register at h
  split_ifs at h
  obtain ⟨rfl, rfl⟩ := Prod.mk.inj (Except.ok.inj h)
  exact ⟨_, ⟨rfl, rfl, rfl⟩, rfl, resolveJobId_not_mem _, rfl, rfl⟩

section Induction
variable {motive : AsyncJobManager → Prop}
variable {record : SubagentRecord}

theorem subagentRecords_register {register : AsyncJobRegisterOptions} {id : JsString}
    (h : s.register options register = .ok (s', id)) : s'.subagentRecords = s.subagentRecords := by
  obtain ⟨job, -, -, -, -, rfl⟩ := register_eq_ok h
  rfl

/-- What registrations keep, the call of a resume runner keeps. -/
theorem callRunner_induction
    (hregister : ∀ s s' register id, s.register options register = .ok (s', id) →
      motive s → motive s') (call : RunnerCall) (h : motive s) :
    motive (s.callRunner options call).1 := by
  unfold callRunner
  cases hregisters : call.registers with
  | none => cases call.result <;> exact h
  | some register =>
    rw [map_some]
    cases hregistered : s.register options register with
    | error error => exact h
    | ok e =>
      have hnext : motive e.1 := hregister s e.1 register e.2 hregistered h
      cases call.result <;> exact hnext

theorem subagentRecords_callRunner (options : AsyncJobManagerOptions) (s : AsyncJobManager)
    (call : RunnerCall) : (s.callRunner options call).1.subagentRecords = s.subagentRecords :=
  callRunner_induction (motive := fun s' => s'.subagentRecords = s.subagentRecords)
    (fun _ _ _ _ hok h => (subagentRecords_register hok).trans h) call rfl

theorem startResume_induction
    (hrecord : ∀ s₁ started, s₁.subagentRecords = s.subagentRecords → started.subagentId =
      record.subagentId → started.ownerId = record.ownerId → started.status ≠ .queued → motive s₁ →
      motive (s₁.setRecord started))
    (hregister : ∀ s s' register id, s.register options register = .ok (s', id) → motive s → motive
      s') (call : RunnerCall) (h : motive s) : motive (s.startResume options call record).1 := by
  unfold startResume
  split_ifs
  · exact h
  · exact h
  · have hcalled := callRunner_induction hregister call h
    have hrecords := subagentRecords_callRunner options s call
    generalize s.callRunner options call = called at hcalled hrecords ⊢
    obtain ⟨s₁, error | newJobId⟩ := called
    · exact hcalled
    · dsimp only at hcalled hrecords ⊢
      split_ifs
      · exact hcalled
      · refine hrecord s₁ _ hrecords rfl rfl ?_ hcalled
        cases s₁.getJob (newJobId.getD []) with
        | none => exact SubagentLifecycle.noConfusion
        | some job => exact job.status.lifecycle_ne_queued

theorem queuedRecord_eq_some {subagentId : JsString} : s.queuedRecord subagentId = some record ↔
      s.subagentRecords.get subagentId = some record ∧ record.status = .queued := by
  unfold queuedRecord
  rw [filter_eq_some_iff, decide_eq_true_eq]

section
variable (hqueue : ∀ s queue, motive s → motive { s with resumeQueue := queue })
    (hrecord : ∀ s id record started, s.subagentRecords.get id = some record → record.status =
      .queued → started.subagentId = record.subagentId → started.status ≠ .queued → motive s →
      motive (s.setRecord started))
    (hregister : ∀ s s' register id, s.register options register = .ok (s', id) → motive s → motive
      s') (runners : ResumeQueueEntry → RunnerCall)
include hqueue hrecord hregister runners

/-- What registrations and the start of a queued record keep, draining the queue keeps. -/
theorem drainFrom_induction (kept rest : List ResumeQueueEntry) (h : motive s) :
    motive (drainFrom options runners kept rest s).1 := by
  induction rest generalizing kept s with
  | nil => exact hqueue s kept h
  | cons entry rest ih =>
    rw [drainFrom]
    by_cases hslots : (s.getRunningJobs none).length < options.runningLimit
    · rw [if_pos hslots]
      cases hqueued : s.queuedRecord entry.subagentId with
      | none => exact ih kept h
      | some record =>
        obtain ⟨hget, hstatus⟩ := queuedRecord_eq_some.mp hqueued
        dsimp only
        by_cases hfenced : s.isOwnerSubagentShutdownFenced entry.ownerId = true
        · rw [if_pos hfenced]
          exact ih _ h
        · rw [if_neg hfenced]
          have hstarted := startResume_induction
            (fun s₁ started hrecords hid _ hne => hrecord s₁ entry.subagentId record started
              (hrecords ▸ hget) hstatus hid hne) hregister (runners entry) h
          generalize s.startResume options (runners entry) record = started at hstarted ⊢
          obtain ⟨s₁, error | result⟩ := started
          · cases error with
            | ownerSubagentShutdown => exact ih _ hstarted
            | jobLimit _ | thrown _ => exact hqueue _ _ hstarted
          · dsimp only at hstarted ⊢
            split_ifs
            · exact ih _ hstarted
            · exact ih _ hstarted
    · rw [if_neg hslots]
      exact hqueue _ _ h

theorem drainResumeQueue_induction (h : motive s) : motive (s.drainResumeQueue options runners).1 :=
  drainFrom_induction hqueue hrecord hregister runners _ _ h

end

end Induction

theorem markRecord_eq (s : AsyncJobManager) (jobId : JsString) (status : SubagentLifecycle) :
    ∃ records handles, s.markRecord jobId status =
      { s with subagentRecords := records, liveHandles := handles } := by
  unfold markRecord
  cases s.recordByJobId jobId with
  | none | some record => exact ⟨_, _, rfl⟩

theorem evictJob_eq (s : AsyncJobManager) (jobId : JsString) :
    ∃ handles, s.evictJob jobId = { s with
      liveHandles := handles
      jobs := s.jobs.erase jobId
      suppressedDeliveries := s.suppressedDeliveries.filter (· ≠ jobId)
      evicted := s.evicted ++ ((s.jobEntry jobId).map fun e => (e.1, e.2.status)).toList } := by
  unfold evictJob purgeTerminalSubagentStateForJob
  cases s.recordByJobId jobId with
  | none => exact ⟨_, rfl⟩
  | some record =>
    dsimp only
    split_ifs
    · exact ⟨_, rfl⟩
    · exact ⟨_, rfl⟩

theorem objects_evictJob (s : AsyncJobManager) (jobId : JsString) :
    (s.evictJob jobId).objects = s.objects := by
  obtain ⟨handles, heq⟩ := evictJob_eq s jobId
  rw [heq]

theorem enqueued_evictJob (s : AsyncJobManager) (jobId : JsString) :
    (s.evictJob jobId).enqueued = s.enqueued := by
  obtain ⟨handles, heq⟩ := evictJob_eq s jobId
  rw [heq]

theorem objects_scheduleEviction (options : AsyncJobManagerOptions) (s : AsyncJobManager)
    (jobId : JsString) : (s.scheduleEviction options jobId).objects = s.objects := by
  unfold scheduleEviction
  split_ifs
  · exact objects_evictJob s jobId
  · rfl

theorem enqueued_scheduleEviction (options : AsyncJobManagerOptions) (s : AsyncJobManager)
    (jobId : JsString) : (s.scheduleEviction options jobId).enqueued = s.enqueued := by
  unfold scheduleEviction
  split_ifs
  · exact enqueued_evictJob s jobId
  · rfl

theorem getElem?_updateJob (s : AsyncJobManager) (n : Nat) (f : AsyncJob → AsyncJob) (m : Nat) :
    (s.updateJob n f).objects[m]? = s.objects[m]?.map fun job => if n = m then f job else job :=
  getElem?_modify ..

/-! ## The map of jobs, the timers and what was evicted -/

/-- An id is mapped to a job of that id, and, as long as a job's run goes on, to no other
job; no timer would evict a running job, and none was evicted. -/
structure Orderly (s : AsyncJobManager) : Prop where
  listed : ∀ id n, s.jobs.get id = some n → ∃ job, s.objects[n]? = some job ∧ job.id = id
  unsettled : ∀ n job, s.objects[n]? = some job → job.settled = false →
    ∀ m, s.jobs.get job.id = some m → m = n
  timers : ∀ id ∈ s.evictionTimers, ∀ e, s.jobEntry id = some e → e.2.status ≠ .running
  evicted : ∀ e ∈ s.evicted, e.2 ≠ .running

theorem Orderly.congr (h : Orderly s) (hobjects : s'.objects = s.objects)
    (hjobs : s'.jobs = s.jobs) (htimers : s'.evictionTimers = s.evictionTimers)
    (hevicted : s'.evicted = s.evicted) : Orderly s' where
  listed := by rw [hobjects, hjobs]; exact h.listed
  unsettled := by rw [hobjects, hjobs]; exact h.unsettled
  timers := by
    unfold jobEntry
    rw [hobjects, hjobs, htimers]
    exact h.timers
  evicted := by rw [hevicted]; exact h.evicted

theorem Orderly.updateJob (h : Orderly s) (n : Nat) {f : AsyncJob → AsyncJob}
    (hid : ∀ job, (f job).id = job.id)
    (hsettled : ∀ job, (f job).settled = false → job.settled = false)
    (hrunning : ∀ job, (f job).status = .running → job.status = .running) :
    Orderly (s.updateJob n f) where
  listed := by
    intro id m hm
    obtain ⟨job, hjob, rfl⟩ := h.listed id m hm
    rw [getElem?_updateJob, hjob]
    refine ⟨_, rfl, ?_⟩
    split_ifs
    · exact hid job
    · rfl
  unsettled := by
    intro m job' hjob' hopen k hk
    rw [getElem?_updateJob] at hjob'
    obtain ⟨job, hjob, rfl⟩ := map_eq_some_iff.mp hjob'
    split_ifs at hopen hk
    · exact h.unsettled m job hjob (hsettled job hopen) k (hid job ▸ hk)
    · exact h.unsettled m job hjob hopen k hk
  timers := by
    rintro id hid' ⟨m, job'⟩ he
    obtain ⟨hm, hjob'⟩ := jobEntry_eq_some.mp he
    rw [getElem?_updateJob] at hjob'
    obtain ⟨job, hjob, rfl⟩ := map_eq_some_iff.mp hjob'
    have hold : job.status ≠ .running := h.timers id hid' (m, job) (jobEntry_eq_some.mpr ⟨hm, hjob⟩)
    dsimp only
    split_ifs
    · exact fun hf => hold (hrunning job hf)
    · exact hold
  evicted := h.evicted

theorem Orderly.evictJob (h : Orderly s)
    (hstopped : ∀ e, s.jobEntry jobId = some e → e.2.status ≠ .running) :
    Orderly (s.evictJob jobId) := by
  obtain ⟨handles, heq⟩ := evictJob_eq s jobId
  have hget : ∀ id n, (s.jobs.erase jobId).get id = some n → s.jobs.get id = some n := by
    intro id n hn
    rw [InsertionMap.get_erase] at hn
    split_ifs at hn
    exact hn
  rw [heq]
  refine ⟨fun id n hn => h.listed id n (hget id n hn),
    fun n job hjob hopen m hm => h.unsettled n job hjob hopen m (hget _ m hm), ?_, ?_⟩
  · rintro id hid ⟨n, job⟩ he
    obtain ⟨hn, hjob⟩ := jobEntry_eq_some.mp he
    exact h.timers id hid (n, job) (jobEntry_eq_some.mpr ⟨hget id n hn, hjob⟩)
  · intro e he
    rcases mem_append.mp he with he | he
    · exact h.evicted e he
    · obtain ⟨holder, hholder, rfl⟩ := map_eq_some_iff.mp (mem_toList.mp he)
      exact hstopped holder hholder

theorem Orderly.scheduleEviction (h : Orderly s) (options : AsyncJobManagerOptions)
    (hstopped : ∀ e, s.jobEntry jobId = some e → e.2.status ≠ .running) :
    Orderly (s.scheduleEviction options jobId) := by
  unfold AsyncJobManager.scheduleEviction
  split_ifs
  · exact h.evictJob hstopped
  · refine ⟨h.listed, h.unsettled, ?_, h.evicted⟩
    intro id hid e he
    rcases mem_addFirst.mp hid with hid | rfl
    · exact h.timers id hid e he
    · exact hstopped e he

/-- As long as the run of a job goes on, the id of the job is not another job's. -/
theorem Orderly.not_running_of_unsettled (h : Orderly s) {n : Nat} {job : AsyncJob}
    (hjob : s.objects[n]? = some job) (hopen : job.settled = false)
    (hstatus : job.status ≠ .running) :
    ∀ e, s.jobEntry job.id = some e → e.2.status ≠ .running := by
  rintro ⟨m, holder⟩ he
  obtain ⟨hm, hholder⟩ := jobEntry_eq_some.mp he
  obtain rfl := h.unsettled n job hjob hopen m hm
  obtain rfl : job = holder := some.inj (hjob.symm.trans hholder)
  exact hstatus

/-- **A registration under a free id** leaves all in order. -/
theorem Orderly.register (h : Orderly s) {register : AsyncJobRegisterOptions} {id : JsString}
    (hok : s.register options register = .ok (s', id))
    (hfree : ∀ job ∈ s'.objects, job.idWasFree = true) : Orderly s' := by
  obtain ⟨new, hnew, rfl, hnot, hflag, rfl⟩ := register_eq_ok hok
  have hidFree : s.idIsFree new.id = true := by
    rw [← hflag]
    exact hfree new (mem_append_right _ (mem_singleton.mpr rfl))
  obtain ⟨htimer, hothers⟩ := Bool.and_eq_true_iff.mp hidFree
  have hlength : ∀ {n job}, s.objects[n]? = some job → n < s.objects.length :=
    fun hjob => (List.getElem?_eq_some_iff.mp hjob).1
  have hold : ∀ {n job}, s.objects[n]? = some job → (s.objects ++ [new])[n]? = some job :=
    fun hjob => by rw [List.getElem?_append_left (hlength hjob)]; exact hjob
  have hcases : ∀ {n job}, (s.objects ++ [new])[n]? = some job →
      s.objects[n]? = some job ∨ n = s.objects.length ∧ job = new := by
    intro n job hjob
    rw [getElem?_append] at hjob
    split_ifs at hjob
    · exact .inl hjob
    · rw [getElem?_singleton] at hjob
      split_ifs at hjob with hzero
      exact .inr ⟨by omega, (some.inj hjob).symm⟩
  refine ⟨?_, ?_, ?_, h.evicted⟩
  · intro id n hn
    rw [InsertionMap.get_set] at hn
    split_ifs at hn with hid
    · obtain rfl := some.inj hn
      exact ⟨new, getElem?_concat_length .., hid.symm⟩
    · obtain ⟨job, hjob, hjobId⟩ := h.listed id n hn
      exact ⟨job, hold hjob, hjobId⟩
  · intro n job hjob hopen m hm
    rw [InsertionMap.get_set] at hm
    rcases hcases hjob with hjob | ⟨rfl, rfl⟩
    · split_ifs at hm with hid
      · have hused := all_eq_true.mp hothers job (mem_of_getElem? hjob)
        simp [hid, hopen] at hused
      · exact h.unsettled n job hjob hopen m hm
    · rw [if_pos rfl] at hm
      exact (some.inj hm).symm
  · rintro id hid ⟨n, job⟩ he
    obtain ⟨hn, hjob⟩ := jobEntry_eq_some.mp he
    have hne : id ≠ new.id := fun heq => by simp [heq ▸ hid] at htimer
    rw [InsertionMap.get_set, if_neg hne] at hn
    obtain ⟨old, hjobOld, -⟩ := h.listed id n hn
    obtain rfl : old = job := some.inj ((hold hjobOld).symm.trans hjob)
    exact h.timers id hid (n, old) (jobEntry_eq_some.mpr ⟨hn, hjobOld⟩)

/-- Every job was registered under a free id. -/
def IdsWereFree (s : AsyncJobManager) : Prop := ∀ job ∈ s.objects, job.idWasFree = true

/-- New jobs were registered; nothing happened to the others. -/
structure Resumed (s s' : AsyncJobManager) : Prop where
  objects : ∃ jobs, s'.objects = s.objects ++ jobs ∧ ∀ job ∈ jobs, Fresh job
  enqueued : s'.enqueued = s.enqueued
  orderly : IdsWereFree s' → Orderly s → Orderly s'

theorem Resumed.of_eq (hobjects : s'.objects = s.objects) (hjobs : s'.jobs = s.jobs)
    (htimers : s'.evictionTimers = s.evictionTimers) (hevicted : s'.evicted = s.evicted)
    (henqueued : s'.enqueued = s.enqueued) : Resumed s s' where
  objects := ⟨[], by rw [hobjects, append_nil], fun _ h => absurd h not_mem_nil⟩
  enqueued := henqueued
  orderly _ h := h.congr hobjects hjobs htimers hevicted

theorem Resumed.refl (s : AsyncJobManager) : Resumed s s := .of_eq rfl rfl rfl rfl rfl

theorem Resumed.idsWereFree (h : Resumed s s') (hfree : IdsWereFree s') : IdsWereFree s := by
  obtain ⟨jobs, hjobs, -⟩ := h.objects
  exact fun job hjob => hfree job (hjobs ▸ mem_append_left _ hjob)

theorem Resumed.trans {s'' : AsyncJobManager} (h : Resumed s s') (h' : Resumed s' s'') :
    Resumed s s'' where
  objects := by
    obtain ⟨jobs, hjobs, hnew⟩ := h.objects
    obtain ⟨jobs', hjobs', hnew'⟩ := h'.objects
    refine ⟨jobs ++ jobs', by rw [hjobs', hjobs, append_assoc], fun job hjob => ?_⟩
    exact (mem_append.mp hjob).elim (hnew job) (hnew' job)
  enqueued := h'.enqueued.trans h.enqueued
  orderly hfree horderly := h'.orderly hfree (h.orderly (h'.idsWereFree hfree) horderly)

theorem resumed_of_register {register : AsyncJobRegisterOptions} {id : JsString}
    (hok : s.register options register = .ok (s', id)) : Resumed s s' := by
  have horderly := fun hfree h => Orderly.register (s := s) h hok hfree
  obtain ⟨new, hnew, -, -, -, rfl⟩ := register_eq_ok hok
  refine ⟨⟨[new], rfl, fun job hjob => ?_⟩, rfl, horderly⟩
  rw [mem_singleton.mp hjob]
  exact hnew

theorem drainResumeQueue_resumed (options : AsyncJobManagerOptions)
    (s : AsyncJobManager) (runners : ResumeQueueEntry → RunnerCall) :
    Resumed s (s.drainResumeQueue options runners).1 :=
  drainResumeQueue_induction (fun _ _ h => h.trans (.of_eq rfl rfl rfl rfl rfl))
    (fun _ _ _ _ _ _ _ _ h => h.trans (.of_eq rfl rfl rfl rfl rfl))
    (fun _ _ _ _ hok h => h.trans (resumed_of_register hok)) runners (.refl s)

section
variable (hslots : (s.getRunningJobs none).length < options.runningLimit)
variable {error : JobManagerError} {call : RunnerCall}
include hslots

/-- While there is a slot, a registration throws nothing but `OwnerSubagentShutdownError`. -/
theorem register_eq_error {register : AsyncJobRegisterOptions}
    (h : s.register options register = .error error) : error = .ownerSubagentShutdown := by
  unfold AsyncJobManager.register at h
  split_ifs at h with hfenced hlimit
  · exact (Except.error.inj h).symm
  · omega

theorem callRunner_eq_error (h : s.callRunner options call = (s', .error error)) :
    error = .ownerSubagentShutdown ∨ call.Throws := by
  have hthrows : ∀ error', call.result = .throws error' → error' = error →
      error = .ownerSubagentShutdown ∨ call.Throws := by
    rintro error' hresult rfl
    exact or_iff_not_imp_left.mpr fun hne => ⟨error', hresult, hne⟩
  unfold callRunner at h
  cases hregisters : call.registers with
  | none =>
    rw [hregisters] at h
    cases hresult : call.result with
    | registered | returns jobId => simp [hresult] at h
    | throws error' => exact hthrows error' hresult (by simpa [hresult] using (Prod.mk.inj h).2)
  | some register =>
    rw [hregisters, map_some] at h
    cases hregistered : s.register options register with
    | error error' =>
      rw [hregistered] at h
      obtain rfl := Except.error.inj (Prod.mk.inj h).2
      exact .inl (register_eq_error hslots hregistered)
    | ok e =>
      rw [hregistered] at h
      cases hresult : call.result with
      | registered | returns jobId => simp [hresult] at h
      | throws error' => exact hthrows error' hresult (by simpa [hresult] using (Prod.mk.inj h).2)

theorem startResume_eq_error {record : SubagentRecord}
    (h : s.startResume options call record = (s', .error error)) :
    error = .ownerSubagentShutdown ∨ call.Throws := by
  unfold startResume at h
  split_ifs at h
  · cases (Prod.mk.inj h).2
  · cases (Prod.mk.inj h).2
  · cases hcalled : s.callRunner options call with
    | mk s₁ returned =>
      rw [hcalled] at h
      cases returned with
      | error error' =>
        obtain ⟨-, herror⟩ := Prod.mk.inj h
        obtain rfl := Except.error.inj herror
        exact callRunner_eq_error hslots hcalled
      | ok newJobId =>
        dsimp only at h
        split_ifs at h
        · cases (Prod.mk.inj h).2
        · cases (Prod.mk.inj h).2

end

/-- **Draining throws only what a runner throws.** -/
theorem drainFrom_returns {runners : ResumeQueueEntry → RunnerCall}
    {kept rest : List ResumeQueueEntry} (h : ∀ entry ∈ rest, ¬ (runners entry).Throws) :
    (drainFrom options runners kept rest s).2 = none := by
  induction rest generalizing kept s with
  | nil => rfl
  | cons entry rest ih =>
    obtain ⟨hentry, hrest⟩ := forall_mem_cons.mp h
    rw [drainFrom]
    by_cases hslots : (s.getRunningJobs none).length < options.runningLimit
    · rw [if_pos hslots]
      cases s.queuedRecord entry.subagentId with
      | none => exact ih hrest
      | some record =>
        dsimp only
        by_cases hfenced : s.isOwnerSubagentShutdownFenced entry.ownerId = true
        · rw [if_pos hfenced]
          exact ih hrest
        · rw [if_neg hfenced]
          cases hstarted : s.startResume options (runners entry) record with
          | mk s₁ returned =>
            cases returned with
            | error error =>
              obtain rfl := (startResume_eq_error hslots hstarted).resolve_right hentry
              exact ih hrest
            | ok result =>
              dsimp only
              split_ifs
              · exact ih hrest
              · exact ih hrest
    · rw [if_neg hslots]

theorem drainResumeQueue_returns {runners : ResumeQueueEntry → RunnerCall}
    (h : ∀ entry ∈ s.resumeQueue, ¬ (runners entry).Throws) :
    (s.drainResumeQueue options runners).2 = none :=
  drainFrom_returns fun entry hentry =>
    h entry ((perm_insertionSort _ s.resumeQueue).mem_iff.mp hentry)

/-! ## What the end of a run does -/

/-- Of the jobs there were, the `n`-th only has changed, from `job` to `job'`; the deliveries
`ds` about it were enqueued, and new jobs may have been registered. -/
structure Handled (n : Nat) (job : AsyncJob) (s : AsyncJobManager) (job' : AsyncJob)
    (s' : AsyncJobManager) (ds : List AsyncJobDelivery) : Prop where
  objects : ∃ jobs, s'.objects = s.objects.set n job' ++ jobs ∧ ∀ job ∈ jobs, Fresh job
  id : job'.id = job.id
  settled : job'.settled = job.settled
  idWasFree : job'.idWasFree = job.idWasFree
  enqueued : s'.enqueued = s.enqueued ++ ds
  about : ∀ d ∈ ds, d.job = n
  orderly : IdsWereFree s' → Orderly s → Orderly s'

section Handled
variable {n : Nat} {job job' : AsyncJob} {ds : List AsyncJobDelivery}

theorem Handled.getElem? (h : Handled n job s job' s' ds) (hjob : s.objects[n]? = some job) :
    s'.objects[n]? = some job' := by
  obtain ⟨jobs, hjobs, -⟩ := h.objects
  have hlt : n < s.objects.length := (List.getElem?_eq_some_iff.mp hjob).1
  rw [hjobs, List.getElem?_append_left (by rwa [List.length_set]), List.getElem?_set_self hlt]

theorem Handled.idsWereFree (h : Handled n job s job' s' ds) (hjob : s.objects[n]? = some job)
    (hfree : IdsWereFree s') : IdsWereFree s := by
  intro other hother
  obtain ⟨jobs, hjobs, -⟩ := h.objects
  obtain ⟨m, hm⟩ := mem_iff_getElem?.mp hother
  by_cases hnm : n = m
  · subst hnm
    obtain rfl := some.inj (hjob.symm.trans hm)
    rw [← h.idWasFree]
    exact hfree job' (mem_of_getElem? (h.getElem? hjob))
  · have hset : (s.objects.set n job')[m]? = some other := by
      rw [getElem?_set_ne hnm, hm]
    exact hfree other (hjobs ▸ mem_append_left _ (mem_of_getElem? hset))

section
variable (hjob : s.objects[n]? = some job)
include hjob

theorem Handled.trans {job'' : AsyncJob} {s'' : AsyncJobManager} {ds' : List AsyncJobDelivery}
    (h : Handled n job s job' s' ds) (h' : Handled n job' s' job'' s'' ds') :
    Handled n job s job'' s'' (ds ++ ds') where
  objects := by
    obtain ⟨jobs, hjobs, hnew⟩ := h.objects
    obtain ⟨jobs', hjobs', hnew'⟩ := h'.objects
    have hlt : n < s.objects.length := (List.getElem?_eq_some_iff.mp hjob).1
    refine ⟨jobs ++ jobs', ?_,
      fun job hjob => (List.mem_append.mp hjob).elim (hnew job) (hnew' job)⟩
    rw [hjobs', hjobs, set_append_left _ _ (by rwa [length_set]), set_set, append_assoc]
  id := h'.id.trans h.id
  settled := h'.settled.trans h.settled
  idWasFree := h'.idWasFree.trans h.idWasFree
  enqueued := by rw [h'.enqueued, h.enqueued, append_assoc]
  about d hd := (mem_append.mp hd).elim (h.about d) (h'.about d)
  orderly hfree horderly :=
    h'.orderly hfree (h.orderly (h'.idsWereFree (h.getElem? hjob) hfree) horderly)

theorem Handled.of_resumed (h : Resumed s s') :
    Handled n job s job s' [] where
  objects := by
    obtain ⟨jobs, hjobs, hnew⟩ := h.objects
    refine ⟨jobs, ?_, hnew⟩
    obtain ⟨hlt, rfl⟩ := List.getElem?_eq_some_iff.mp hjob
    rw [hjobs, List.set_getElem_self]
  id := rfl
  settled := rfl
  idWasFree := rfl
  enqueued := by rw [h.enqueued, append_nil]
  about _ hd := absurd hd not_mem_nil
  orderly := h.orderly

theorem Handled.refl : Handled n job s job s [] :=
  .of_resumed hjob (.refl s)

theorem Handled.updateJob {f : AsyncJob → AsyncJob} (hid : ∀ job, (f job).id = job.id)
    (hsettled : ∀ job, (f job).settled = job.settled)
    (hflag : ∀ job, (f job).idWasFree = job.idWasFree)
    (hrunning : ∀ job, (f job).status = .running → job.status = .running) :
    Handled n job s (f job) (s.updateJob n f) [] where
  objects := by
    refine ⟨[], ?_, fun _ h => absurd h not_mem_nil⟩
    change s.objects.modify n f = _
    rw [append_nil, modify_eq_set_getElem?, hjob]
    rfl
  id := hid job
  settled := hsettled job
  idWasFree := hflag job
  enqueued := (append_nil _).symm
  about _ hd := absurd hd not_mem_nil
  orderly _ h := h.updateJob n hid (fun job hf => hsettled job ▸ hf) hrunning

theorem Handled.enqueueDelivery (jobId text : JsString) :
    ∃ ds, ds.length ≤ 1 ∧ Handled n job s job (s.enqueueDelivery n jobId text) ds := by
  unfold AsyncJobManager.enqueueDelivery
  split_ifs
  · exact ⟨[], Nat.zero_le 1, .refl hjob⟩
  · have hsame : Handled n job s job s [] := .refl hjob
    refine ⟨[_], Nat.le_refl 1, hsame.objects, rfl, rfl, rfl, rfl, ?_, ?_⟩
    · intro d hd
      rw [mem_singleton.mp hd]
    · exact fun _ h => h.congr rfl rfl rfl rfl

end

/-- An eviction is scheduled for a job that is over, by its own handler. -/
theorem Handled.scheduleEviction (options : AsyncJobManagerOptions)
    (hjob : s.objects[n]? = some job) (hopen : job.settled = false)
    (hstatus : job.status ≠ .running) :
    Handled n job s job (s.scheduleEviction options job.id) [] := by
  have hsame : Handled n job s job s [] := .refl hjob
  have hobjects := objects_scheduleEviction options s job.id
  have henqueued := enqueued_scheduleEviction options s job.id
  exact ⟨hobjects ▸ hsame.objects, rfl, rfl, rfl, henqueued.trans hsame.enqueued, hsame.about,
    fun _ h => h.scheduleEviction options (h.not_running_of_unsettled hjob hopen hstatus)⟩

theorem Handled.markRecord (hjob : s.objects[n]? = some job) (jobId : JsString)
    (status : SubagentLifecycle) : Handled n job s job (s.markRecord jobId status) [] := by
  obtain ⟨records, handles, heq⟩ := markRecord_eq s jobId status
  rw [heq]
  exact .of_resumed hjob (.of_eq rfl rfl rfl rfl rfl)

theorem Handled.drain (options : AsyncJobManagerOptions)
    (hjob : s.objects[n]? = some job) (jobId : JsString)
    (status : SubagentLifecycle) (runners : ResumeQueueEntry → RunnerCall) :
    Handled n job s job ((s.markRecord jobId status).drainResumeQueue options runners).1 [] := by
  have hmarked := Handled.markRecord hjob jobId status
  exact hmarked.trans hjob (.of_resumed (hmarked.getElem? hjob)
    (drainResumeQueue_resumed options _ _))

theorem Handled.evictAndDrain (options : AsyncJobManagerOptions)
    (hjob : s.objects[n]? = some job) (hopen : job.settled = false)
    (hstatus : job.status ≠ .running) (status : SubagentLifecycle)
    (runners : ResumeQueueEntry → RunnerCall) :
    Handled n job s job (((s.scheduleEviction options job.id).markRecord job.id
      status).drainResumeQueue options runners).1 [] := by
  have hscheduled := Handled.scheduleEviction options hjob hopen hstatus
  exact hscheduled.trans hjob (.drain options (hscheduled.getElem? hjob) job.id status runners)

end Handled

/-! ## The handler of a run -/

@[simp] theorem resumeQueue_markRecord (s : AsyncJobManager) (jobId : JsString)
    (status : SubagentLifecycle) : (s.markRecord jobId status).resumeQueue = s.resumeQueue := by
  obtain ⟨records, handles, heq⟩ := markRecord_eq s jobId status
  rw [heq]

@[simp] theorem resumeQueue_scheduleEviction (options : AsyncJobManagerOptions)
    (s : AsyncJobManager) (jobId : JsString) :
    (s.scheduleEviction options jobId).resumeQueue = s.resumeQueue := by
  obtain ⟨handles, heq⟩ := evictJob_eq s jobId
  unfold AsyncJobManager.scheduleEviction
  split_ifs
  · rw [heq]
  · rfl

@[simp] theorem resumeQueue_enqueueDelivery (s : AsyncJobManager) (n : Nat)
    (jobId text : JsString) : (s.enqueueDelivery n jobId text).resumeQueue = s.resumeQueue := by
  unfold enqueueDelivery
  split_ifs <;> rfl

section Settle
variable {n : Nat} {job : AsyncJob}

/-- The `try`: the job has ended, or it paused, and nothing that threw has ended or
delivered it before. -/
theorem settleOutcome_handled (options : AsyncJobManagerOptions)
    (hjob : s.objects[n]? = some job) (hopen : job.settled = false)
    (hends : job.EndsOnce) (hgoing : job.status = .running ∨ job.status = .cancelled)
    (outcome : SubagentRunOutcome) (runners : ResumeQueueEntry → RunnerCall)
    (hcareful : ∀ text, outcome = .completed text → job.status ≠ .cancelled →
      ∀ entry ∈ s.resumeQueue, ¬ (runners entry).Throws) :
    ∃ job' ds, Handled n job s job' (s.settleOutcome options n job outcome runners).1 ds ∧
      ds.length ≤ 1 ∧ job'.EndsOnce ∧ job'.status ≠ .running ∧
      ((s.settleOutcome options n job outcome runners).2 ≠ none →
        ds = [] ∧ (job'.status = .cancelled ∨ ¬ job'.status.Ended)) := by
  unfold settleOutcome
  by_cases hcancelled : job.status = .cancelled
  · rw [if_pos hcancelled]
    have hstopped : job.status ≠ .running := hcancelled ▸ JobStatus.noConfusion
    have hend := fun text : Option JsString =>
      have htext := Handled.updateJob hjob (f := ({ · with resultText := text })) (fun _ => rfl)
        (fun _ => rfl) (fun _ => rfl) (fun _ => id)
      htext.trans hjob (.evictAndDrain options (htext.getElem? hjob) hopen hstopped
        .cancelled runners)
    cases outcome with
    | completed text =>
      exact ⟨_, _, hend (some text), Nat.zero_le 1, hends, hstopped,
        fun _ => ⟨rfl, .inl hcancelled⟩⟩
    | paused note =>
      exact ⟨_, _, hend note, Nat.zero_le 1, hends, hstopped, fun _ => ⟨rfl, .inl hcancelled⟩⟩
  · have hrunning : ¬ job.status.Ended := by
      rw [hgoing.resolve_right hcancelled]
      decide
    rw [if_neg hcancelled]
    cases outcome with
    | paused note =>
      have hpaused := Handled.updateJob hjob (f := (·.become .paused)) (fun _ => rfl)
        (fun _ => rfl) (fun _ => rfl) (fun _ h => JobStatus.noConfusion h)
      have hnot : ¬ JobStatus.paused.Ended := by decide
      dsimp only
      split_ifs with hnote
      · exact ⟨_, _, hpaused.trans hjob (.drain options (hpaused.getElem? hjob) job.id .paused
          runners), Nat.zero_le 1, hends.become hrunning _, JobStatus.noConfusion,
          fun _ => ⟨rfl, .inr hnot⟩⟩
      · have hnoted := hpaused.trans hjob (Handled.updateJob (hpaused.getElem? hjob)
          (f := ({ · with resultText := note })) (fun _ => rfl) (fun _ => rfl) (fun _ => rfl)
          (fun _ => id))
        exact ⟨_, _, hnoted.trans hjob (.drain options (hnoted.getElem? hjob) job.id .paused
          runners), Nat.zero_le 1, hends.become hrunning _, JobStatus.noConfusion,
          fun _ => ⟨rfl, .inr hnot⟩⟩
    | completed text =>
      have hcompleted := Handled.updateJob hjob
        (f := fun job => { job.become .completed with resultText := some text }) (fun _ => rfl)
        (fun _ => rfl) (fun _ => rfl) (fun _ h => JobStatus.noConfusion h)
      obtain ⟨ds, hds, henqueued⟩ :=
        Handled.enqueueDelivery (hcompleted.getElem? hjob) job.id text
      have hdelivered := hcompleted.trans hjob henqueued
      refine ⟨_, _, hdelivered.trans hjob (.evictAndDrain options (hdelivered.getElem? hjob) hopen
        JobStatus.noConfusion .completed runners), by simpa using hds, hends.become hrunning _,
        JobStatus.noConfusion, fun hthrown => absurd (drainResumeQueue_returns ?_) hthrown⟩
      rw [markRecordTerminal, resumeQueue_markRecord, resumeQueue_scheduleEviction,
        resumeQueue_enqueueDelivery]
      exact hcareful text rfl hcancelled

theorem settleError_handled (options : AsyncJobManagerOptions)
    (hjob : s.objects[n]? = some job) (hopen : job.settled = false)
    (hends : job.EndsOnce) (hstatus : job.status = .cancelled ∨ ¬ job.status.Ended)
    (error : JobManagerError) (retries : ResumeQueueEntry → RunnerCall) :
    ∃ job' ds, Handled n job s job' (s.settleError options n job.id job.status error retries).1 ds ∧
      ds.length ≤ 1 ∧ job'.EndsOnce ∧ job'.status ≠ .running := by
  unfold settleError
  by_cases hcancelled : job.status = .cancelled
  · rw [if_pos hcancelled]
    have hstopped : job.status ≠ .running := hcancelled ▸ JobStatus.noConfusion
    have htext := Handled.updateJob hjob (f := ({ · with errorText := some error.message }))
      (fun _ => rfl) (fun _ => rfl) (fun _ => rfl) (fun _ => id)
    exact ⟨_, _, htext.trans hjob (.evictAndDrain options (htext.getElem? hjob) hopen hstopped
      .cancelled retries), Nat.zero_le 1, hends, hstopped⟩
  · rw [if_neg hcancelled]
    have hfailed := Handled.updateJob hjob
      (f := fun job => { job.become .failed with errorText := some error.message })
      (fun _ => rfl) (fun _ => rfl) (fun _ => rfl) (fun _ h => JobStatus.noConfusion h)
    obtain ⟨ds, hds, henqueued⟩ :=
      Handled.enqueueDelivery (hfailed.getElem? hjob) job.id error.message
    have hdelivered := hfailed.trans hjob henqueued
    exact ⟨_, _, hdelivered.trans hjob (.evictAndDrain options (hdelivered.getElem? hjob) hopen
      JobStatus.noConfusion .failed retries), by simpa using hds,
      hends.become (hstatus.resolve_left hcancelled) _, JobStatus.noConfusion⟩

/-- **The end of a run.**  The job has ended, once, and is delivered at most once. -/
theorem settle_handled (options : AsyncJobManagerOptions)
    (hjob : s.objects[n]? = some job) (hopen : job.settled = false)
    (hends : job.EndsOnce) (hgoing : job.status = .running ∨ job.status = .cancelled)
    (result : Except JsString SubagentRunOutcome) (runners retries : ResumeQueueEntry → RunnerCall)
    (hcareful : ∀ text, result = .ok (.completed text) → job.status ≠ .cancelled →
      ∀ entry ∈ s.resumeQueue, ¬ (runners entry).Throws) :
    ∃ job' s₁ ds, s.settle options n result runners retries =
        s₁.updateJob n ({ · with settled := true }) ∧
      Handled n job s job' s₁ ds ∧ ds.length ≤ 1 ∧ job'.EndsOnce ∧ job'.status ≠ .running := by
  have hunsettled : ¬ job.settled = true := by rw [hopen]; exact Bool.false_ne_true
  unfold settle
  rw [hjob]
  dsimp only
  rw [if_neg hunsettled]
  cases result with
  | error message =>
    have hstatus : job.status = .cancelled ∨ ¬ job.status.Ended := by
      rcases hgoing with h | h <;> rw [h] <;> decide
    obtain ⟨job', ds, hcaught, hds, hends', hstopped⟩ :=
      settleError_handled options hjob hopen hends hstatus (.thrown message) retries
    dsimp only
    rw [hjob]
    exact ⟨job', _, ds, rfl, hcaught, hds, hends', hstopped⟩
  | ok outcome =>
    obtain ⟨job₁, ds₁, htried, hds₁, hends₁, hstopped₁, hthrown⟩ :=
      settleOutcome_handled options hjob hopen hends hgoing outcome runners
        fun text h => hcareful text (h ▸ rfl)
    dsimp only
    generalize s.settleOutcome options n job outcome runners = tried at htried hthrown ⊢
    obtain ⟨s₁, _ | error⟩ := tried
    · exact ⟨job₁, s₁, ds₁, rfl, htried, hds₁, hends₁, hstopped₁⟩
    · obtain ⟨rfl, hstatus⟩ := hthrown (some_ne_none error)
      have hjob₁ := htried.getElem? hjob
      obtain ⟨job₂, ds₂, hcaught, hds₂, hends₂, hstopped₂⟩ :=
        settleError_handled options hjob₁ (htried.settled.trans hopen) hends₁ hstatus
          error retries
      rw [htried.id] at hcaught
      dsimp only at hjob₁ ⊢
      rw [hjob₁]
      exact ⟨job₂, _, ds₂, rfl, htried.trans hjob hcaught, hds₂, hends₂, hstopped₂⟩

end Settle

end AsyncJobManager
end GajaeCode
