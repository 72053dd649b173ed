import GajaeCode.JobHandlers
import GajaeCode.Runs

/-! # A background job ends once

Over any run: a job's status does not change any more after it was first completed, failed or
cancelled, one completion at most is delivered for each job, and no running job is evicted.

The handler of a run drains the resume queue in its `try`, after it completed the job, so what
a resume runner throws there fails the job again.  And an eviction is of whatever job has the
id by then: a job that was cancelled and evicted while its run went on has its id evicted again
when the run is over.
-/
namespace GajaeCode
open JsString List Option Bool
namespace AsyncJobManager
variable {options : AsyncJobManagerOptions} {s s' : AsyncJobManager}
variable {runners : ResumeQueueEntry → RunnerCall} {job : AsyncJob} {n : Nat}
variable {ds : List AsyncJobDelivery} {filter : Option JsString} {jobId : JsString}

/-- **Every job ends once.** -/
structure JobsEndOnce (s : AsyncJobManager) : Prop where
  statuses : ∀ job ∈ s.objects, job.EndsOnce
  deliveries : (s.enqueued.map (·.job)).Nodup
  evictions : ∀ e ∈ s.evicted, e.2 ≠ .running

/-- No job was registered under an id that an eviction timer or an unsettled job still had,
and, where the operation is the end of a run that completed its job, the resume runners do
not throw. -/
def Careful (options : AsyncJobManagerOptions) (s : AsyncJobManager) (op : Op) : Prop :=
  IdsWereFree (s.step options op) ∧
  match op with
  | .settle n (.ok (.completed _)) runners _ =>
    ∀ job, s.objects[n]? = some job → job.status ≠ .cancelled →
      ∀ entry ∈ s.resumeQueue, ¬ (runners entry).Throws
  | _ => True

/-- Between operations: a job whose run goes on is running or cancelled, one whose run is
over is not running, and the jobs that were delivered are over. -/
structure Sound (s : AsyncJobManager) : Prop where
  orderly : Orderly s
  going : ∀ job ∈ s.objects, job.settled = false → job.status = .running ∨ job.status = .cancelled
  stopped : ∀ job ∈ s.objects, job.settled = true → job.status ≠ .running
  endsOnce : ∀ job ∈ s.objects, job.EndsOnce
  delivered : ∀ d ∈ s.enqueued, ∃ job, s.objects[d.job]? = some job ∧ job.settled = true
  once : (s.enqueued.map (·.job)).Nodup

theorem Sound.jobsEndOnce (h : Sound s) : JobsEndOnce s :=
  ⟨h.endsOnce, h.once, h.orderly.evicted⟩

theorem sound_new : Sound new where
  orderly := ⟨fun _ _ h => (some_ne_none _ h.symm).elim,
    fun _ _ h => (some_ne_none _ h.symm).elim, fun _ h => absurd h not_mem_nil,
    fun _ h => absurd h not_mem_nil⟩
  going _ h := absurd h not_mem_nil
  stopped _ h := absurd h not_mem_nil
  endsOnce _ h := absurd h not_mem_nil
  delivered _ h := absurd h not_mem_nil
  once := nodup_nil

theorem Sound.congr (h : Sound s) (hobjects : s'.objects = s.objects) (hjobs : s'.jobs = s.jobs)
    (htimers : s'.evictionTimers = s.evictionTimers) (hevicted : s'.evicted = s.evicted)
    (henqueued : s'.enqueued = s.enqueued) : Sound s' where
  orderly := h.orderly.congr hobjects hjobs htimers hevicted
  going := hobjects ▸ h.going
  stopped := hobjects ▸ h.stopped
  endsOnce := hobjects ▸ h.endsOnce
  delivered := by rw [hobjects, henqueued]; exact h.delivered
  once := henqueued ▸ h.once

theorem Sound.resumed (h : Sound s) (hresumed : Resumed s s') (hfree : IdsWereFree s') :
    Sound s' := by
  obtain ⟨jobs, hjobs, hnew⟩ := hresumed.objects
  have hcases : ∀ job ∈ s'.objects, job ∈ s.objects ∨ Fresh job := by
    intro job hjob
    rw [hjobs] at hjob
    exact (mem_append.mp hjob).imp_right (hnew job)
  refine ⟨hresumed.orderly hfree h.orderly, ?_, ?_, ?_, ?_, hresumed.enqueued ▸ h.once⟩
  · intro job hjob hopen
    exact (hcases job hjob).elim (h.going job · hopen) fun hfresh => .inl hfresh.status
  · intro job hjob hover
    refine (hcases job hjob).elim (h.stopped job · hover) fun hfresh => ?_
    exact absurd (hfresh.settled.symm.trans hover) false_ne_true
  · intro job hjob
    refine (hcases job hjob).elim (h.endsOnce job) fun hfresh => ?_
    unfold AsyncJob.EndsOnce
    rw [hfresh.before]
    exact List.IsChain.singleton _
  · intro d hd
    obtain ⟨job, hjob, hover⟩ := h.delivered d (hresumed.enqueued ▸ hd)
    have hlt : d.job < s.objects.length := (List.getElem?_eq_some_iff.mp hjob).1
    exact ⟨job, by rw [hjobs, List.getElem?_append_left hlt, hjob], hover⟩

theorem Sound.evictJob (h : Sound s)
    (hstopped : ∀ e, s.jobEntry jobId = some e → e.2.status ≠ .running) :
    Sound (s.evictJob jobId) where
  orderly := h.orderly.evictJob hstopped
  going := objects_evictJob s jobId ▸ h.going
  stopped := objects_evictJob s jobId ▸ h.stopped
  endsOnce := objects_evictJob s jobId ▸ h.endsOnce
  delivered := by rw [objects_evictJob, enqueued_evictJob]; exact h.delivered
  once := enqueued_evictJob s jobId ▸ h.once

theorem Sound.scheduleEviction (h : Sound s) (options : AsyncJobManagerOptions)
    (hstopped : ∀ e, s.jobEntry jobId = some e → e.2.status ≠ .running) :
    Sound (s.scheduleEviction options jobId) where
  orderly := h.orderly.scheduleEviction options hstopped
  going := objects_scheduleEviction options s jobId ▸ h.going
  stopped := objects_scheduleEviction options s jobId ▸ h.stopped
  endsOnce := objects_scheduleEviction options s jobId ▸ h.endsOnce
  delivered := by
    rw [objects_scheduleEviction, enqueued_scheduleEviction]
    exact h.delivered
  once := enqueued_scheduleEviction options s jobId ▸ h.once

/-- A job that has not ended, or was cancelled before, may be cancelled. -/
theorem Sound.cancelled (h : Sound s) (hjob : s.objects[n]? = some job)
    (hstatus : job.status = .cancelled ∨ ¬ job.status.Ended) :
    Sound (s.updateJob n (·.become .cancelled)) := by
  have hcases : ∀ {m : Nat} {other : AsyncJob},
      (s.updateJob n (·.become .cancelled)).objects[m]? = some other →
      s.objects[m]? = some other ∨ other = job.become .cancelled := by
    intro m other hother
    rw [getElem?_updateJob] at hother
    obtain ⟨old, hold, rfl⟩ := map_eq_some_iff.mp hother
    split_ifs with hnm
    · subst hnm
      obtain rfl := some.inj (hjob.symm.trans hold)
      exact .inr rfl
    · exact .inl hold
  have hmem : ∀ other ∈ (s.updateJob n (·.become .cancelled)).objects,
      other ∈ s.objects ∨ other = job.become .cancelled := by
    intro other hother
    obtain ⟨m, hm⟩ := mem_iff_getElem?.mp hother
    exact (hcases hm).imp_left mem_of_getElem?
  have hends := h.endsOnce job (mem_of_getElem? hjob)
  refine ⟨h.orderly.updateJob n (fun _ => rfl) (fun _ hopen => hopen)
    (fun _ hf => JobStatus.noConfusion hf), ?_, ?_, ?_, ?_, h.once⟩
  · intro other hother hopen
    rcases hmem other hother with hother | rfl
    · exact h.going other hother hopen
    · exact .inr rfl
  · intro other hother hover
    rcases hmem other hother with hother | rfl
    · exact h.stopped other hother hover
    · exact JobStatus.noConfusion
  · intro other hother
    rcases hmem other hother with hother | rfl
    · exact h.endsOnce other hother
    · rcases hstatus with hcancelled | hgoing
      · exact isChain_cons_cons.mpr ⟨fun _ => hcancelled.symm, hends⟩
      · exact hends.become hgoing _
  · intro d hd
    obtain ⟨old, hold, hover⟩ := h.delivered d hd
    refine ⟨_, by rw [getElem?_updateJob, hold]; rfl, ?_⟩
    split_ifs <;> exact hover

/-! ## The operations -/

theorem jobEntry_updateJob (s : AsyncJobManager) (n : Nat) (f : AsyncJob → AsyncJob)
    (id : JsString) : (s.updateJob n f).jobEntry id =
      (s.jobEntry id).map fun e => (e.1, if n = e.1 then f e.2 else e.2) := by
  unfold jobEntry
  change (s.jobs.get id).bind _ = _
  cases s.jobs.get id with
  | none => rfl
  | some m =>
    rw [bind_some, bind_some, getElem?_updateJob]
    cases s.objects[m]? <;> rfl

theorem not_running_of_cancelled {id : JsString} (hentry : s.jobEntry id = some (n, job)) :
    ∀ e, (s.updateJob n (·.become .cancelled)).jobEntry id = some e → e.2.status ≠ .running := by
  intro e he
  rw [jobEntry_updateJob, hentry] at he
  obtain rfl := some.inj he
  dsimp only
  rw [if_pos rfl]
  exact JobStatus.noConfusion

theorem Sound.drain (h : Sound s) (hfree : IdsWereFree (s.drainResumeQueue options runners).1) :
    Sound (s.drainResumeQueue options runners).1 :=
  h.resumed (drainResumeQueue_resumed options s runners) hfree

theorem Sound.markRecord (h : Sound s) (jobId : JsString) (status : SubagentLifecycle) :
    Sound (s.markRecord jobId status) := by
  obtain ⟨records, handles, heq⟩ := markRecord_eq s jobId status
  rw [heq]
  exact h.congr rfl rfl rfl rfl rfl

theorem jobEntry_markRecord (s : AsyncJobManager) (jobId : JsString) (status : SubagentLifecycle)
    (id : JsString) : (s.markRecord jobId status).jobEntry id = s.jobEntry id := by
  obtain ⟨records, handles, heq⟩ := markRecord_eq s jobId status
  rw [heq]
  rfl

theorem Sound.cancel (h : Sound s) {id : JsString}
    (hfree : IdsWereFree (s.cancel options id filter runners).1) :
    Sound (s.cancel options id filter runners).1 := by
  unfold AsyncJobManager.cancel at hfree ⊢
  cases hentry : s.jobEntry id with
  | none => exact h
  | some e =>
    obtain ⟨n, job⟩ := e
    have hjob : s.objects[n]? = some job := (jobEntry_eq_some.mp hentry).2
    rw [hentry] at hfree
    dsimp only at hfree ⊢
    split_ifs at hfree ⊢ with howner hpaused hrunning
    · exact h
    · have hgoing : ¬ job.status.Ended := by rw [hpaused]; decide
      have hmarked := (h.cancelled hjob (.inr hgoing)).markRecord id .cancelled
      have hscheduled := hmarked.scheduleEviction options fun e he =>
        not_running_of_cancelled hentry e (jobEntry_markRecord _ id _ id ▸ he)
      exact hscheduled.drain hfree
    · exact h
    · refine h.cancelled hjob (.inr ?_)
      rw [not_not.mp hrunning]
      decide

/-- The jobs a `cancelAll` has still to cancel: their runs go on. -/
theorem Sound.cancelAll (h : Sound s) (filter : Option JsString) :
    Sound (s.cancelAll options filter) := by
  have hrunning : ∀ e ∈ s.getRunningJobs filter, ∃ job, s.objects[e.1]? = some job ∧
      job.id = e.2.id ∧ job.settled = false := by
    rintro ⟨n, job⟩ he
    obtain ⟨hlisted, hstatus⟩ := mem_filter.mp he
    obtain ⟨m, -, hm⟩ := mem_filterMap.mp hlisted
    obtain ⟨job', hjob, heq⟩ := map_eq_some_iff.mp hm
    obtain ⟨rfl, rfl⟩ := Prod.mk.inj heq
    refine ⟨job', hjob, rfl, eq_false_iff.mpr fun hover => ?_⟩
    simp only [and_eq_true, decide_eq_true_eq] at hstatus
    exact h.stopped job' (mem_of_getElem? hjob) hover hstatus.2
  unfold AsyncJobManager.cancelAll
  generalize s.getRunningJobs filter = jobs at hrunning
  induction jobs generalizing s with
  | nil => exact h
  | cons e jobs ih =>
    obtain ⟨⟨job, hjob, hid, hopen⟩, hjobs⟩ := forall_mem_cons.mp hrunning
    have hgoing := h.going job (mem_of_getElem? hjob) hopen
    have hcancelled : Sound (s.updateJob e.1 (·.become .cancelled)) := by
      refine h.cancelled hjob (hgoing.symm.imp_right fun hstatus => ?_)
      rw [hstatus]
      decide
    have hobject : (s.updateJob e.1 (·.become .cancelled)).objects[e.1]? =
        some (job.become .cancelled) := by
      rw [getElem?_updateJob, hjob, map_some, if_pos rfl]
    have hstopped := hcancelled.orderly.not_running_of_unsettled hobject hopen JobStatus.noConfusion
    refine ih (hcancelled.scheduleEviction options (hid ▸ hstopped)) fun e' he' => ?_
    obtain ⟨job', hjob', hid', hopen'⟩ := hjobs e' he'
    rw [objects_scheduleEviction, getElem?_updateJob, hjob']
    refine ⟨_, rfl, ?_, ?_⟩
    · split_ifs <;> exact hid'
    · split_ifs <;> exact hopen'

theorem Sound.evictionTimer (h : Sound s) (jobId : JsString) : Sound (s.evictionTimer jobId) := by
  unfold AsyncJobManager.evictionTimer
  split_ifs with hpending
  · have hrest : Sound { s with evictionTimers := s.evictionTimers.filter (· ≠ jobId) } :=
      { h with
        orderly := ⟨h.orderly.listed, h.orderly.unsettled,
          fun id hid => h.orderly.timers id (mem_filter.mp hid).1, h.orderly.evicted⟩ }
    exact hrest.evictJob (h.orderly.timers jobId hpending)
  · exact h

/-- The jobs after the end of a run: the one that is over, the others there were, and new
ones. -/
theorem Handled.cases_settled {job' : AsyncJob} (h : Handled n job s job' s' ds)
    (hjob : s.objects[n]? = some job) :
    ∀ other ∈ (s'.updateJob n ({ · with settled := true })).objects,
      other ∈ s.objects ∨ other = { job' with settled := true } ∨ Fresh other := by
  intro other hother
  obtain ⟨jobs, hjobs, hnew⟩ := h.objects
  obtain ⟨m, hm⟩ := mem_iff_getElem?.mp hother
  rw [getElem?_updateJob] at hm
  obtain ⟨old, hold, rfl⟩ := map_eq_some_iff.mp hm
  by_cases hnm : n = m
  · subst hnm
    obtain rfl := some.inj ((h.getElem? hjob).symm.trans hold)
    rw [if_pos rfl]
    exact .inr (.inl rfl)
  · rw [if_neg hnm]
    rw [hjobs, getElem?_append] at hold
    split_ifs at hold
    · rw [getElem?_set_ne hnm] at hold
      exact .inl (mem_of_getElem? hold)
    · exact .inr (.inr (hnew old (mem_of_getElem? hold)))

theorem Handled.getElem?_settled {m : Nat} {job' other : AsyncJob} (h : Handled n job s job' s' ds)
    (hnm : n ≠ m) (hother : s.objects[m]? = some other) :
    (s'.updateJob n ({ · with settled := true })).objects[m]? = some other := by
  obtain ⟨jobs, hjobs, -⟩ := h.objects
  have hlt : m < s.objects.length := (List.getElem?_eq_some_iff.mp hother).1
  rw [getElem?_updateJob, hjobs, List.getElem?_append_left (by rwa [List.length_set]),
    List.getElem?_set_ne hnm, hother, map_some, if_neg hnm]

/-- **The end of a run.** -/
theorem Sound.settle (h : Sound s) {result : Except JsString SubagentRunOutcome}
    {retries : ResumeQueueEntry → RunnerCall}
    (hcareful : Careful options s (.settle n result runners retries)) :
    Sound (s.settle options n result runners retries) := by
  obtain ⟨hfree, hreturns⟩ := hcareful
  change IdsWereFree (s.settle options n result runners retries) at hfree
  cases hjob : s.objects[n]? with
  | none =>
    unfold AsyncJobManager.settle
    rw [hjob]
    exact h
  | some job =>
    by_cases hover : job.settled = true
    · unfold AsyncJobManager.settle
      rw [hjob]
      dsimp only
      rw [if_pos hover]
      exact h
    have hopen : job.settled = false := not_eq_true _ ▸ hover
    have hmem := mem_of_getElem? hjob
    obtain ⟨job', s₁, ds, heq, hhandled, hds, hends, hstopped⟩ :=
      settle_handled options hjob hopen (h.endsOnce job hmem) (h.going job hmem hopen) result
        runners retries fun text htext => by
          subst htext
          exact hreturns job hjob
    rw [heq] at hfree ⊢
    have hcases := hhandled.cases_settled hjob
    have hsettled : (s₁.updateJob n ({ · with settled := true })).objects[n]? =
        some { job' with settled := true } := by
      rw [getElem?_updateJob, hhandled.getElem? hjob, map_some, if_pos rfl]
    have hfree₁ : IdsWereFree s₁ := by
      intro other hother
      obtain ⟨m, hm⟩ := mem_iff_getElem?.mp hother
      have hflag := hfree _ (mem_of_getElem? (by rw [getElem?_updateJob, hm]; rfl))
      split_ifs at hflag <;> exact hflag
    -- The deliveries there were are about other jobs, since this one was not over.
    have hnew : ∀ d ∈ s.enqueued, n ≠ d.job := by
      rintro d hd rfl
      obtain ⟨old, hold, hover'⟩ := h.delivered d hd
      obtain rfl := some.inj (hjob.symm.trans hold)
      exact hover hover'
    refine ⟨(hhandled.orderly hfree₁ h.orderly).updateJob n (fun _ => rfl)
      (fun _ hopen => Bool.noConfusion hopen) (fun _ => id), ?_, ?_, ?_, ?_, ?_⟩
    · intro other hother hopen'
      rcases hcases other hother with hold | rfl | hfresh
      · exact h.going other hold hopen'
      · exact Bool.noConfusion hopen'
      · exact .inl hfresh.status
    · intro other hother hover'
      rcases hcases other hother with hold | rfl | hfresh
      · exact h.stopped other hold hover'
      · exact hstopped
      · exact absurd (hfresh.settled.symm.trans hover') false_ne_true
    · intro other hother
      rcases hcases other hother with hold | rfl | hfresh
      · exact h.endsOnce other hold
      · exact hends
      · unfold AsyncJob.EndsOnce
        rw [hfresh.before]
        exact List.IsChain.singleton _
    · intro d hd
      change d ∈ s₁.enqueued at hd
      rw [hhandled.enqueued] at hd
      rcases mem_append.mp hd with hd | hd
      · obtain ⟨old, hold, hover'⟩ := h.delivered d hd
        exact ⟨old, hhandled.getElem?_settled (hnew d hd) hold, hover'⟩
      · rw [hhandled.about d hd]
        exact ⟨_, hsettled, rfl⟩
    · change (s₁.enqueued.map (·.job)).Nodup
      rw [hhandled.enqueued, map_append]
      refine nodup_append.mpr ⟨h.once, ?_, ?_⟩
      · cases ds with
        | nil => exact nodup_nil
        | cons d ds =>
          obtain rfl : ds = [] := length_eq_zero_iff.mp (by simpa using hds)
          exact nodup_singleton _
      · intro a ha b hb
        obtain ⟨d, hd, rfl⟩ := mem_map.mp ha
        obtain ⟨d', hd', rfl⟩ := mem_map.mp hb
        rw [hhandled.about d' hd']
        exact (hnew d hd).symm

theorem getSubagentRecord_eq (s : AsyncJobManager) (subagentId : JsString)
    (filter : Option JsString) : ∃ records,
      (s.getSubagentRecord subagentId filter).1 = { s with subagentRecords := records } := by
  unfold getSubagentRecord recordFromResumeDescriptor
  cases s.subagentRecords.get (trim subagentId) with
  | some record => exact ⟨_, rfl⟩
  | none =>
    dsimp only
    cases s.getResumeDescriptor (trim subagentId) filter with
    | none | some descriptor => exact ⟨_, rfl⟩

theorem getSubagentRecord_resumed (s : AsyncJobManager) (subagentId : JsString)
    (filter : Option JsString) : Resumed s (s.getSubagentRecord subagentId filter).1 := by
  obtain ⟨records, heq⟩ := getSubagentRecord_eq s subagentId filter
  rw [heq]
  exact .of_eq rfl rfl rfl rfl rfl

theorem resumeSubagent_resumed (s : AsyncJobManager) (subagentId : JsString)
    (filter message : Option JsString) (call : RunnerCall) :
    Resumed s (s.resumeSubagent options subagentId filter message call).1 := by
  have hfound := getSubagentRecord_resumed s subagentId filter
  unfold resumeSubagent
  generalize s.getSubagentRecord subagentId filter = found at hfound ⊢
  obtain ⟨s₁, _ | record⟩ := found
  · exact hfound
  · dsimp only at hfound ⊢
    split_ifs
    · exact hfound
    · exact hfound
    · cases record.queued with
      | none => exact hfound
      | some queued => exact hfound.trans (.of_eq rfl rfl rfl rfl rfl)
    · cases record.queued <;> exact hfound
    · exact hfound
    · exact hfound
    · exact hfound.trans (.of_eq rfl rfl rfl rfl rfl)
    · exact hfound.trans (startResume_induction (motive := Resumed s₁)
        (fun _ _ _ _ _ _ h => h.trans (.of_eq rfl rfl rfl rfl rfl))
        (fun _ _ _ _ hok h => h.trans (resumed_of_register hok)) call (.refl s₁))

theorem Sound.cancelSubagent (h : Sound s) {subagentId : JsString}
    (hfree : IdsWereFree (s.cancelSubagent options subagentId filter runners).1) :
    Sound (s.cancelSubagent options subagentId filter runners).1 := by
  obtain ⟨records, heq⟩ := getSubagentRecord_eq s subagentId filter
  have hfound : Sound (s.getSubagentRecord subagentId filter).1 := by
    rw [heq]
    exact h.congr rfl rfl rfl rfl rfl
  unfold AsyncJobManager.cancelSubagent at hfree ⊢
  generalize s.getSubagentRecord subagentId filter = found at hfound hfree ⊢
  obtain ⟨s₁, _ | record⟩ := found
  · exact hfound
  · dsimp only at hfound hfree ⊢
    split_ifs at hfree ⊢
    · exact hfound.cancel hfree
    · have hrecord : ∀ s₂ : AsyncJobManager, Sound s₂ → Sound ((s₂.setRecord
          { record with status := .cancelled }).removeLiveHandle record.subagentId) :=
        fun _ h => h.congr rfl rfl rfl rfl rfl
      refine Sound.drain (hrecord _ ?_) hfree
      -- The paused job of the record, if there is one, is cancelled and evicted.
      cases hentry : (s₁.jobEntry (record.currentJobId.getD [])).filter fun e =>
          record.currentJobId.getD [] ≠ [] && e.2.status = .paused with
      | none => exact hfound
      | some e =>
        obtain ⟨n, job⟩ := e
        obtain ⟨hentry, hpaused⟩ := filter_eq_some_iff.mp hentry
        have hstatus : job.status = .paused := by simpa using (and_eq_true_iff.mp hpaused).2
        have hgoing : ¬ job.status.Ended := by rw [hstatus]; decide
        exact (hfound.cancelled (jobEntry_eq_some.mp hentry).2 (.inr hgoing)).scheduleEviction
          options (not_running_of_cancelled hentry)
    · exact hfound.congr rfl rfl rfl rfl rfl
    · exact hfound

theorem finishOwnerSubagentShutdown_resumed (s : AsyncJobManager)
    (lease : OwnerSubagentShutdownLease) (outcome : ShutdownOutcome)
    (pendingJobIds : List JsString) :
    Resumed s (s.finishOwnerSubagentShutdown lease outcome pendingJobIds) := by
  unfold finishOwnerSubagentShutdown
  cases s.leaseState lease with
  | none => exact .refl s
  | some state =>
    dsimp only
    split_ifs
    · exact .of_eq rfl rfl rfl rfl rfl
    · exact .of_eq rfl rfl rfl rfl rfl

theorem startProving_resumed (s : AsyncJobManager) (lease : OwnerSubagentShutdownLease) :
    Resumed s (s.startProving lease) := by
  unfold startProving
  cases s.leaseState lease with
  | none => exact .refl s
  | some state =>
    dsimp only
    split_ifs
    · exact .refl s
    · exact .of_eq rfl rfl rfl rfl rfl

theorem proveOwnerSubagents_resumed (s : AsyncJobManager) (lease : OwnerSubagentShutdownLease)
    (settled : List JsString) (deadlineExceeded : Bool) :
    Resumed s (s.proveOwnerSubagents lease settled deadlineExceeded).1 := by
  unfold proveOwnerSubagents
  cases (s.leaseState lease).filter fun state => state.phase = .proving with
  | none => exact .refl s
  | some state => exact .of_eq rfl rfl rfl rfl rfl

theorem beginOwnerSubagentShutdown_resumed (s : AsyncJobManager) (ownerId : JsString) :
    Resumed s (s.beginOwnerSubagentShutdown ownerId).1 := by
  unfold beginOwnerSubagentShutdown
  split_ifs
  · exact .refl s
  · exact .of_eq rfl rfl rfl rfl rfl

theorem pauseSubagent_resumed (s : AsyncJobManager) (subagentId : JsString)
    (filter : Option JsString) : Resumed s (s.pauseSubagent subagentId filter).1 := by
  have hfound := getSubagentRecord_resumed s subagentId filter
  unfold pauseSubagent
  generalize s.getSubagentRecord subagentId filter = found at hfound ⊢
  obtain ⟨s₁, _ | record⟩ := found
  · exact hfound
  · exact hfound

/-- **A careful operation keeps the jobs in order.** -/
theorem Sound.step (h : Sound s) {op : Op} (hcareful : Careful options s op) :
    Sound (s.step options op) := by
  have hfree := hcareful.1
  cases op with
  | register register =>
    cases hok : s.register options register with
    | error error => simpa only [AsyncJobManager.step, hok] using h
    | ok e =>
      simp only [AsyncJobManager.step, hok] at hfree ⊢
      exact h.resumed (resumed_of_register hok) hfree
  | settle n result runners retries => exact h.settle hcareful
  | cancel id filter runners => exact h.cancel hfree
  | cancelAll filter => exact h.cancelAll filter
  | evictionTimer jobId => exact h.evictionTimer jobId
  | acknowledgeDeliveries jobIds | setResumeRunner
  | registerResumeDescriptor descriptor withRunner | registerSubagentRecord record
  | registerLiveHandle subagentId | removeLiveHandle subagentId => exact h.congr rfl rfl rfl rfl rfl
  | resumeSubagent subagentId filter message call =>
    exact h.resumed (resumeSubagent_resumed s subagentId filter message call) hfree
  | cancelSubagent subagentId filter runners => exact h.cancelSubagent hfree
  | pauseSubagent subagentId filter =>
    exact h.resumed (pauseSubagent_resumed s subagentId filter) hfree
  | beginOwnerSubagentShutdown ownerId =>
    exact h.resumed (beginOwnerSubagentShutdown_resumed s ownerId) hfree
  | startProving lease => exact h.resumed (startProving_resumed s lease) hfree
  | proveOwnerSubagents lease settled deadlineExceeded =>
    exact h.resumed (proveOwnerSubagents_resumed s lease settled deadlineExceeded) hfree
  | finishOwnerSubagentShutdown lease outcome pendingJobIds =>
    exact h.resumed (finishOwnerSubagentShutdown_resumed s lease outcome pendingJobIds) hfree

/-- **In every run of careful operations, every job ends once.** -/
theorem jobs_end_once {ops : List Op} (h : Runs.Meets (step options) (Careful options) new ops) :
    Runs.Throughout (step options) JobsEndOnce new ops :=
  (Runs.throughout_of_meets (fun _ _ hs hcareful => hs.step hcareful) sound_new h).mono
    fun _ hs => hs.jobsEndOnce

instance (s : AsyncJobManager) : Decidable (IdsWereFree s) :=
  inferInstanceAs (Decidable (∀ job ∈ s.objects, job.idWasFree = true))

def oneSlot (retentionMs : Int) : AsyncJobManagerOptions := ⟨some 1, some retentionMs⟩

def pausedSubagent : SubagentRecord where
  subagentId := js "s"
  ownerId := none
  currentJobId := none
  historicalJobIds := []
  status := .paused
  sessionFile := some (js "s.jsonl")
  resumable := true
  queued := none

/-- A subagent waits for the slot of a job. -/
def waiting : List Op :=
  [.setResumeRunner, .register ⟨some (js "a"), none, none⟩,
    .registerSubagentRecord pausedSubagent,
    .resumeSubagent (js "s") none none ⟨none, .returns none⟩]

/-- A runner that registers a job for the subagent. -/
def starts : RunnerCall := ⟨some ⟨some (js "s"), none, none⟩, .registered⟩

def fails : RunnerCall := ⟨none, .throws (.thrown (js "no session"))⟩

def done : Except JsString SubagentRunOutcome := .ok (.completed (js "done"))

theorem not_throws_starts : ¬ starts.Throws := by
  rintro ⟨error, h, -⟩
  cases h

theorem jobs_end_once_waiting : Runs.Throughout (step (oneSlot 0)) JobsEndOnce new
    (waiting ++ [.settle 0 done (fun _ => starts) (fun _ => starts),
      .settle 1 (.error (js "lost")) (fun _ => starts) (fun _ => starts)]) := by
  apply jobs_end_once
  refine ⟨⟨by decide, trivial⟩, ⟨by decide, trivial⟩, ⟨by decide, trivial⟩,
    ⟨by decide, trivial⟩, ⟨by decide, ?_⟩, ⟨by decide, trivial⟩, trivial⟩
  exact fun _ _ _ _ _ => not_throws_starts

/-- A runner that throws fails the job that completed, which is delivered again.  A job that
was cancelled, and evicted, while its run goes on has the next job of its id evicted. -/
theorem not_jobs_end_once : ¬ Runs.Throughout (step (oneSlot 1000)) JobsEndOnce new
      (waiting ++ [.settle 0 done (fun _ => fails) (fun _ => fails)]) ∧
    ¬ Runs.Throughout (step (oneSlot 0)) JobsEndOnce new
      [.register ⟨some (js "a"), none, none⟩, .cancelAll none,
        .register ⟨some (js "a"), none, none⟩,
        .settle 0 done (fun _ => starts) (fun _ => starts)] := by
  constructor
  · intro h
    have hlast := (Runs.throughout_iff.mp h _ (prefix_refl _)).deliveries
    exact absurd hlast (by decide)
  · intro h
    have hlast := (Runs.throughout_iff.mp h _ (prefix_refl _)).evictions
    exact hlast (1, .running) (by decide) rfl

end AsyncJobManager
end GajaeCode
