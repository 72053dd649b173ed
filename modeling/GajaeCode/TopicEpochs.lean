import GajaeCode.TopicRoutes

/-! # Late creates and the epochs of authority

A create notes the epoch of its session when it starts and commits only in that epoch; a
deletion advances the epoch.  What is left to show is that the epoch never comes back.
Three operations can bring it back or leave it where it is: a `load` whose fence is behind,
a `delete` that finds no record, and a deletion at the epoch `2 ^ 53`, which as a double
has no successor.
-/
namespace GajaeCode
open JsString List

namespace TopicRegistry
variable {N : Type} (numbers : JsonNumbers N)
variable {r : TopicRegistry N} {sessionId : JsString} {op : Operation N}

theorem le_nextEpoch (epoch : Nat) : epoch ≤ nextEpoch epoch := by
  unfold nextEpoch
  split_ifs <;> omega

theorem epochOf_le_deletionEpoch (r : TopicRegistry N) (sessionId : JsString) :
    r.epochOf sessionId ≤ r.deletionEpoch sessionId :=
  le_trans (le_max_left _ _) (le_nextEpoch _)

theorem epochOf_lt_deletionEpoch (h : r.epochOf sessionId < 2 ^ 53) :
    r.epochOf sessionId < r.deletionEpoch sessionId := by
  unfold deletionEpoch nextEpoch
  split_ifs <;> omega

theorem epochOf_set {r r' : TopicRegistry N} {sessionId : JsString} {epoch : Nat}
    (h : r'.epochs = r.epochs.set sessionId epoch) (other : JsString) :
    r'.epochOf other = if other = sessionId then epoch else r.epochOf other := by
  unfold epochOf
  rw [h, InsertionMap.get_set]
  split_ifs <;> rfl

/-! ## What the operations do to epochs and creates -/

theorem epochs_beginDelete (r : TopicRegistry N) (sessionId : JsString) :
    (r.beginDelete sessionId).1.epochs = r.epochs.set sessionId (r.deletionEpoch sessionId) := by
  unfold beginDelete
  cases r.topics.get sessionId with
  | none => rfl
  | some record => exact epochs_unroute _ _ _

theorem inflight_beginDelete (r : TopicRegistry N) (sessionId : JsString) :
    (r.beginDelete sessionId).1.inflight = r.inflight := by
  unfold beginDelete
  cases r.topics.get sessionId with
  | none => rfl
  | some record => exact inflight_unroute _ _ _

theorem epochs_delete {record : TopicRecord N} (hget : r.topics.get sessionId = some record) :
    (r.delete sessionId).1.epochs = r.epochs.set sessionId (r.deletionEpoch sessionId) := by
  rw [delete, hget]
  exact epochs_unroute _ _ _

theorem delete_none (hget : r.topics.get sessionId = none) : (r.delete sessionId).1 = r := by
  rw [delete, hget]

theorem inflight_delete (r : TopicRegistry N) (sessionId : JsString) :
    (r.delete sessionId).1.inflight = r.inflight := by
  unfold delete
  cases r.topics.get sessionId with
  | none => rfl
  | some record => exact inflight_unroute _ _ _

theorem commitCreated_frame (r : TopicRegistry N) (sessionId topicId : JsString)
    (create : InflightCreate) (now : N) :
    (r.commitCreated sessionId topicId create now).1.epochs = r.epochs ∧
      (r.commitCreated sessionId topicId create now).1.inflight = r.inflight := by
  unfold commitCreated routeCreated
  simp only
  split_ifs <;> exact ⟨rfl, rfl⟩

/-- Where a promise settles, its create is not awaited any more; all other creates and all
epochs stay what they are. -/
theorem createResolves_frame (r : TopicRegistry N) (sessionId : JsString) (value : JsValue N)
    (now : N) : (r.createResolves sessionId value now).1.epochs = r.epochs ∧
      ∀ other ≠ sessionId, (r.createResolves sessionId value now).1.inflight.get other =
        r.inflight.get other := by
  unfold createResolves
  cases r.awaited sessionId with
  | none => exact ⟨rfl, fun _ _ => rfl⟩
  | some create =>
    have hinflight : ∀ other ≠ sessionId,
        (r.settleInflight sessionId create).inflight.get other = r.inflight.get other :=
      fun other hne => (InsertionMap.get_set _ _ _ _).trans (if_neg hne)
    cases validTopicId value with
    | none => exact ⟨rfl, hinflight⟩
    | some topicId =>
      obtain ⟨hepochs, hcreates⟩ :=
        commitCreated_frame (r.settleInflight sessionId create) sessionId topicId create now
      refine ⟨hepochs, fun other hne => ?_⟩
      rw [← hinflight other hne, ← hcreates]
      rfl

theorem createRejects_frame (r : TopicRegistry N) (sessionId : JsString) :
    (r.createRejects sessionId).epochs = r.epochs ∧
      ∀ other ≠ sessionId, (r.createRejects sessionId).inflight.get other =
        r.inflight.get other := by
  unfold createRejects
  cases r.awaited sessionId with
  | none => exact ⟨rfl, fun _ _ => rfl⟩
  | some create => exact ⟨rfl, fun other hne => (InsertionMap.get_set _ _ _ _).trans (if_neg hne)⟩

theorem forgetInflight_frame (r : TopicRegistry N) (sessionId : JsString) :
    (r.forgetInflight sessionId).epochs = r.epochs ∧ ∀ other create, r.awaited other = some create →
        (r.forgetInflight sessionId).inflight.get other = r.inflight.get other := by
  unfold forgetInflight
  cases hget : r.inflight.get sessionId with
  | none => exact ⟨rfl, fun _ _ _ => rfl⟩
  | some settled =>
    simp only
    split_ifs with hsettled
    · refine ⟨rfl, fun other create hawaited => ?_⟩
      refine (InsertionMap.get_erase _ _ _).trans (if_neg ?_)
      -- a create that is awaited has not settled
      rintro rfl
      rw [awaited, hget] at hawaited
      simp [Option.filter, hsettled] at hawaited
    · exact ⟨rfl, fun _ _ _ => rfl⟩

theorem getOrCreateTopic_frame (r : TopicRegistry N) (sessionId : JsString)
    (name : Option JsString) : (r.getOrCreateTopic sessionId name).1.epochs = r.epochs ∧
      ∀ other create, r.awaited other = some create →
        (r.getOrCreateTopic sessionId name).1.inflight.get other = r.inflight.get other := by
  unfold getOrCreateTopic
  cases r.topics.get sessionId with
  | some record =>
    simp only
    split_ifs <;> exact ⟨rfl, fun _ _ _ => rfl⟩
  | none =>
    cases hget : r.inflight.get sessionId with
    | some create => exact ⟨rfl, fun _ _ _ => rfl⟩
    | none =>
      refine ⟨rfl, fun other create hawaited => ?_⟩
      refine (InsertionMap.get_set _ _ _ _).trans (if_neg ?_)
      rintro rfl
      rw [awaited, hget] at hawaited
      cases hawaited

theorem settleDelete_frame (r : TopicRegistry N) (sessionId topicId : JsString) :
    (r.settleDelete sessionId topicId).1.epochs = r.epochs ∧
      (r.settleDelete sessionId topicId).1.inflight = r.inflight := by
  unfold settleDelete
  cases r.topics.get sessionId with
  | none => exact ⟨rfl, rfl⟩
  | some record =>
    simp only
    split_ifs <;> exact ⟨rfl, rfl⟩

theorem note_frame (r : TopicRegistry N) (sessionId : JsString) (n : Note N) :
    (r.note sessionId n).1.epochs = r.epochs ∧ (r.note sessionId n).1.inflight = r.inflight := by
  unfold note
  split <;> exact ⟨rfl, rfl⟩

/-! ## What `load` does to epochs -/

/-- No fence of the serialized state is behind the session's epoch, or the record that
comes with it makes up for it. -/
def LoadsAhead (r : TopicRegistry N) (state : TopicRegistryState N) : Prop :=
  ∀ sessionId fence epoch, (sessionId, fence) ∈ state.fences →
    TopicRecord.safeNat numbers fence = some epoch →
      r.epochOf sessionId ≤ epoch ∨
        ∃ raw record, (sessionId, raw) ∈ state.topics ∧
          TopicRecord.normalize numbers raw = some record ∧
          r.epochOf sessionId ≤ record.authorityEpoch.getD 0

theorem loadFences_frame (r : TopicRegistry N) (fences : JsFields N) :
    (fences.foldl (loadFence numbers) r).inflight = r.inflight ∧
      ∀ sessionId, (fences.foldl (loadFence numbers) r).epochOf sessionId = r.epochOf sessionId ∨
        ∃ fence, (sessionId, fence) ∈ fences ∧ TopicRecord.safeNat numbers fence =
          some ((fences.foldl (loadFence numbers) r).epochOf sessionId) := by
  induction fences using reverseRecOn with
  | nil => exact ⟨rfl, fun _ => .inl rfl⟩
  | append_singleton fences entry ih =>
    obtain ⟨hinflight, hepochs⟩ := ih
    rw [foldl_concat]
    have hkept : ∀ sessionId, (fences.foldl (loadFence numbers) r).epochOf sessionId =
        r.epochOf sessionId ∨ ∃ fence, (sessionId, fence) ∈ fences ++ [entry] ∧
          TopicRecord.safeNat numbers fence =
            some ((fences.foldl (loadFence numbers) r).epochOf sessionId) := fun sessionId =>
      (hepochs sessionId).imp_right fun ⟨fence, hmem, hfence⟩ =>
        ⟨fence, mem_append_left _ hmem, hfence⟩
    unfold loadFence at *
    cases hsafe : TopicRecord.safeNat numbers entry.2 with
    | none => exact ⟨hinflight, hkept⟩
    | some epoch =>
      refine ⟨hinflight, fun sessionId => ?_⟩
      rw [epochOf_set rfl]
      split_ifs with heq
      · exact .inr ⟨entry.2, mem_append_right _ (mem_singleton.mpr (heq ▸ rfl)), hsafe⟩
      · exact hkept sessionId

theorem loadTopic_frame (r : TopicRegistry N) (entry : JsString × JsValue N) :
    (loadTopic numbers r entry).inflight = r.inflight ∧
      ∀ sessionId, r.epochOf sessionId ≤ (loadTopic numbers r entry).epochOf sessionId ∧
        ∀ record, sessionId = entry.1 → TopicRecord.normalize numbers entry.2 = some record →
          record.authorityEpoch.getD 0 ≤ (loadTopic numbers r entry).epochOf sessionId := by
  unfold loadTopic
  cases TopicRecord.normalize numbers entry.2 with
  | none => exact ⟨rfl, fun _ => ⟨le_rfl, fun _ _ hrecord => nomatch hrecord⟩⟩
  | some record =>
    refine ⟨rfl, fun sessionId => ?_⟩
    have hepoch := @epochOf_set N r { r with
      epochs := r.epochs.set entry.1 (max (r.epochOf entry.1) (record.authorityEpoch.getD 0))
      topics := r.topics.set entry.1 record } entry.1 _ rfl sessionId
    rw [hepoch]
    split_ifs with heq
    · refine ⟨heq ▸ le_max_left _ _, fun record' _ hrecord => ?_⟩
      rw [some.inj hrecord]
      exact le_max_right _ _
    · exact ⟨le_rfl, fun _ heq' => absurd heq' heq⟩

theorem loadTopics_frame (r : TopicRegistry N) (topics : JsFields N) :
    (topics.foldl (loadTopic numbers) r).inflight = r.inflight ∧
      ∀ sessionId, r.epochOf sessionId ≤ (topics.foldl (loadTopic numbers) r).epochOf sessionId ∧
        ∀ raw record, (sessionId, raw) ∈ topics → TopicRecord.normalize numbers raw = some record →
          record.authorityEpoch.getD 0 ≤
            (topics.foldl (loadTopic numbers) r).epochOf sessionId := by
  induction topics generalizing r with
  | nil => exact ⟨rfl, fun _ => ⟨le_rfl, fun _ _ hmem => nomatch hmem⟩⟩
  | cons entry topics ih =>
    obtain ⟨hinflight, hepochs⟩ := ih (loadTopic numbers r entry)
    rw [foldl_cons]
    have hentry := loadTopic_frame numbers r entry
    refine ⟨hinflight.trans hentry.1, fun sessionId => ⟨?_, fun raw record hmem hrecord => ?_⟩⟩
    · exact (hentry.2 sessionId).1.trans (hepochs sessionId).1
    · rcases mem_cons.mp hmem with heq | hmem
      · obtain ⟨rfl, rfl⟩ := Prod.mk.inj heq
        exact ((hentry.2 entry.1).2 record rfl hrecord).trans (hepochs entry.1).1
      · exact (hepochs sessionId).2 raw record hmem hrecord

theorem inflight_load (r : TopicRegistry N) (state : TopicRegistryState N) :
    (r.load numbers state).inflight = r.inflight :=
  (loadTopics_frame numbers _ state.topics).1.trans (loadFences_frame numbers r state.fences).1

theorem epochOf_le_load {state : TopicRegistryState N} (h : r.LoadsAhead numbers state)
    (sessionId : JsString) : r.epochOf sessionId ≤ (r.load numbers state).epochOf sessionId := by
  obtain ⟨hge, htopics⟩ := (loadTopics_frame numbers
    (state.fences.foldl (loadFence numbers) r) state.topics).2 sessionId
  show _ ≤ (state.topics.foldl (loadTopic numbers) _).epochOf sessionId
  rcases (loadFences_frame numbers r state.fences).2 sessionId with hsame | ⟨fence, hmem, hsafe⟩
  · exact hsame ▸ hge
  · rcases h sessionId fence _ hmem hsafe with hahead | ⟨raw, record, hraw, hrecord, hepoch⟩
    · exact hahead.trans hge
    · exact hepoch.trans (htopics raw record hraw hrecord)

/-! ## Runs -/

/-- The operation leaves no awaited create behind its epoch: a `load` brings no fence that
is behind, and a deletion of a session with a create on its way opens a new epoch. -/
def FencesSafely (r : TopicRegistry N) : Operation N → Prop
  | .load state => r.LoadsAhead numbers state
  | .beginDelete sessionId => (r.awaited sessionId).isSome → r.epochOf sessionId < 2 ^ 53
  | .delete sessionId => (r.awaited sessionId).isSome →
      (r.topics.get sessionId).isSome ∧ r.epochOf sessionId < 2 ^ 53
  | _ => True

theorem epochOf_congr {r' : TopicRegistry N} (h : r'.epochs = r.epochs) (sessionId : JsString) :
    r'.epochOf sessionId = r.epochOf sessionId := by
  unfold epochOf
  rw [h]

/-- **No safe operation takes an epoch back.** -/
theorem epochOf_le_step (h : r.FencesSafely numbers op) (sessionId : JsString) :
    r.epochOf sessionId ≤ (r.step numbers op).epochOf sessionId := by
  cases op with
  | load state => exact epochOf_le_load numbers h sessionId
  | getOrCreateTopic other name =>
    exact (epochOf_congr (getOrCreateTopic_frame r other name).1 sessionId).ge
  | createResolves other value now =>
    exact (epochOf_congr (createResolves_frame r other value now).1 sessionId).ge
  | createRejects other => exact (epochOf_congr (createRejects_frame r other).1 sessionId).ge
  | forgetInflight other => exact (epochOf_congr (forgetInflight_frame r other).1 sessionId).ge
  | beginDelete other =>
    show _ ≤ (r.beginDelete other).1.epochOf sessionId
    rw [epochOf_set (epochs_beginDelete r other)]
    split_ifs with heq
    · exact heq ▸ epochOf_le_deletionEpoch r sessionId
    · exact le_rfl
  | settleDelete other topicId =>
    exact (epochOf_congr (settleDelete_frame r other topicId).1 sessionId).ge
  | delete other =>
    show _ ≤ (r.delete other).1.epochOf sessionId
    cases hget : r.topics.get other with
    | none => rw [delete_none hget]
    | some record =>
      rw [epochOf_set (epochs_delete hget)]
      split_ifs with heq
      · exact heq ▸ epochOf_le_deletionEpoch r sessionId
      · exact le_rfl
  | note other n => exact (epochOf_congr (note_frame r other n).1 sessionId).ge

def Operation.settles (sessionId : JsString) : Operation N → Bool
  | .createResolves other _ _ => other = sessionId
  | .createRejects other => other = sessionId
  | _ => false

def Operation.deletes (sessionId : JsString) : Operation N → Bool
  | .beginDelete other => other = sessionId
  | .delete other => other = sessionId
  | _ => false

theorem awaited_congr {r' : TopicRegistry N}
    (h : r'.inflight.get sessionId = r.inflight.get sessionId) :
    r'.awaited sessionId = r.awaited sessionId := by
  unfold awaited
  rw [h]

theorem awaited_step {create : InflightCreate} (h : r.awaited sessionId = some create)
    (hsettles : op.settles sessionId = false) :
    (r.step numbers op).awaited sessionId = some create := by
  rw [← h]
  apply awaited_congr
  cases op with
  | load state => rw [step, inflight_load]
  | getOrCreateTopic other name => exact (getOrCreateTopic_frame r other name).2 sessionId create h
  | createResolves other value now =>
    have hne : sessionId ≠ other := fun heq => by simp [Operation.settles, heq] at hsettles
    exact (createResolves_frame r other value now).2 sessionId hne
  | createRejects other =>
    have hne : sessionId ≠ other := fun heq => by simp [Operation.settles, heq] at hsettles
    exact (createRejects_frame r other).2 sessionId hne
  | forgetInflight other => exact (forgetInflight_frame r other).2 sessionId create h
  | beginDelete other => rw [step, inflight_beginDelete]
  | settleDelete other topicId => rw [step, (settleDelete_frame r other topicId).2]
  | delete other => rw [step, inflight_delete]
  | note other n => rw [step, (note_frame r other n).2]

/-- **A deletion while a create is awaited opens a new epoch.** -/
theorem epochOf_lt_step (h : (r.awaited sessionId).isSome) (hsafe : r.FencesSafely numbers op)
    (hdeletes : op.deletes sessionId = true) :
    r.epochOf sessionId < (r.step numbers op).epochOf sessionId := by
  cases op with
  | beginDelete other =>
    obtain rfl : other = sessionId := by simpa [Operation.deletes] using hdeletes
    show _ < (r.beginDelete other).1.epochOf other
    rw [epochOf_set (epochs_beginDelete r other), if_pos rfl]
    exact epochOf_lt_deletionEpoch (hsafe h)
  | delete other =>
    obtain rfl : other = sessionId := by simpa [Operation.deletes] using hdeletes
    obtain ⟨hrecord, hepoch⟩ := hsafe h
    obtain ⟨record, hget⟩ := Option.isSome_iff_exists.mp hrecord
    show _ < (r.delete other).1.epochOf other
    rw [epochOf_set (epochs_delete hget), if_pos rfl]
    exact epochOf_lt_deletionEpoch hepoch
  | _ => cases hdeletes

section
variable {create : InflightCreate} (h : r.awaited sessionId = some create)
include h

/-- While a create is awaited its epoch can only fall behind, and a deletion is enough. -/
theorem awaited_run {ops : List (Operation N)}
    (hsafe : Runs.Meets (step numbers) (FencesSafely numbers) r ops)
    (hsettles : ∀ op ∈ ops, op.settles sessionId = false) :
    (Runs.run (step numbers) r ops).awaited sessionId = some create ∧
      r.epochOf sessionId ≤ (Runs.run (step numbers) r ops).epochOf sessionId ∧
      ((∃ op ∈ ops, op.deletes sessionId = true) →
        r.epochOf sessionId < (Runs.run (step numbers) r ops).epochOf sessionId) := by
  induction ops generalizing r with
  | nil => exact ⟨h, le_rfl, fun ⟨_, hmem, _⟩ => nomatch hmem⟩
  | cons op ops ih =>
    obtain ⟨hop, hops⟩ := hsafe
    obtain ⟨hhead, htail⟩ := forall_mem_cons.mp hsettles
    obtain ⟨hawaited, hle, hlt⟩ := ih (awaited_step numbers h hhead) hops htail
    have hstep := epochOf_le_step numbers hop sessionId
    refine ⟨hawaited, hstep.trans hle, fun hdeletes => ?_⟩
    rcases (exists_mem_cons_iff ..).mp hdeletes with hfirst | hlater
    · have hsome : (r.awaited sessionId).isSome := Option.isSome_of_eq_some h
      exact (epochOf_lt_step numbers hsome hop hfirst).trans_le hle
    · exact hstep.trans_lt (hlt hlater)

/-- A create that settles in a later epoch than its own rejects, and leaves no active
record. -/
theorem createResolves_revoked (hepoch : create.epoch < r.epochOf sessionId) (value : JsValue N)
    (now : N) : (∃ error, (r.createResolves sessionId value now).2 = some (.error error)) ∧
      ∀ record, (r.createResolves sessionId value now).1.topics.get sessionId = some record →
        record.isDeletePending = true ∨ r.topics.get sessionId = some record := by
  unfold createResolves
  rw [h]
  cases validTopicId value with
  | none => exact ⟨⟨_, rfl⟩, fun record hget => .inr hget⟩
  | some topicId =>
    have hrevoked : r.epochOf sessionId ≠ create.epoch := hepoch.ne'
    have hcommit : (r.settleInflight sessionId create).commitCreated sessionId topicId create now =
        ({ r.settleInflight sessionId create with
            topics := r.topics.set sessionId (r.createdRecord sessionId topicId create now) },
          .error .revoked) := if_pos hrevoked
    simp only [hcommit]
    refine ⟨⟨_, rfl⟩, fun record hget => .inl ?_⟩
    change (r.topics.set sessionId _).get sessionId = some record at hget
    rw [InsertionMap.get_set, if_pos rfl] at hget
    rw [← some.inj hget]
    simp [createdRecord, TopicRecord.isDeletePending, hrevoked]

end

theorem awaited_of_starts {name : Option JsString}
    (h : (r.getOrCreateTopic sessionId name).2 = .starts) :
    (r.getOrCreateTopic sessionId name).1.awaited sessionId =
      some ⟨r.epochOf sessionId, name, false⟩ := by
  unfold getOrCreateTopic at h ⊢
  cases hget : r.topics.get sessionId with
  | some record =>
    rw [hget] at h
    simp only at h
    split_ifs at h
  | none =>
    rw [hget] at h
    cases hinflight : r.inflight.get sessionId with
    | some create =>
      rw [hinflight] at h
      cases h
    | none =>
      unfold awaited
      simp only [InsertionMap.get_set, if_pos]
      rfl

/-- A create that a deletion of its session has overtaken rejects when it resolves, and the
session has no active record from it. -/
def LateCreatesReject (r : TopicRegistry N) (ops : List (Operation N)) : Prop :=
  ∀ before sessionId name during value now after,
    ops = before ++ .getOrCreateTopic sessionId name ::
      (during ++ .createResolves sessionId value now :: after) →
    ((Runs.run (step numbers) r before).getOrCreateTopic sessionId name).2 = .starts →
    (∀ op ∈ during, op.settles sessionId = false) →
    (∃ op ∈ during, op.deletes sessionId = true) →
    let overtaken :=
      Runs.run (step numbers) r (before ++ .getOrCreateTopic sessionId name :: during)
    (∃ error, (overtaken.createResolves sessionId value now).2 = some (.error error)) ∧
      ∀ record, (overtaken.createResolves sessionId value now).1.topics.get sessionId =
        some record → record.isDeletePending = true ∨ overtaken.topics.get sessionId = some record

/-- No operation of the run takes the epoch of a session back. -/
def EpochsNeverDecrease (r : TopicRegistry N) (ops : List (Operation N)) : Prop :=
  ∀ before op after, ops = before ++ op :: after → ∀ sessionId,
    (Runs.run (step numbers) r before).epochOf sessionId ≤
      ((Runs.run (step numbers) r before).step numbers op).epochOf sessionId

/-- **In a run whose operations leave no create behind its epoch, epochs never decrease and
a late create never resurrects a deleted topic.** -/
theorem late_creates_reject {state : TopicRegistryState N} {ops : List (Operation N)}
    (hsafe : Runs.Meets (step numbers) (FencesSafely numbers) (create numbers state) ops) :
    LateCreatesReject numbers (create numbers state) ops ∧
      EpochsNeverDecrease numbers (create numbers state) ops := by
  constructor
  · rintro before sessionId name during value now after rfl hstarts hsettles hdeletes
    obtain ⟨-, -, hrest⟩ := Runs.meets_append.mp hsafe
    have hduring := (Runs.meets_append.mp hrest).1
    have hawaited := awaited_of_starts hstarts
    obtain ⟨hstill, -, hlt⟩ := awaited_run numbers hawaited hduring hsettles
    have hstart : ((Runs.run (step numbers) (create numbers state) before).getOrCreateTopic
        sessionId name).1.epochOf sessionId =
        (Runs.run (step numbers) (create numbers state) before).epochOf sessionId :=
      epochOf_congr (getOrCreateTopic_frame _ _ _).1 sessionId
    have hbehind := hstart ▸ hlt hdeletes
    intro overtaken
    have hovertaken : overtaken = Runs.run (step numbers)
        ((Runs.run (step numbers) (create numbers state) before).getOrCreateTopic
          sessionId name).1 during := Runs.run_append _ _ _ _
    rw [hovertaken]
    exact createResolves_revoked hstill hbehind value now
  · rintro before op after rfl sessionId
    exact epochOf_le_step numbers (Runs.meets_append.mp hsafe).2.1 sessionId

/-- A create that is overtaken by a deletion, and by other operations after that. -/
def overtakenRun (before : List (Operation Nat)) (deletion : Operation Nat)
    (between : List (Operation Nat)) : List (Operation Nat) :=
  before ++ .getOrCreateTopic (js "s") none :: (deletion :: between ++
    [.createResolves (js "s") (.string (js "5")) 1])

theorem late_creates_reject_closed : LateCreatesReject natNumbers (create natNumbers ⟨[], []⟩)
        (overtakenRun [] (.beginDelete (js "s")) []) ∧
      EpochsNeverDecrease natNumbers (create natNumbers ⟨[], []⟩)
        (overtakenRun [] (.beginDelete (js "s")) []) :=
  late_creates_reject natNumbers ⟨trivial, fun _ => by decide, trivial, trivial⟩

theorem not_lateCreatesReject {state : TopicRegistryState Nat}
    {before between : List (Operation Nat)} {deletion : Operation Nat}
    (hdeletes : deletion.deletes (js "s") = true)
    (hsettles : ∀ op ∈ deletion :: between, op.settles (js "s") = false)
    (hstarts : ((Runs.run (step natNumbers) (create natNumbers state) before).getOrCreateTopic
      (js "s") none).2 = .starts)
    (hcommits : ((Runs.run (step natNumbers) (create natNumbers state)
      (before ++ .getOrCreateTopic (js "s") none :: deletion :: between)).createResolves (js "s")
        (.string (js "5")) 1).2.any (fun result => result.toBool) = true) :
    ¬ LateCreatesReject natNumbers (create natNumbers state)
      (overtakenRun before deletion between) := by
  intro h
  obtain ⟨⟨error, herror⟩, -⟩ := h before (js "s") none (deletion :: between)
    (.string (js "5")) 1 [] rfl hstarts hsettles ⟨deletion, mem_cons_self, hdeletes⟩
  rw [herror] at hcommits
  cases hcommits

/-- A deletion may be forgotten: by a fence that is behind, because it finds no record, or
at the epoch `2 ^ 53`. -/
theorem late_create_resurrects : ¬ LateCreatesReject natNumbers (create natNumbers ⟨[], []⟩)
        (overtakenRun [] (.beginDelete (js "s")) [.load ⟨[], [(js "s", .number 0)]⟩]) ∧
      ¬ LateCreatesReject natNumbers (create natNumbers ⟨[], []⟩)
        (overtakenRun [] (.delete (js "s")) []) ∧
      ¬ LateCreatesReject natNumbers (create natNumbers ⟨[], [(js "s", .number (2 ^ 53 - 1))]⟩)
        (overtakenRun [.beginDelete (js "s")] (.beginDelete (js "s")) []) := by
  refine ⟨?_, ?_, ?_⟩
  all_goals
    apply not_lateCreatesReject rfl
    · simp [Operation.settles]
    · rfl
    · decide

end TopicRegistry
end GajaeCode
