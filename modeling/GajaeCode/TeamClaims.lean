import GajaeCode.TeamGate
import Mathlib.Logic.Relation

/-! # Claims are exclusive, and completed tasks are verified

A team starts with no files and runs one operation after the other; an operation may stop after
any of its writes.  Beside the files a team keeps which claims have come to write their record
(`Team.issued`).

Nothing but the record of a task decides which token is accepted, so the invariant is about the
records (`Sound`): the claim of a record is the one issued last, a task that is over has none, and
a completed one has normal evidence.
-/
namespace GajaeCode
open JsString JsValue List

namespace TeamTasks
variable {N : Type} [JsNumber N] [JsCounter N] {host : Host}
variable {fields : JsFields N}
variable {writes : List (Write N)} {op : Operation N host} {s : GjcTeamTaskStatus}

/-- The files of a team and, newest first, the claims whose record was written: the task and the
token. -/
structure Team (N : Type) where
  store : TeamStore N
  issued : List (JsString × JsString)

/-- What a write of an operation issues: a claim issues its token with the record. -/
def Operation.issues : Operation N host → Write N → Option (JsString × JsString)
  | .claim _ _ input, .task id _ => some (id, input.token)
  | _, _ => none

namespace Team

def start : Team N := ⟨.empty, []⟩

/-- The operation stops after `k` writes, or at its end. -/
def run (team : Team N) (op : Operation N host) (k : Nat) : Team N :=
  let writes := (op.outcome team.store).writes.take k
  ⟨team.store.write writes, writes.filterMap op.issues ++ team.issued⟩

/-- The token of the latest claim of a task. -/
def latest (team : Team N) (id : JsString) : Option JsString := team.issued.lookup id

def status (host : Host) (team : Team N) (id : JsString) : Option (JsValue N) :=
  (team.store.read host id).map fun task => getField task (js "status")

/-- A transition or a release of the task goes through with the token. -/
def Accepts (host : Host) (team : Team N) (id token : JsString) : Prop :=
  (∃ status workerId evidenceInput, ∃ now : Timestamp host, ∃ task,
    (transitionUnlocked host team.store id status (some token) workerId evidenceInput now).answer =
      .task task) ∨
  ∃ workerId, ∃ updatedAt : Timestamp host, ∃ task,
    (releaseUnlocked host team.store id token workerId updatedAt).answer = .task task

end Team

/-- One operation after the other. -/
inductive Step (host : Host) : Team N → Team N → Prop where
  | run {team : Team N} (op : Operation N host) (k : Nat) : Step host team (team.run op k)

def Reaches (host : Host) : Team N → Team N → Prop := Relation.ReflTransGen (Step host)

/-- A record of the task `id` whose latest claim has the token `latest`. -/
structure Sound (host : Host) (latest : Option JsString) (id : JsString)
    (fields : JsFields N) : Prop where
  ordered : KeysOrdered fields
  id_eq : getField fields (js "id") = .string id
  status : ∃ s : GjcTeamTaskStatus, getField fields (js "status") = .string s.name
  title : ∃ text, getField fields (js "title") = .string text
  objective : ∃ text, getField fields (js "objective") = .string text
  claim : getField fields (js "claim") = .undefined ∨
    ∃ worker, ∃ input : ClaimInput host,
      getField fields (js "claim") = claimValue host worker input ∧ latest = some input.token
  terminal : ∀ s : GjcTeamTaskStatus, getField fields (js "status") = .string s.name →
    s.terminal = true → getField fields (js "claim") = .undefined
  completed : getField fields (js "status") = .string (js "completed") →
    ∃ evidence : CompletionEvidence,
      getField fields (js "completion_evidence") = evidence.toValue ∧ evidence.Normal host ∧
        trim evidence.recordedBy ≠ [] ∧ trim evidence.recordedAt ≠ []

omit [JsNumber N] [JsCounter N] in
theorem Sound.congr {latest : Option JsString} {id : JsString} {fields' : JsFields N}
    (h : Sound host latest id fields) (hordered : KeysOrdered fields')
    (htitle : ∃ text, getField fields' (js "title") = .string text)
    (hobjective : ∃ text, getField fields' (js "objective") = .string text)
    (hget : ∀ k ∈ [js "id", js "status", js "claim", js "completion_evidence"], getField fields' k
      = getField fields k) : Sound host latest id fields' := by
  have hid := hget (js "id") (by decide)
  have hstatus := hget (js "status") (by decide)
  have hclaim := hget (js "claim") (by decide)
  have hevidence := hget (js "completion_evidence") (by decide)
  exact ⟨hordered, hid ▸ h.id_eq, hstatus ▸ h.status, htitle, hobjective, hclaim ▸ h.claim,
    hclaim ▸ hstatus ▸ h.terminal, hstatus ▸ hevidence ▸ h.completed⟩

theorem name_injective {s s' : GjcTeamTaskStatus} (h : s.name = s'.name) : s = s' := by
  cases s <;> cases s' <;> first | rfl | exact absurd h (by decide)

section
variable {latest : Option JsString} {id : JsString} (h : Sound host latest id fields)
include h

omit [JsCounter N] in
theorem Sound.normalize : Sound host latest id (normalizeGjcTeamTask fields) := by
  obtain ⟨title, htitle⟩ := h.title
  obtain ⟨objective, hobjective⟩ := h.objective
  obtain ⟨s, hs⟩ := h.status
  have hcomplete : ¬ equalsText (js "complete") (.string s.name : JsValue N) = true := by
    cases s <;> exact Bool.false_ne_true
  refine h.congr (keysOrdered_normalizeTask h.ordered) ⟨title, ?_⟩ ⟨objective, ?_⟩ ?_
  · rw [title_normalize, htitle]
    rfl
  · rw [objective_normalize, hobjective]
    rfl
  · simp only [forall_mem_cons, not_mem_nil, false_imp_iff, implies_true, and_true]
    refine ⟨getField_normalize _ (by decide), ?_, getField_normalize _ (by decide),
      getField_normalize _ (by decide)⟩
    rw [status_normalize, hs, if_neg hcomplete]

omit [JsCounter N] in
theorem Sound.asJson : Sound host latest id (fieldsAsJson fields) := by
  have hget : ∀ k, getField (fieldsAsJson fields) k = JsValue.asJson (getField fields k) :=
    getField_fieldsAsJson h.ordered.nodup
  obtain ⟨title, htitle⟩ := h.title
  obtain ⟨objective, hobjective⟩ := h.objective
  obtain ⟨s, hs⟩ := h.status
  have hstatus : getField (fieldsAsJson fields) (js "status") = getField fields (js "status") := by
    rw [hget, hs, asJson_string]
  have hclaim : getField (fieldsAsJson fields) (js "claim") = getField fields (js "claim") := by
    rw [hget]
    rcases h.claim with hnone | ⟨worker, input, hclaim, -⟩
    · rw [hnone, asJson_undefined]
    · rw [hclaim, asJson_claimValue]
  refine ⟨?_, by rw [hget, h.id_eq, asJson_string], ⟨s, by rw [hstatus, hs]⟩,
    ⟨title, by rw [hget, htitle, asJson_string]⟩,
    ⟨objective, by rw [hget, hobjective, asJson_string]⟩, hclaim ▸ h.claim,
    hclaim ▸ hstatus ▸ h.terminal, fun hcompleted => ?_⟩
  · rw [fieldsAsJson_eq, KeysOrdered, pairwise_map]
    exact h.ordered.sublist filter_sublist
  · obtain ⟨evidence, hevidence, hnormal⟩ := h.completed (hstatus ▸ hcompleted)
    exact ⟨evidence, by rw [hget, hevidence, asJson_evidence], hnormal⟩

end

section Operations
variable {latest : Option JsString} {id : JsString} {task : JsFields N}

theorem sound_newTask {subject description : JsString} {options : GjcTeamTaskMetadataInput}
    {createdAt updatedAt : Timestamp host} : Sound host latest id
      (newTask (N := N) host id subject description options createdAt updatedAt) where
  ordered := record_newTask.ordered
  id_eq := by rw [getField_newTask]; rfl
  status := ⟨.pending, by rw [getField_newTask]; rfl⟩
  title := ⟨subject, by rw [getField_newTask]; rfl⟩
  objective := ⟨description, by rw [getField_newTask]; rfl⟩
  claim := .inl (by rw [getField_newTask]; rfl)
  terminal _ _ _ := by rw [getField_newTask]; rfl
  completed h := by
    rw [getField_newTask] at h
    exact absurd (JsValue.string.inj h) (by decide)

section
variable (h : Sound host latest id task)
include h

theorem Sound.updated (updates : TaskUpdates) (updatedAt : Timestamp host) :
    Sound host latest id (updatedTask host task updates updatedAt) := by
  obtain ⟨title, htitle⟩ := h.title
  obtain ⟨objective, hobjective⟩ := h.objective
  rw [updatedTask_eq]
  refine (h.congr (keysOrdered_spreadFields (keysOrdered_spreadFields h.ordered _) _) ?_ ?_
    ?_).normalize
  · rw [← assembledTask, getField_assembled, htitle]
    exact coalesce_ofOption _ _
  · rw [← assembledTask, getField_assembled, hobjective]
    exact coalesce_ofOption _ _
  · intro k hk
    refine getField_assembled_of_not_mem fun hmem => ?_
    have hdisjoint : ∀ k ∈ [js "id", js "status", js "claim", js "completion_evidence"],
      k ∉ updateKeys ++ [js "title", js "objective", js "version", js "updated_at"] := by decide
    exact hdisjoint k hk hmem

theorem Sound.claimed (worker : GjcTeamTaskWorker) (input : ClaimInput host) :
    Sound host (some input.token) id (claimedTask host task worker input) where
  ordered := keysOrdered_spreadFields h.ordered _
  id_eq := by rw [getField_claimed_of_not_mem (by decide), h.id_eq]
  status := ⟨.inProgress, by rw [getField_claimed]; rfl⟩
  title := by rw [getField_claimed_of_not_mem (by decide)]; exact h.title
  objective := by rw [getField_claimed_of_not_mem (by decide)]; exact h.objective
  claim := .inr ⟨worker, input, by rw [getField_claimed]; rfl, rfl⟩
  terminal s hs hterminal := by
    rw [getField_claimed] at hs
    have hname : js "in_progress" = s.name := JsValue.string.inj hs
    cases s <;> first | exact absurd hname (by decide) | cases hterminal
  completed hs := by
    rw [getField_claimed] at hs
    exact absurd (JsValue.string.inj hs) (by decide)

theorem Sound.released (updatedAt : Timestamp host) :
    Sound host latest id (releasedTask host task updatedAt) where
  ordered := keysOrdered_spreadFields h.ordered _
  id_eq := by rw [getField_released_of_not_mem (by decide), h.id_eq]
  status := ⟨.pending, by rw [getField_released]; rfl⟩
  title := by rw [getField_released_of_not_mem (by decide)]; exact h.title
  objective := by rw [getField_released_of_not_mem (by decide)]; exact h.objective
  claim := .inl (by rw [getField_released]; rfl)
  terminal _ _ _ := by rw [getField_released]; rfl
  completed hs := by
    rw [getField_released] at hs
    exact absurd (JsValue.string.inj hs) (by decide)

theorem Sound.transitioned {store : TeamStore N} {token : JsString} {status : GjcTeamTaskStatus}
    {evidenceInput : JsValue N} {now : Timestamp host} {evidence : Option CompletionEvidence}
    (hallowed : Transitions store id status token evidenceInput now task evidence) :
    Sound host latest id (transitionedTask host task status evidence now) where
  ordered := keysOrdered_spreadFields h.ordered _
  id_eq := by rw [getField_transitioned_of_not_mem (by decide), h.id_eq]
  status := ⟨status, status_transitioned⟩
  title := by rw [getField_transitioned_of_not_mem (by decide)]; exact h.title
  objective := by rw [getField_transitioned_of_not_mem (by decide)]; exact h.objective
  claim := by
    rw [claim_transitioned]
    split_ifs
    · exact .inl rfl
    · exact h.claim
  terminal s hs hterminal := by
    rw [status_transitioned] at hs
    rw [claim_transitioned, name_injective (JsValue.string.inj hs), if_pos hterminal]
  completed hs := by
    rw [status_transitioned] at hs
    have hcompleted : status = .completed :=
      @name_injective status .completed (JsValue.string.inj hs)
    have hevidence := hallowed.evidence
    rw [if_pos hcompleted] at hevidence
    obtain ⟨e, rfl, hnormal⟩ := hevidence
    obtain ⟨hnormal, hby, hat⟩ := normal_of_normalize hnormal
    refine ⟨e, evidence_transitioned e, hnormal, ?_, hat ▸ now.2.2⟩
    -- the evidence is recorded by who has the claim
    obtain ⟨claimed, hclaim, -⟩ := hallowed.claim
    rcases h.claim with hnone | ⟨worker, input, hworker, -⟩
    · rw [hclaim] at hnone
      cases hnone
    · rw [hby, hworker]
      exact trim_ne_nil_of_isSafeText worker.id_safe

end

end Operations

/-- The name of the task that is created as number `i`. -/
def taskName (i : Nat) : JsString := js "task-" ++ JsString.ofNat (i + 1)

theorem taskName_injective : Function.Injective taskName := by
  intro i j h
  have hnumbers := append_cancel_left h
  have hparse := congrArg parseNat hnumbers
  rw [parseNat_ofNat, parseNat_ofNat] at hparse
  omega

/-- The tasks of a team are numbered as they were created, and their records are sound. -/
structure Team.Sound (host : Host) (team : Team N) : Prop where
  names : ∃ n, team.store.tasks.map Prod.fst = (List.range n).map taskName
  records : ∀ file ∈ team.store.tasks, ∃ fields, file.2 = .object fields ∧
    TeamTasks.Sound host (team.latest file.1) file.1 fields

variable {team : Team N}

section
omit [JsNumber N] [JsCounter N]

theorem Team.Sound.nodup (h : team.Sound host) : (team.store.tasks.map Prod.fst).Nodup := by
  obtain ⟨n, hnames⟩ := h.names
  rw [hnames]
  exact nodup_range.map taskName_injective

theorem taskRecord_of_sound {latest : Option JsString} {id : JsString}
    (h : Sound host latest id fields) : taskRecord fields = true := by
  obtain ⟨s, hs⟩ := h.status
  obtain ⟨title, htitle⟩ := h.title
  obtain ⟨objective, hobjective⟩ := h.objective
  have hname : s.name ∈ taskStatuses := by cases s <;> decide
  rw [taskRecord, h.id_eq, hs, htitle, hobjective]
  simp [isString, hname]

end

section
variable (h : team.Sound host)
include h

section
omit [JsCounter N]

theorem Team.Sound.taskOfFile {file : JsString × JsValue N} (hfile : file ∈ team.store.tasks) :
    ∃ fields, file.2 = .object fields ∧ TeamTasks.Sound host (team.latest file.1) file.1 fields ∧
      TeamStore.taskOfFile file = some (normalizeGjcTeamTask fields) := by
  obtain ⟨fields, hfields, hsound⟩ := h.records file hfile
  refine ⟨fields, hfields, hsound, ?_⟩
  obtain ⟨n, hnames⟩ := h.names
  have hname : file.1 ∈ (range n).map taskName := hnames ▸ mem_map_of_mem hfile
  obtain ⟨i, -, hname⟩ := mem_map.mp hname
  have hsuffix : ¬ (js ".evidence").isSuffixOf file.1 = true := by
    intro hsuffix
    have hdot : 0x2e ∈ taskName i :=
      hname ▸ (isSuffixOf_iff_suffix.mp hsuffix).subset (by decide)
    exact (unit_taskId (i + 1) 0x2e hdot).2 rfl
  unfold TeamStore.taskOfFile
  rw [hfields]
  dsimp only
  rw [if_neg hsuffix, if_pos (taskRecord_of_sound hsound)]

theorem Team.Sound.length_list : (team.store.list host).length = team.store.tasks.length := by
  unfold TeamStore.list
  rw [length_mergeSort, filterMap_length_eq_length]
  intro file hfile
  obtain ⟨fields, -, -, htask⟩ := h.taskOfFile hfile
  rw [htask]
  rfl

theorem Team.Sound.file_of_read {id : JsString} {task : JsFields N}
    (hread : team.store.read host id = some task) :
    ∃ fields, (id, .object fields) ∈ team.store.tasks ∧ task = normalizeGjcTeamTask fields := by
  obtain ⟨⟨name, value⟩, hmem, htask⟩ := mem_list.mp (mem_of_find?_eq_some hread)
  have hfound : textField task (js "id") = id := by
    unfold TeamStore.read at hread
    simpa using find?_some hread
  obtain ⟨fields, rfl, hsound, htask'⟩ := h.taskOfFile hmem
  obtain rfl := some.inj (htask'.symm.trans htask)
  rw [textField, hsound.normalize.id_eq] at hfound
  exact ⟨fields, hfound ▸ hmem, rfl⟩

theorem Team.Sound.read_of_mem {id : JsString} (hmem : (id, .object fields) ∈ team.store.tasks) :
    team.store.read host id = some (normalizeGjcTeamTask fields) := by
  obtain ⟨fields', hfields', hsound, htask⟩ := h.taskOfFile hmem
  obtain rfl := JsValue.object.inj hfields'
  cases hread : team.store.read host id with
  | none =>
    have hnone := find?_eq_none.mp hread _ (mem_list.mpr ⟨_, hmem, htask⟩)
    rw [textField, hsound.normalize.id_eq] at hnone
    exact absurd (decide_eq_true rfl) hnone
  | some task =>
    obtain ⟨fields', hmem', rfl⟩ := h.file_of_read hread
    have hsame := (lookup_of_mem h.nodup hmem).symm.trans (lookup_of_mem h.nodup hmem')
    rw [JsValue.object.inj (some.inj hsame)]

theorem Team.Sound.sound_of_read {id : JsString} {task : JsFields N}
    (hread : team.store.read host id = some task) :
    TeamTasks.Sound host (team.latest id) id task := by
  obtain ⟨fields, hmem, rfl⟩ := h.file_of_read hread
  obtain ⟨fields', hfields', hsound⟩ := h.records _ hmem
  obtain rfl := JsValue.object.inj hfields'
  exact hsound.normalize

end

end

section
omit [JsNumber N] [JsCounter N]

theorem tasks_write_of_claims {store : TeamStore N} (h : ∀ w ∈ writes, w.OfClaim) :
    (store.write writes).tasks = store.tasks := by
  unfold TeamStore.write
  induction writes generalizing store with
  | nil => rfl
  | cons w writes ih =>
    obtain ⟨hw, hwrites⟩ := forall_mem_cons.mp h
    rw [foldl_cons, ih hwrites]
    cases w with
    | task id value => exact hw.elim
    | claim id value | unclaim id => rfl

theorem issues_of_claims (h : ∀ w ∈ writes, w.OfClaim) : writes.filterMap op.issues = [] := by
  refine filterMap_eq_nil_iff.mpr fun w hw => ?_
  have hclaim := h w hw
  cases w with
  | task id value => exact hclaim.elim
  | claim id value | unclaim id => cases op <;> rfl

end

/-- The claims that a record issues. -/
def issuedWith (op : Operation N host) (task : JsFields N)
    (issued : List (JsString × JsString)) : List (JsString × JsString) :=
  (op.issues (writeTask task)).toList ++ issued

theorem run_cases (team : Team N) (op : Operation N host) (k : Nat) :
    ((team.run op k).store.tasks = team.store.tasks ∧ (team.run op k).issued = team.issued) ∨
    ∃ task, Written team.store op task ∧
      (team.run op k).store.tasks = setFile team.store.tasks (textField task (js "id"))
        (asJson (.object (normalizeGjcTeamTask task))) ∧
      (team.run op k).issued = issuedWith op task team.issued := by
  rw [Team.run]
  rcases (outcome_cases team.store op).take k with
    hclaims | ⟨before, task, after, heq, hwritten, hbefore, hafter⟩
  · exact .inl ⟨tasks_write_of_claims hclaims, by
      dsimp only
      rw [issues_of_claims hclaims, nil_append]⟩
  · refine .inr ⟨task, hwritten, ?_, ?_⟩
    · dsimp only
      rw [heq, TeamStore.write, foldl_append, foldl_cons, ← TeamStore.write,
        ← TeamStore.write, tasks_write_of_claims hafter]
      show setFile (team.store.write before).tasks _ _ = _
      rw [tasks_write_of_claims hbefore]
    · dsimp only
      rw [heq, filterMap_append, issues_of_claims hbefore, nil_append,
        filterMap_cons, issues_of_claims hafter, issuedWith]
      cases op.issues (writeTask task) <;> rfl

/-- A claim that answers so has issued its token, when it comes to its end; nothing else has. -/
theorem issued_of_answer (team : Team N) (op : Operation N host) {k : Nat}
    (hk : (op.outcome team.store).writes.length ≤ k) :
    (team.run op k).issued = match (op.outcome team.store).answer with
      | .claimed record _ token => (textField record (js "id"), token) :: team.issued
      | _ => team.issued := by
  rw [Team.run, take_of_length_le hk]
  cases op with
  | create => rfl
  | update id updates updatedAt =>
    have hnone : (Operation.outcome team.store (.update id updates updatedAt)).writes.filterMap
        (Operation.issues (.update id updates updatedAt)) = [] :=
      filterMap_eq_nil_iff.mpr fun _ _ => rfl
    dsimp only
    rw [hnone, Operation.outcome, updateUnlocked, onTask]
    cases team.store.read host id with
    | none => rfl
    | some task =>
      dsimp only
      rw [withPath]
      split_ifs <;> rfl
  | claim worker id? input =>
    rw [Operation.outcome]
    rcases claim_cases team.store worker id? input with ⟨hclaims, hanswer⟩ | ⟨id, task, -, h⟩
    · dsimp only
      rw [issues_of_claims hclaims, nil_append]
      cases hclaimed : (claimUnlocked host team.store worker id? input).answer with
      | claimed record workerId token => exact absurd hclaimed (hanswer record workerId token)
      | _ => rfl
    · rw [h]
      rfl
  | transition id status token workerId evidenceInput now =>
    rw [Operation.outcome]
    rcases transition_cases team.store id status token workerId evidenceInput now with
      ⟨message, h⟩ | ⟨t, task, evidence, -, -, h⟩
    · rw [h]
      rfl
    · rw [h]
      cases status <;> rfl
  | release id token workerId updatedAt =>
    rw [Operation.outcome]
    rcases release_cases team.store id token workerId updatedAt with
      ⟨message, h⟩ | ⟨task, -, h⟩
    · rw [h]
      rfl
    · have hnone : (unclaimIfOwned team.store id token).filterMap
          (Operation.issues (.release id token workerId updatedAt)) = [] :=
        filterMap_eq_nil_iff.mpr fun _ _ => rfl
      rw [h]
      dsimp only
      rw [filterMap_cons, hnone]
      rfl

/-! ### The record that is written -/

omit [JsCounter N] in
/-- A status that is one of the five stays when the record is normalized. -/
theorem status_normalize_of_name (h : getField fields (js "status") = .string s.name) :
    getField (normalizeGjcTeamTask fields) (js "status") = .string s.name := by
  have hcomplete : ¬ equalsText (js "complete") (.string s.name : JsValue N) = true := by
    cases s <;> exact Bool.false_ne_true
  rw [status_normalize, h, if_neg hcomplete]

/-- What a record that is written is to the team. -/
structure Replaces (host : Host) (team : Team N) (issued : List (JsString × JsString))
    (id : JsString) (task : JsFields N) : Prop where
  sound : Sound host (issued.lookup id) id task
  others : ∀ id', id' ≠ id → issued.lookup id' = team.latest id'
  name : id ∈ team.store.tasks.map Prod.fst ∨ id = taskName team.store.tasks.length
  terminal : ∀ before, team.store.read host id = some before → ∀ s : GjcTeamTaskStatus,
    getField before (js "status") = .string s.name → s.terminal = true →
      getField task (js "status") = .string s.name

omit [JsCounter N] in
theorem Team.Sound.mem_names_of_read (h : team.Sound host) {id : JsString} {task : JsFields N}
    (hread : team.store.read host id = some task) : id ∈ team.store.tasks.map Prod.fst := by
  obtain ⟨fields, hmem, -⟩ := h.file_of_read hread
  exact mem_map_of_mem hmem

omit [JsNumber N] [JsCounter N] in
theorem Team.Sound.name_not_mem (h : team.Sound host) :
    taskName team.store.tasks.length ∉ team.store.tasks.map Prod.fst := by
  obtain ⟨n, hnames⟩ := h.names
  have hlength : team.store.tasks.length = n := by
    have hlengths := congrArg length hnames
    simpa using hlengths
  rw [hnames, hlength]
  intro hmem
  obtain ⟨i, hi, heq⟩ := mem_map.mp hmem
  rw [taskName_injective heq] at hi
  exact absurd (mem_range.mp hi) (lt_irrefl n)

omit [JsCounter N] in
theorem pending_of_eligible {task : JsFields N} {worker : GjcTeamTaskWorker}
    {tasks : List (JsFields N)} (h : eligibility host task worker tasks = none) :
    equalsText (js "pending") (getField task (js "status")) = true := by
  unfold eligibility at h
  by_contra hpending
  rw [if_pos hpending] at h
  cases h

theorem Team.Sound.replaces (h : team.Sound host) {task : JsFields N}
    (hwritten : Written team.store op task) :
    ∃ id, Replaces host team (issuedWith op task team.issued) id task := by
  cases hwritten with
  | create =>
    refine ⟨taskName (team.store.list host).length, ?_, fun id' _ => rfl, .inr ?_, ?_⟩
    · exact sound_newTask
    · rw [h.length_list]
    · intro before hread
      rw [h.length_list] at hread
      exact absurd (h.mem_names_of_read hread) h.name_not_mem
  | @update id updates updatedAt task hread =>
    have hsound := h.sound_of_read hread
    refine ⟨id, hsound.updated updates updatedAt, fun id' _ => rfl,
      .inl (h.mem_names_of_read hread), ?_⟩
    intro before hbefore s hs _
    obtain rfl := some.inj (hread.symm.trans hbefore)
    rw [updatedTask_eq]
    refine status_normalize_of_name ?_
    rw [getField_assembled_of_not_mem (by decide), hs]
  | @claim worker id? id input task hclaims =>
    have hsound := h.sound_of_read hclaims.read
    have hissued : issuedWith (.claim worker id? input) (claimedTask host task worker input)
        team.issued = (id, input.token) :: team.issued := by
      rw [issuedWith, writeTask, textField, getField_claimed_of_not_mem (by decide), hsound.id_eq]
      rfl
    rw [hissued]
    refine ⟨id, ?_, fun id' hne => ?_, .inl (h.mem_names_of_read hclaims.read), ?_⟩
    · rw [lookup_cons, beq_self_eq_true]
      exact hsound.claimed worker input
    · rw [lookup_cons, beq_eq_false_iff_ne.mpr hne]
      rfl
    · intro before hbefore s hs hterminal
      obtain rfl := some.inj (hclaims.read.symm.trans hbefore)
      have hpending := pending_of_eligible hclaims.eligible
      rw [hs] at hpending
      cases s with
      | pending | blocked | inProgress => cases hterminal
      | completed | failed => exact absurd hpending Bool.false_ne_true
  | @transition id status token workerId t evidenceInput now task evidence htoken hallowed =>
    have hsound := h.sound_of_read hallowed.read
    refine ⟨id, hsound.transitioned hallowed, fun id' _ => rfl,
      .inl (h.mem_names_of_read hallowed.read), ?_⟩
    intro before hbefore s hs hterminal
    obtain rfl := some.inj (hallowed.read.symm.trans hbefore)
    have hcompleted := hallowed.ne_completed
    have hfailed := hallowed.ne_failed
    rw [hs] at hcompleted hfailed
    cases s with
    | pending | blocked | inProgress => cases hterminal
    | completed => cases hcompleted
    | failed => cases hfailed
  | @release id token workerId updatedAt task hreleases =>
    have hsound := h.sound_of_read hreleases.read
    refine ⟨id, hsound.released updatedAt, fun id' _ => rfl,
      .inl (h.mem_names_of_read hreleases.read), ?_⟩
    intro before hbefore s hs hterminal
    obtain rfl := some.inj (hreleases.read.symm.trans hbefore)
    obtain ⟨claimed, hclaim, -⟩ := hreleases.claim
    rw [hsound.terminal s hs hterminal] at hclaim
    cases hclaim

/-! ### The files after it -/

section SetFile
variable {files : List (JsString × JsValue N)} {name : JsString} {value : JsValue N}

section
omit [JsNumber N] [JsCounter N]

theorem names_setFile_of_mem (h : name ∈ files.map Prod.fst) :
    (setFile files name value).map Prod.fst = files.map Prod.fst := by
  induction files with
  | nil => cases h
  | cons file files ih =>
    rw [setFile]
    split_ifs with hname
    · rw [map_cons, map_cons, hname]
    · rw [map_cons, map_cons, ih]
      rw [map_cons, mem_cons] at h
      exact h.resolve_left fun heq => hname heq.symm

theorem setFile_of_not_mem (h : name ∉ files.map Prod.fst) :
    setFile files name value = files ++ [(name, value)] := by
  induction files with
  | nil => rfl
  | cons file files ih =>
    rw [map_cons, mem_cons, not_or] at h
    rw [setFile, if_neg fun heq => h.1 heq.symm, ih h.2, cons_append]

theorem mem_setFile_iff (h : (files.map Prod.fst).Nodup) {file : JsString × JsValue N} :
    file ∈ setFile files name value ↔ file = (name, value) ∨ file ∈ files ∧ file.1 ≠ name := by
  induction files with
  | nil => simp [setFile]
  | cons f files ih =>
    rw [map_cons, nodup_cons] at h
    have hne : ∀ g ∈ files, g.1 ≠ f.1 := fun g hg heq => h.1 (heq ▸ mem_map_of_mem hg)
    rw [setFile]
    split_ifs with hname
    · rw [mem_cons, mem_cons]
      constructor
      · rintro (rfl | hmem)
        · exact .inl rfl
        · exact .inr ⟨.inr hmem, hname ▸ hne file hmem⟩
      · rintro (rfl | ⟨rfl | hmem, hother⟩)
        · exact .inl rfl
        · exact absurd hname hother
        · exact .inr hmem
    · rw [mem_cons, mem_cons, ih h.2]
      constructor
      · rintro (rfl | heq | ⟨hmem, hother⟩)
        · exact .inr ⟨.inl rfl, hname⟩
        · exact .inl heq
        · exact .inr ⟨.inr hmem, hother⟩
      · rintro (heq | ⟨rfl | hmem, hother⟩)
        · exact .inr (.inl heq)
        · exact .inl rfl
        · exact .inr (.inr ⟨hmem, hother⟩)

end

end SetFile

/-- The fields of the file that is written of a record. -/
def storedFields (task : JsFields N) : JsFields N := fieldsAsJson (normalizeGjcTeamTask task)

/-- **A step keeps a team sound.** -/
theorem Team.Sound.run (h : team.Sound host) (op : Operation N host) (k : Nat) :
    (team.run op k).Sound host := by
  rcases run_cases team op k with ⟨htasks, hissued⟩ | ⟨task, hwritten, htasks, hissued⟩
  · refine ⟨htasks ▸ h.names, fun file hfile => ?_⟩
    rw [htasks] at hfile
    rw [Team.latest, hissued]
    exact h.records file hfile
  · obtain ⟨id, hreplaces⟩ := h.replaces hwritten
    have hid : textField task (js "id") = id := by rw [textField, hreplaces.sound.id_eq]
    rw [hid] at htasks
    refine ⟨?_, fun file hfile => ?_⟩
    · rw [htasks]
      rcases hreplaces.name with hmem | hnew
      · rw [names_setFile_of_mem hmem]
        exact h.names
      · obtain ⟨n, hnames⟩ := h.names
        have hlength : team.store.tasks.length = n := by
          have hlengths := congrArg length hnames
          simpa using hlengths
        refine ⟨n + 1, ?_⟩
        rw [setFile_of_not_mem (hnew ▸ h.name_not_mem), map_append, hnames, range_succ,
          map_append, hnew, hlength]
        rfl
    · rw [htasks, mem_setFile_iff h.nodup] at hfile
      rw [Team.latest, hissued]
      rcases hfile with rfl | ⟨hmem, hother⟩
      · exact ⟨storedFields task, rfl, hreplaces.sound.normalize.asJson⟩
      · rw [hreplaces.others file.1 hother]
        exact h.records file hmem

omit [JsNumber N] [JsCounter N] in
theorem sound_start : (Team.start : Team N).Sound host := by
  refine ⟨⟨0, rfl⟩, fun file hfile => ?_⟩
  cases hfile

/-- **Every team is sound.** -/
theorem sound_of_reaches (h : Reaches host Team.start team) : team.Sound host := by
  induction h with
  | refl => exact sound_start
  | tail _ hstep ih =>
    obtain ⟨op, k⟩ := hstep
    exact ih.run op k

/-! ## What holds of every team -/

theorem Team.Sound.latest_of_accepts (h : team.Sound host) {id token : JsString}
    (haccepts : team.Accepts host id token) : team.latest id = some token := by
  have htoken : ∀ task claimed, team.store.read host id = some task →
      getField task (js "claim") = .object claimed →
      equalsText token (getField claimed (js "token")) = true → team.latest id = some token := by
    intro task claimed hread hclaim hmatch
    rcases (h.sound_of_read hread).claim with hnone | ⟨worker, input, hworker, hlatest⟩
    · rw [hclaim] at hnone
      cases hnone
    · obtain rfl := JsValue.object.inj (hclaim.symm.trans hworker)
      rw [hlatest, ← of_decide_eq_true (show decide (input.token = token) = true from hmatch)]
  rcases haccepts with ⟨status, workerId, evidenceInput, now, task, hanswer⟩ |
    ⟨workerId, updatedAt, task, hanswer⟩
  · rcases transition_cases team.store id status (some token) workerId evidenceInput now with
      ⟨message, hthrown⟩ | ⟨t, task', evidence, ht, hallowed, -⟩
    · rw [hthrown] at hanswer
      cases hanswer
    · obtain rfl := some.inj ht
      obtain ⟨claimed, hclaim, hmatch⟩ := hallowed.claim
      exact htoken task' claimed hallowed.read hclaim hmatch
  · rcases release_cases team.store id token workerId updatedAt with
      ⟨message, hthrown⟩ | ⟨task', hallowed, -⟩
    · rw [hthrown] at hanswer
      cases hanswer
    · obtain ⟨claimed, hclaim, hmatch⟩ := hallowed.claim
      exact htoken task' claimed hallowed.read hclaim hmatch

theorem Team.Sound.status_run (h : team.Sound host) {id : JsString}
    (hs : team.status host id = some (.string s.name)) (hterminal : s.terminal = true)
    (op : Operation N host) (k : Nat) : (team.run op k).status host id = some (.string s.name) := by
  obtain ⟨before, hread, hbefore⟩ := Option.map_eq_some_iff.mp hs
  have hafter := h.run op k
  obtain ⟨fields, hmem, rfl⟩ := h.file_of_read hread
  rw [Team.status, Option.map_eq_some_iff]
  rcases run_cases team op k with ⟨htasks, -⟩ | ⟨task, hwritten, htasks, -⟩
  · exact ⟨_, hafter.read_of_mem (htasks ▸ hmem), hbefore⟩
  · obtain ⟨id', hreplaces⟩ := h.replaces hwritten
    have hid : textField task (js "id") = id' := by rw [textField, hreplaces.sound.id_eq]
    rw [hid] at htasks
    by_cases hsame : id = id'
    · -- the record of the task is written
      subst hsame
      have hmem' : (id, .object (storedFields task)) ∈ (team.run op k).store.tasks := by
        rw [htasks, mem_setFile_iff h.nodup]
        exact .inl rfl
      refine ⟨_, hafter.read_of_mem hmem', status_normalize_of_name ?_⟩
      have hstatus := hreplaces.terminal _ hread s hbefore hterminal
      rw [storedFields, getField_fieldsAsJson hreplaces.sound.normalize.ordered.nodup,
        status_normalize_of_name hstatus, asJson_string]
    · refine ⟨_, hafter.read_of_mem ?_, hbefore⟩
      rw [htasks, mem_setFile_iff h.nodup]
      exact .inr ⟨hmem, hsame⟩

omit [JsNumber N] [JsCounter N] in
theorem isVerified_of_sound {latest : Option JsString} {id : JsString} {task : JsFields N}
    (h : Sound host latest id task)
    (hcompleted : getField task (js "status") = .string (js "completed")) :
    isGjcTeamTaskCompletionVerified host task = true := by
  obtain ⟨evidence, hevidence, hnormal, hby, hat⟩ := h.completed hcompleted
  obtain ⟨fields, hvalue, -, -, hrecordedBy, hrecordedAt, -⟩ := @fieldsOf_evidence N evidence
  have hby' : isNonEmptyString (.string evidence.recordedBy : JsValue N) = true := by
    simpa [isNonEmptyString] using hby
  have hat' : isNonEmptyString (.string evidence.recordedAt : JsValue N) = true := by
    simpa [isNonEmptyString] using hat
  have hequals : equalsText (js "completed") (.string (js "completed") : JsValue N) = true := rfl
  unfold isGjcTeamTaskCompletionVerified getGjcTeamTaskCompletionEvidenceFailure
  rw [hcompleted, hevidence, hvalue]
  simp only [hequals, hrecordedBy, hrecordedAt, hby', hat', not_true_eq_false, if_false]
  obtain ⟨again, hagain⟩ := normalize_toValue (N := N) hnormal (textField task (js "id"))
    (trim (textField fields (js "recorded_by"))) (textField fields (js "recorded_at"))
  rw [hvalue] at hagain
  rw [hagain]
  rfl

/-- **Claims are exclusive and completed tasks are verified**, at every moment of every run: what
is accepted is the token of the latest claim, a task that is over stays as it is, and a completed
one has verified evidence.  The latest claim is the one that answered so last, or that stopped
between its record and its answer. -/
theorem claims_exclusive {team : Team N} (h : Reaches host Team.start team) :
    (∀ id token, team.Accepts host id token →
      team.latest id = some token ∧ ∀ token', team.Accepts host id token' → token' = token) ∧
    (∀ op : Operation N host, ∀ k, (op.outcome team.store).writes.length ≤ k →
      (team.run op k).issued = match (op.outcome team.store).answer with
        | .claimed record _ token => (textField record (js "id"), token) :: team.issued
        | _ => team.issued) ∧
    (∀ later, Reaches host team later → ∀ id, ∀ s : GjcTeamTaskStatus, s.terminal = true →
      team.status host id = some (.string s.name) → later.status host id = some (.string s.name)) ∧
    ∀ task ∈ team.store.list host, getField task (js "status") = .string (js "completed") →
      isGjcTeamTaskCompletionVerified host task = true := by
  have hsound := sound_of_reaches h
  refine ⟨fun id token haccepts => ⟨hsound.latest_of_accepts haccepts, fun token' haccepts' => ?_⟩,
    fun op k hk => issued_of_answer team op hk, fun later hlater id s hterminal hs => ?_,
    fun task htask hcompleted => ?_⟩
  · have hlatest := hsound.latest_of_accepts haccepts
    rw [hsound.latest_of_accepts haccepts'] at hlatest
    exact some.inj hlatest
  · induction hlater with
    | refl => exact hs
    | tail hbefore hstep ih =>
      obtain ⟨op, k⟩ := hstep
      exact (sound_of_reaches (h.trans hbefore)).status_run ih hterminal op k
  · obtain ⟨file, hfile, hof⟩ := mem_list.mp htask
    obtain ⟨fields, -, hfields, hof'⟩ := hsound.taskOfFile hfile
    obtain rfl := some.inj (hof'.symm.trans hof)
    exact isVerified_of_sound hfields.normalize hcompleted

/-- The team after a task is created and claimed. -/
def claimedTeam : Team Nat := (Team.start.run sampleCreate 1).run sampleClaim 2

theorem reaches_claimedTeam : Reaches sampleHost Team.start claimedTeam :=
  (Relation.ReflTransGen.single (.run sampleCreate 1)).tail (.run sampleClaim 2)

def Answer.isTask : Answer N → Bool
  | .task _ => true
  | _ => false

/-- The claimed task is released with the token, and with no other. -/
theorem claims_exclusive_claimed : claimedTeam.Accepts sampleHost (js "task-1") (js "token-1") ∧
    claimedTeam.latest (js "task-1") = some (js "token-1") ∧
    ∀ token, claimedTeam.Accepts sampleHost (js "task-1") token → token = js "token-1" := by
  have hreleased : (releaseUnlocked sampleHost claimedTeam.store (js "task-1") (js "token-1")
      (js "worker-1") sampleTime).answer.isTask = true := by decide +kernel
  have haccepts : claimedTeam.Accepts sampleHost (js "task-1") (js "token-1") := by
    refine .inr ⟨js "worker-1", sampleTime, ?_⟩
    generalize (releaseUnlocked sampleHost claimedTeam.store (js "task-1") (js "token-1")
      (js "worker-1") sampleTime).answer = answer at hreleased ⊢
    cases answer with
    | task record => exact ⟨record, rfl⟩
    | claimed | refused | thrown => cases hreleased
  exact ⟨haccepts, (claims_exclusive reaches_claimedTeam).1 _ _ haccepts⟩

end TeamTasks
end GajaeCode
