import GajaeCode.TeamStore

/-! # What an operation writes

An operation writes one record at most, and it writes or removes claim files before and after it
(`outcome_cases`).  `Written` says which record, made of which record that was read; the rest of
the development reads the operations through it.

`WritesOnce` is the shape of the writes, also where an operation stops early.  After it come
the fields: the keys that each operation sets, and what is read of a record it has made.
-/
namespace GajaeCode
open JsString JsValue List

namespace TeamTasks
variable {N : Type} [JsNumber N] [JsCounter N] {host : Host} {store : TeamStore N}
variable (fields : JsFields N)
variable {k token : JsString} {written : JsFields N → Prop}

/-- A transition that goes through: the task that is read, its claim and the evidence. -/
structure Transitions (store : TeamStore N) (id : JsString) (status : GjcTeamTaskStatus)
    (token : JsString) (evidenceInput : JsValue N) (now : Timestamp host) (task : JsFields N)
    (evidence : Option CompletionEvidence) : Prop where
  read : store.read host id = some task
  id_safe : isSafeText id = true
  ne_pending : status ≠ .pending
  ne_completed : equalsText (js "completed") (getField task (js "status")) = false
  ne_failed : equalsText (js "failed") (getField task (js "status")) = false
  claim : ∃ claimed, getField task (js "claim") = .object claimed ∧
    equalsText token (getField claimed (js "token")) = true
  evidence : if status = .completed then
      ∃ e, evidence = some e ∧ normalizeGjcTeamTaskCompletionEvidence host id
        (textField (fieldsOf (getField task (js "claim"))) (js "owner")) evidenceInput now.1 = .ok e
    else evidence = none

/-- A claim that goes through: the task can be read and is eligible. -/
structure Claims (host : Host) (store : TeamStore N) (worker : GjcTeamTaskWorker) (id : JsString)
    (task : JsFields N) : Prop where
  read : store.read host id = some task
  id_safe : isSafeText id = true
  eligible : eligibility host task worker (store.list host) = none

/-- What a release is allowed on. -/
structure Releases (host : Host) (store : TeamStore N) (id token : JsString)
    (task : JsFields N) : Prop where
  read : store.read host id = some task
  id_safe : isSafeText id = true
  claim : ∃ claimed, getField task (js "claim") = .object claimed ∧
    equalsText token (getField claimed (js "token")) = true

/-- The record that an operation writes, made of the one it has read. -/
inductive Written (store : TeamStore N) : Operation N host → JsFields N → Prop where
  | create {subject description : JsString} {options : GjcTeamTaskMetadataInput}
      {createdAt updatedAt : Timestamp host} :
      Written store (.create subject description options createdAt updatedAt)
        (newTask host (js "task-" ++ JsString.ofNat ((store.list host).length + 1)) subject
          description options createdAt updatedAt)
  | update {id : JsString} {updates : TaskUpdates} {updatedAt : Timestamp host}
      {task : JsFields N} (read : store.read host id = some task) :
      Written store (.update id updates updatedAt) (updatedTask host task updates updatedAt)
  | claim {worker : GjcTeamTaskWorker} {id? : Option JsString} {id : JsString}
      {input : ClaimInput host} {task : JsFields N} (h : Claims host store worker id task) :
      Written store (.claim worker id? input) (claimedTask host task worker input)
  | transition {id : JsString} {status : GjcTeamTaskStatus} {token workerId : Option JsString}
      {t : JsString} {evidenceInput : JsValue N} {now : Timestamp host} {task : JsFields N}
      {evidence : Option CompletionEvidence} (token_eq : token = some t)
      (h : Transitions store id status t evidenceInput now task evidence) :
      Written store (.transition id status token workerId evidenceInput now)
        (transitionedTask host task status evidence now)
  | release {id token workerId : JsString} {updatedAt : Timestamp host} {task : JsFields N}
      (h : Releases host store id token task) :
      Written store (.release id token workerId updatedAt) (releasedTask host task updatedAt)

omit [JsNumber N] [JsCounter N] in
theorem object_of_fieldsOf {v : JsValue N}
    (h : equalsText token (getField (fieldsOf v) (js "token")) = true) :
    ∃ claimed, v = .object claimed ∧ equalsText token (getField claimed (js "token")) = true := by
  cases v with
  | object claimed => exact ⟨claimed, rfl, h⟩
  | _ => cases h

/-! ## The operations, case by case -/

/-- A write of a claim file. -/
def Write.OfClaim : Write N → Prop
  | .task _ _ => False
  | .claim _ _ | .unclaim _ => True

/-- One record is written, as `written` says, or none. -/
def WritesOnce (writes : List (Write N)) (written : JsFields N → Prop) : Prop :=
  (∀ w ∈ writes, w.OfClaim) ∨
    ∃ before task after, writes = before ++ writeTask task :: after ∧ written task ∧
      (∀ w ∈ before, w.OfClaim) ∧ ∀ w ∈ after, w.OfClaim

omit [JsCounter N] in
theorem writesOnce_nil : WritesOnce [] written :=
  .inl fun _ h => absurd h not_mem_nil

omit [JsCounter N] in
/-- An operation that stops early has written the record or not. -/
theorem WritesOnce.take {writes : List (Write N)} (h : WritesOnce writes written) (k : Nat) :
    WritesOnce (writes.take k) written := by
  rcases h with hclaims | ⟨before, task, after, rfl, hwritten, hbefore, hafter⟩
  · exact .inl fun w hw => hclaims w (mem_of_mem_take hw)
  · rw [take_append]
    cases hk : k - before.length with
    | zero =>
      rw [take_zero, append_nil]
      exact .inl fun w hw => hbefore w (mem_of_mem_take hw)
    | succ j =>
      rw [take_of_length_le (by omega), take_succ_cons]
      exact .inr ⟨before, task, _, rfl, hwritten, hbefore,
        fun w hw => hafter w (mem_of_mem_take hw)⟩

/-- A task is created by one write, -/
theorem create_writes {subject description : JsString} {options : GjcTeamTaskMetadataInput}
    {createdAt updatedAt : Timestamp host} :
    WritesOnce (createUnlocked host store subject description options createdAt updatedAt).writes
      (Written store (.create subject description options createdAt updatedAt)) :=
  .inr ⟨[], _, [], rfl, .create, by simp, by simp⟩

/-- and updated by one. -/
theorem update_writes {id : JsString} {updates : TaskUpdates} {updatedAt : Timestamp host} :
    WritesOnce (updateUnlocked host store id updates updatedAt).writes
      (Written store (.update id updates updatedAt)) := by
  unfold updateUnlocked onTask withPath
  cases hread : store.read host id with
  | none => exact writesOnce_nil
  | some task =>
    dsimp only
    split_ifs with hid
    · exact .inr ⟨[], _, [], rfl, .update hread, by simp, by simp⟩
    · exact writesOnce_nil

omit [JsNumber N] [JsCounter N] in
/-- Claim files are no records. -/
theorem TeamStore.read_apply_claim [JsNumber N] (store : TeamStore N) (name : JsString)
    (claim : JsValue N) (id : JsString) :
    (store.apply (.claim name claim)).read host id = store.read host id := rfl

/-- A claim that does not come to its record. -/
def Refused (outcome : Outcome N) : Prop :=
  (∀ w ∈ outcome.writes, w.OfClaim) ∧
    ∀ record workerId token, outcome.answer ≠ .claimed record workerId token

/-- What a claim does that goes through. -/
def Succeeds (store : TeamStore N) (worker : GjcTeamTaskWorker) (input : ClaimInput host)
    (outcome : Outcome N) : Prop :=
  ∃ id task, Claims host store worker id task ∧
    outcome = ⟨[.claim id (claimValue host worker input),
        writeTask (claimedTask host task worker input)],
      .claimed (claimedTask host task worker input) worker.id input.token⟩

/-- A claim of a task that is there is refused or goes through. -/
theorem claimTask_cases (store : TeamStore N) (task : JsFields N) (worker : GjcTeamTaskWorker)
    (input : ClaimInput host) : Refused (claimTask host store task worker input) ∨
      Succeeds store worker input (claimTask host store task worker input) := by
  unfold claimTask withPath
  cases heligible : eligibility host task worker (store.list host) with
  | some reason => exact .inl ⟨by simp, by simp⟩
  | none =>
    dsimp only
    split_ifs with hlease hid hclaim
    · exact .inl ⟨by simp, by simp⟩
    · exact .inl ⟨by simp, by simp⟩
    · rw [TeamStore.read_apply_claim]
      cases hread : store.read host (textField task (js "id")) with
      | none => exact .inl ⟨by simp [Write.OfClaim], by simp⟩
      | some current =>
        have hlist : (store.apply (.claim (textField task (js "id"))
          (claimValue host worker input))).list host = store.list host := rfl
        dsimp only
        rw [hlist]
        cases hcurrent : eligibility host current worker (store.list host) with
        | some reason => exact .inl ⟨by simp [Write.OfClaim], by simp⟩
        | none =>
          cases input.writeError with
          | some message => exact .inl ⟨by simp [Write.OfClaim], by simp⟩
          | none => exact .inr ⟨_, current, ⟨hread, hid, hcurrent⟩, rfl⟩
    · exact .inl ⟨by simp, by simp⟩

/-- A claim is refused, or it was allowed and writes its file and the record. -/
theorem claim_cases (store : TeamStore N) (worker : GjcTeamTaskWorker) (id? : Option JsString)
    (input : ClaimInput host) : Refused (claimUnlocked host store worker id? input) ∨
      Succeeds store worker input (claimUnlocked host store worker id? input) := by
  unfold claimUnlocked
  cases id?.filter fun id => id ≠ [] with
  | some id =>
    dsimp only
    cases (store.list host).find? fun task => textField task (js "id") = id with
    | none => exact .inl ⟨by simp, by simp⟩
    | some task => exact claimTask_cases store task worker input
  | none =>
    dsimp only
    cases (store.list host).find? fun task =>
        (eligibility host task worker (store.list host)).isNone with
    | none => exact .inl ⟨by simp, by simp⟩
    | some task => exact claimTask_cases store task worker input

/-- A transition is refused, or it was allowed and is what is written. -/
theorem transition_cases (store : TeamStore N) (id : JsString) (status : GjcTeamTaskStatus)
    (token workerId : Option JsString) (evidenceInput : JsValue N) (now : Timestamp host) :
    (∃ message, transitionUnlocked host store id status token workerId evidenceInput now =
      ⟨[], .thrown message⟩) ∨ ∃ t task evidence, token = some t ∧
      Transitions store id status t evidenceInput now task evidence ∧
      transitionUnlocked host store id status token workerId evidenceInput now =
        ⟨writeTask (transitionedTask host task status evidence now) ::
          if status.terminal then [.unclaim id] else [],
          .task (transitionedTask host task status evidence now)⟩ := by
  unfold transitionUnlocked onTask
  cases hread : store.read host id with
  | none => exact .inl ⟨_, rfl⟩
  | some task =>
    dsimp only
    by_cases hpending : status = .pending
    · rw [if_pos hpending]
      exact .inl ⟨_, rfl⟩
    rw [if_neg hpending]
    by_cases hdone : equalsText (js "completed") (getField task (js "status")) = true ∨
        equalsText (js "failed") (getField task (js "status")) = true
    · rw [if_pos hdone]
      exact .inl ⟨_, rfl⟩
    rw [if_neg hdone]
    rw [not_or, Bool.not_eq_true, Bool.not_eq_true] at hdone
    cases hclaim : getField task (js "claim") with
    | object claimed =>
      cases htoken : token.filter fun token => token ≠ [] with
      | none => exact .inl ⟨_, rfl⟩
      | some t =>
        have ht : token = some t := (Option.filter_eq_some_iff.mp htoken).1
        dsimp only
        by_cases hmatch : equalsText t (getField claimed (js "token")) = true
        case neg =>
          rw [if_pos hmatch]
          exact .inl ⟨_, rfl⟩
        rw [if_neg (not_not_intro hmatch)]
        by_cases howner : (workerId.filter fun worker => worker ≠ []).any (fun worker =>
            !equalsText worker (getField claimed (js "owner"))) = true
        · rw [if_pos howner]
          exact .inl ⟨_, rfl⟩
        rw [if_neg howner]
        unfold withPath
        by_cases hid : isSafeText id = true
        case neg =>
          simp only [if_neg hid]
          split
          · split <;> exact .inl ⟨_, rfl⟩
          · exact .inl ⟨_, rfl⟩
        simp only [if_pos hid]
        have hclaimed := (⟨claimed, hclaim, hmatch⟩ : ∃ claimed, getField task (js "claim") =
          .object claimed ∧ equalsText t (getField claimed (js "token")) = true)
        by_cases hcompleted : status = .completed
        · rw [if_pos hcompleted]
          cases hnormal : normalizeGjcTeamTaskCompletionEvidence host id
              (textField (fieldsOf (.object claimed)) (js "owner")) evidenceInput now.1 with
          | error message => exact .inl ⟨_, rfl⟩
          | ok evidence =>
            refine .inr ⟨t, task, some evidence, ht,
              ⟨hread, hid, hpending, hdone.1, hdone.2, hclaimed, ?_⟩, rfl⟩
            rw [if_pos hcompleted, hclaim]
            exact ⟨evidence, rfl, hnormal⟩
        · rw [if_neg hcompleted]
          refine .inr ⟨t, task, none, ht,
            ⟨hread, hid, hpending, hdone.1, hdone.2, hclaimed, ?_⟩, rfl⟩
          rw [if_neg hcompleted]
    | _ => exact .inl ⟨_, rfl⟩

/-- A release is refused, or it was allowed and is what is written. -/
theorem release_cases (store : TeamStore N) (id token workerId : JsString)
    (updatedAt : Timestamp host) :
    (∃ message, releaseUnlocked host store id token workerId updatedAt = ⟨[], .thrown message⟩) ∨
    ∃ task, Releases host store id token task ∧
      releaseUnlocked host store id token workerId updatedAt =
        ⟨writeTask (releasedTask host task updatedAt) :: unclaimIfOwned store id token,
          .task (releasedTask host task updatedAt)⟩ := by
  unfold releaseUnlocked onTask withPath
  cases hread : store.read host id with
  | none => exact .inl ⟨_, rfl⟩
  | some task =>
    dsimp only
    split_ifs with hclaim hid
    · obtain ⟨claimed, hobject, hmatch⟩ := object_of_fieldsOf hclaim.1
      exact .inr ⟨task, ⟨hread, hid, claimed, hobject, hmatch⟩, rfl⟩
    · exact .inl ⟨_, rfl⟩
    · exact .inl ⟨_, rfl⟩

omit [JsNumber N] [JsCounter N] in
/-- Giving a claim back touches no record. -/
theorem mem_unclaimIfOwned {id : JsString} {w : Write N} (h : w ∈ unclaimIfOwned store id token) :
    w.OfClaim := by
  unfold unclaimIfOwned at h
  split at h
  · split_ifs at h
    · rw [mem_singleton.mp h]
      trivial
    · cases h
  · cases h

/-- **What an operation does**: it writes the record `Written` says, or none. -/
theorem outcome_cases (store : TeamStore N) (op : Operation N host) :
    WritesOnce (op.outcome store).writes (Written store op) := by
  cases op with
  | create => exact create_writes
  | update => exact update_writes
  | claim worker id? input =>
    rw [Operation.outcome]
    rcases claim_cases store worker id? input with hrefused | ⟨id, task, hclaims, h⟩
    · exact .inl hrefused.1
    · rw [h]
      exact .inr ⟨[_], _, [], rfl, .claim hclaims, by simp [Write.OfClaim], by simp⟩
  | transition id status token workerId evidenceInput now =>
    rw [Operation.outcome]
    rcases transition_cases store id status token workerId evidenceInput now with
      ⟨message, h⟩ | ⟨t, task, evidence, ht, hallowed, h⟩
    · rw [h]
      exact writesOnce_nil
    · rw [h]
      refine .inr ⟨[], _, _, rfl, .transition ht hallowed, by simp, fun w hw => ?_⟩
      split_ifs at hw
      · rw [mem_singleton.mp hw]
        trivial
      · cases hw
  | release id token workerId updatedAt =>
    rw [Operation.outcome]
    rcases release_cases store id token workerId updatedAt with
      ⟨message, h⟩ | ⟨task, hallowed, h⟩
    · rw [h]
      exact writesOnce_nil
    · rw [h]
      exact .inr ⟨[], _, _, rfl, .release hallowed, by simp, fun w hw => mem_unclaimIfOwned hw⟩

/-- Every record that an operation writes is `Written`. -/
theorem written_of_mem {op : Operation N host} {id : JsString} {value : JsValue N}
    (h : .task id value ∈ (op.outcome store).writes) :
    ∃ task, Written store op task ∧ writeTask task = .task id value := by
  rcases outcome_cases store op with hnone | ⟨before, task, after, heq, hwritten, hb, ha⟩
  · exact (hnone _ h).elim
  · rw [heq, mem_append, mem_cons] at h
    rcases h with h | h | h
    · exact (hb _ h).elim
    · exact ⟨task, hwritten, h.symm⟩
    · exact (ha _ h).elim

/-! ## The fields of what is written -/

section
omit [JsNumber N] [JsCounter N]

theorem lookup_of_mem {β : Type} {files : List (JsString × β)} (hnodup : (files.map Prod.fst).Nodup)
    {v : β} (h : (k, v) ∈ files) : files.lookup k = some v := by
  obtain ⟨before, after, hsplit⟩ := append_of_mem h
  refine lookup_eq_some_iff.mpr ⟨before, after, hsplit, fun f hf => ?_⟩
  rw [hsplit, map_append, nodup_append] at hnodup
  exact bne_iff_ne.mpr fun heq =>
    hnodup.2.2 f.1 (mem_map_of_mem hf) k (by simp) heq.symm

theorem getField_spreadFields_of_not_mem {record us : JsFields N} (h : k ∉ us.map Prod.fst) :
    getField (spreadFields record us) k = getField record k := by
  unfold spreadFields
  induction us generalizing record with
  | nil => rfl
  | cons u us ih =>
    rw [map_cons, mem_cons, not_or] at h
    rw [foldl_cons, ih h.2, getField_setField, if_neg h.1]

end

/-- The keys `normalizeGjcTeamTask` sets. -/
def normalizedKeys : List JsString :=
  [js "status", js "subject", js "description", js "title", js "objective", js "version",
    js "lane", js "required_role", js "allowed_roles"]

section
omit [JsCounter N]

/-- Normalizing leaves the other fields. -/
theorem getField_normalize (h : k ∉ normalizedKeys) :
    getField (normalizeGjcTeamTask fields) k = getField fields k := by
  unfold normalizeGjcTeamTask
  rw [getField_spreadFields _ _ _ (by simp only [map_cons, map_nil]; decide),
    lookup_eq_none_of_forall]
  · rfl
  · intro f hf heq
    refine h (heq ▸ ?_)
    have hmem := mem_map_of_mem (f := Prod.fst) hf
    simp only [map_cons, map_nil] at hmem
    exact hmem

/-- Normalizing fills in a title that is missing, -/
theorem title_normalize : getField (normalizeGjcTeamTask fields) (js "title") =
      coalesce (getField fields (js "title")) (getField fields (js "subject")) := by
  unfold normalizeGjcTeamTask
  rw [getField_spreadFields _ _ _ (by simp only [map_cons, map_nil]; decide)]
  rfl

/-- an objective, -/
theorem objective_normalize : getField (normalizeGjcTeamTask fields) (js "objective") =
      coalesce (getField fields (js "objective")) (getField fields (js "description")) := by
  unfold normalizeGjcTeamTask
  rw [getField_spreadFields _ _ _ (by simp only [map_cons, map_nil]; decide)]
  rfl

/-- and corrects the status `complete`. -/
theorem status_normalize : getField (normalizeGjcTeamTask fields) (js "status") =
      if equalsText (js "complete") (getField fields (js "status")) then .string (js "completed")
      else getField fields (js "status") := by
  unfold normalizeGjcTeamTask
  rw [getField_spreadFields _ _ _ (by simp only [map_cons, map_nil]; decide)]
  rfl

end

section Update
variable {task : JsFields N} {updates : TaskUpdates} {updatedAt : Timestamp host}
variable {ids : Option (List JsString)} {f : JsString × JsValue N} {k : JsString}

section
omit [JsNumber N] [JsCounter N]

theorem mem_given {α : Type} {key : JsString} {toValue : Option α → JsValue N}
    {set : Option (Option α)} :
    f ∈ given key toValue set ↔ ∃ value ∈ set, f = (key, toValue value) := by
  cases set <;> simp [given]

theorem keys_given_sublist {α : Type} (key : JsString) (toValue : Option α → JsValue N)
    (set : Option (Option α)) : ((given key toValue set).map Prod.fst).Sublist [key] := by
  cases set with
  | none => exact nil_sublist _
  | some value => exact Sublist.refl _

end

/-- The keys that an update may set, -/
def updateKeys : List JsString :=
  [js "subject", js "description", js "blocked_by", js "depends_on", js "lane",
    js "required_role", js "allowed_roles"]

section
omit [JsNumber N] [JsCounter N]

/-- An update sets some of its keys, each once. -/
theorem keys_updates_sublist (updates : TaskUpdates) :
    ((updates.toFields (N := N)).map Prod.fst).Sublist updateKeys := by
  unfold TaskUpdates.toFields
  simp only [map_append]
  exact ((((((keys_given_sublist _ _ _).append (keys_given_sublist _ _ _)).append
    (keys_given_sublist _ _ _)).append (keys_given_sublist _ _ _)).append
    (keys_given_sublist _ _ _)).append (keys_given_sublist _ _ _)).append
    (keys_given_sublist _ _ _)

theorem nodup_updates (updates : TaskUpdates) : ((updates.toFields (N := N)).map Prod.fst).Nodup :=
  (show updateKeys.Nodup by decide).sublist (keys_updates_sublist updates)

end

/-- The keys whose values are texts. -/
def updateTextKeys : List JsString :=
  [js "subject", js "description", js "lane", js "required_role"]

section
omit [JsNumber N] [JsCounter N]

/-- The fields that an update sets. -/
theorem mem_updates (h : f ∈ updates.toFields) :
    (∃ text, f.1 ∈ updateTextKeys ∧ f.2 = ofOption text) ∨
      (∃ roles, f = (js "allowed_roles", stringArray roles)) ∨
      (∃ ids ∈ updates.dependsOn, f = (js "depends_on", stringArray ids)) ∨
      ∃ ids ∈ updates.blockedBy, f = (js "blocked_by", stringArray ids) := by
  unfold TaskUpdates.toFields at h
  simp only [mem_append, mem_given, or_assoc] at h
  rcases h with ⟨v, -, rfl⟩ | ⟨v, -, rfl⟩ | ⟨v, hv, rfl⟩ | ⟨v, hv, rfl⟩ | ⟨v, -, rfl⟩ |
    ⟨v, -, rfl⟩ | ⟨v, -, rfl⟩
  · exact .inl ⟨v, show js "subject" ∈ updateTextKeys by decide, rfl⟩
  · exact .inl ⟨v, show js "description" ∈ updateTextKeys by decide, rfl⟩
  · exact .inr (.inr (.inr ⟨v, hv, rfl⟩))
  · exact .inr (.inr (.inl ⟨v, hv, rfl⟩))
  · exact .inl ⟨v, show js "lane" ∈ updateTextKeys by decide, rfl⟩
  · exact .inl ⟨v, show js "required_role" ∈ updateTextKeys by decide, rfl⟩
  · exact .inr (.inl ⟨v, rfl⟩)

theorem lookup_updates {v : JsValue N} (h : (k, v) ∈ updates.toFields) :
    (updates.toFields).lookup k = some v := lookup_of_mem (nodup_updates updates) h

end

/-- The record of an update before it is normalized. -/
def assembledTask (task : JsFields N) (updates : TaskUpdates) (updatedAt : Timestamp host) :
    JsFields N :=
  spreadFields (spreadFields task updates.toFields)
    [(js "title", coalesce (ofOption (updates.subject.getD none)) (getField task (js "title"))),
      (js "objective", coalesce (ofOption (updates.description.getD none))
        (getField task (js "objective"))),
      (js "version", nextVersion task), (js "updated_at", .string updatedAt.1)]

/-- An update assembles a record and normalizes it. -/
theorem updatedTask_eq : updatedTask host task updates updatedAt =
      normalizeGjcTeamTask (assembledTask task updates updatedAt) := rfl

/-- What is read of it: what has been set, else what was there. -/
theorem getField_assembled (k : JsString) : getField (assembledTask task updates updatedAt) k =
      (([(js "title", coalesce (ofOption (updates.subject.getD none)) (getField task (js "title"))),
        (js "objective", coalesce (ofOption (updates.description.getD none))
          (getField task (js "objective"))),
        (js "version", nextVersion task), (js "updated_at", .string updatedAt.1)] :
        JsFields N).lookup k).getD ((updates.toFields.lookup k).getD (getField task k)) := by
  unfold assembledTask
  rw [getField_spreadFields _ _ _ (by simp only [map_cons, map_nil]; decide),
    getField_spreadFields _ _ _ (nodup_updates updates)]

theorem getField_assembled_of_not_mem
    (h : k ∉ updateKeys ++ [js "title", js "objective", js "version", js "updated_at"]) :
    getField (assembledTask task updates updatedAt) k = getField task k := by
  rw [mem_append, not_or] at h
  rw [getField_assembled, lookup_eq_none_of_forall, lookup_eq_none_of_forall]
  · rfl
  · intro f hf heq
    exact h.1 (heq ▸ (keys_updates_sublist updates).subset (mem_map_of_mem hf))
  · intro f hf heq
    refine h.2 (heq ▸ ?_)
    have hmem := mem_map_of_mem (f := Prod.fst) hf
    simp only [map_cons, map_nil] at hmem
    exact hmem

section
omit [JsNumber N] [JsCounter N]

theorem mem_updates_dependsOn (h : ids ∈ updates.dependsOn) :
    (js "depends_on", stringArray ids) ∈ (updates.toFields : JsFields N) := by
  unfold TaskUpdates.toFields
  simp only [mem_append, mem_given]
  exact .inl (.inl (.inl (.inr ⟨ids, h, rfl⟩)))

theorem mem_updates_blockedBy (h : ids ∈ updates.blockedBy) :
    (js "blocked_by", stringArray ids) ∈ (updates.toFields : JsFields N) := by
  unfold TaskUpdates.toFields
  simp only [mem_append, mem_given]
  exact .inl (.inl (.inl (.inl (.inr ⟨ids, h, rfl⟩))))

end

end Update

section Transition
variable {task : JsFields N} {status : GjcTeamTaskStatus} {evidence : Option CompletionEvidence}
  {now : Timestamp host}
variable {k : JsString}

/-- and those of a transition, -/
def transitionKeys : List JsString :=
  [js "status", js "claim", js "version", js "updated_at", js "completed_at",
    js "completion_evidence"]

/-- A transition sets some of its keys, each once. -/
theorem keys_transition_sublist (task : JsFields N) (status : GjcTeamTaskStatus)
    (evidence : Option CompletionEvidence) (now : Timestamp host) :
    ((transitionFields host task status evidence now).map Prod.fst).Sublist transitionKeys := by
  unfold transitionFields
  rw [map_append, map_append]
  refine ((Sublist.refl [js "status", js "claim", js "version", js "updated_at"]).append
    (?_ : Sublist _ [js "completed_at"])).append
    (?_ : Sublist _ [js "completion_evidence"])
  · split_ifs
    · exact Sublist.refl _
    · exact nil_sublist _
  · cases evidence with
    | none => exact nil_sublist _
    | some e => exact Sublist.refl _

theorem nodup_transition (task : JsFields N) (status : GjcTeamTaskStatus)
    (evidence : Option CompletionEvidence) (now : Timestamp host) :
    ((transitionFields host task status evidence now).map Prod.fst).Nodup :=
  (show transitionKeys.Nodup by decide).sublist (keys_transition_sublist ..)

/-- A field after a transition: set by it, or as it was. -/
theorem getField_transitioned (k : JsString) :
    getField (transitionedTask host task status evidence now) k =
      ((transitionFields host task status evidence now).lookup k).getD (getField task k) :=
  getField_spreadFields _ _ _ (nodup_transition ..)

/-- What a transition sets is read back, -/
theorem getField_transitioned_of_mem {v : JsValue N}
    (h : (k, v) ∈ transitionFields host task status evidence now) :
    getField (transitionedTask host task status evidence now) k = v := by
  rw [getField_transitioned, lookup_of_mem (nodup_transition ..) h, Option.getD_some]

/-- and the rest is as it was. -/
theorem getField_transitioned_of_not_mem (h : k ∉ transitionKeys) :
    getField (transitionedTask host task status evidence now) k = getField task k := by
  rw [getField_transitioned, lookup_eq_none_of_forall]
  · rfl
  · intro f hf heq
    exact h (heq ▸ (keys_transition_sublist ..).subset (mem_map_of_mem hf))

theorem status_transitioned :
    getField (transitionedTask host task status evidence now) (js "status") =
      .string status.name := getField_transitioned_of_mem (by simp [transitionFields])

theorem claim_transitioned :
    getField (transitionedTask host task status evidence now) (js "claim") =
      if status.terminal then .undefined else getField task (js "claim") :=
  getField_transitioned_of_mem (by simp [transitionFields])

theorem evidence_transitioned (e : CompletionEvidence) :
    getField (transitionedTask host task status (some e) now) (js "completion_evidence") =
      e.toValue := getField_transitioned_of_mem (by simp [transitionFields])

end Transition

/-- of a claim -/
def claimKeys : List JsString :=
  [js "status", js "assignee", js "owner", js "claim", js "version", js "updated_at"]

/-- What a claim does not set stays. -/
theorem getField_claimed_of_not_mem {task : JsFields N} {worker : GjcTeamTaskWorker}
    {input : ClaimInput host} (h : k ∉ claimKeys) :
    getField (claimedTask host task worker input) k = getField task k :=
  getField_spreadFields_of_not_mem h

theorem getField_claimed (task : JsFields N) (worker : GjcTeamTaskWorker) (input : ClaimInput host)
    (k : JsString) :
    getField (claimedTask host task worker input) k =
      (([(js "status", .string (js "in_progress")), (js "assignee", .string worker.id),
        (js "owner", .string worker.id), (js "claim", claimValue host worker input),
        (js "version", nextVersion task), (js "updated_at", .string input.updatedAt.1)] :
        JsFields N).lookup k).getD (getField task k) :=
  getField_spreadFields _ _ _ (show claimKeys.Nodup by decide)

/-- and of a release. -/
def releaseKeys : List JsString :=
  [js "status", js "assignee", js "claim", js "version", js "updated_at"]

/-- So with a release. -/
theorem getField_released_of_not_mem {task : JsFields N} {updatedAt : Timestamp host}
    (h : k ∉ releaseKeys) : getField (releasedTask host task updatedAt) k = getField task k :=
  getField_spreadFields_of_not_mem h

theorem getField_released (task : JsFields N) (updatedAt : Timestamp host) (k : JsString) :
    getField (releasedTask host task updatedAt) k =
      (([(js "status", .string (js "pending")), (js "assignee", .undefined),
        (js "claim", .undefined), (js "version", nextVersion task),
        (js "updated_at", .string updatedAt.1)] : JsFields N).lookup k).getD (getField task k) :=
  getField_spreadFields _ _ _ (show releaseKeys.Nodup by decide)

end TeamTasks
end GajaeCode
