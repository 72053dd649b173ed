import GajaeCode.ConversationOwner

/-! # The lock file is exclusive

Every step keeps the invariant of the owners, but for one: between the second check of a
reclaimer and the removal are two calls, and what is removed need not be what was checked.
A missing file counts as stale, so a reclaimer may remove a lock it has never seen.
-/
namespace GajaeCode
open JsString

namespace ConversationStore
variable {action : Action (Fin 3) Nat Nat}

section
variable {P T N : Type} [DecidableEq N]

namespace State
variable {processes : Processes P} {records : Records T N} {first : StoredDocument T}
variable {s s' : State P T N} {p q : P} {op : Operation T N}
variable {env : Surroundings} {t : State P T N} {seen : Option LockFile} {outcome : Outcome}
    {handle : Nat}
variable {lock : ConversationStoreLock} {phase phase' : Phase T} {op' : Operation T N}
    {file : LockFile} {next : Document T} {why : Purpose}

/-- In `t` only files have changed, as a step of `p` may change them. -/
structure Moves (s t : State P T N) (p : P) : Prop where
  callers : t.callers = s.callers
  stored : t.stored = s.stored
  committed : t.committed = s.committed
  ended : t.ended = s.ended
  lock : LockMoves s p (t.files .lock) t.nextId

section
omit [DecidableEq N]

theorem Moves.refl (s : State P T N) (p : P) : Moves s s p :=
  ⟨rfl, rfl, rfl, rfl, .kept rfl le_rfl⟩

theorem Moves.successes (h : Moves s t p) : t.successes = s.successes := by
  unfold State.successes
  rw [h.ended]

theorem Moves.rest (h : Moves s t p) : RestMoves s t p :=
  .inl ⟨h.stored, h.committed, h.successes⟩

end

theorem Moves.lost (h : Moves s t p) (hlost : NothingLost records first s) :
    NothingLost records first t := by
  obtain ⟨hreplays, hsuccesses⟩ := hlost
  refine ⟨?_, ?_⟩
  · rw [h.committed, h.stored]
    exact hreplays
  · rw [h.committed, h.successes]
    exact hsuccesses

variable [DecidableEq P]

section
omit [DecidableEq N]

theorem callers_setCall_of_ne (s : State P T N) (call : Option (Operation T N × Phase T))
    (hne : q ≠ p) : (s.setCall p call).callers q = s.callers q :=
  Function.update_of_ne hne _ _

theorem at_goOn : (s.goOn p op phase).At p op' phase' ↔
      (s.callers p).alive = true ∧ op = op' ∧ phase = phase' := by
  simp [At, goOn, setCall]

theorem not_at_finish : ¬ (s.finish p op outcome).At p op' phase' := by
  simp [At, finish, setCall]

end

theorem Inv.goOn (h : s.Inv processes records first) (ht : Moves s t p)
    (hsound : (t.goOn p op phase).Sound processes records p op phase)
    (hhandle : ∀ id, phase.handle = some id → s.Owns p id ∨ id = s.nextId) :
    (t.goOn p op phase).Inv processes records first := by
  refine h.of_step ?_ ht.lock ht.rest (ht.lost h.lost) ?_ ?_
  · intro q hne
    rw [← ht.callers]
    exact callers_setCall_of_ne t _ hne
  · rintro id ⟨op', phase', hat, hid⟩
    obtain ⟨-, -, rfl⟩ := at_goOn.mp hat
    exact hhandle id hid
  · intro op' phase' hat
    obtain ⟨-, rfl, rfl⟩ := at_goOn.mp hat
    exact hsound

section
omit [DecidableEq N]

theorem successes_finish (hne : outcome ≠ .stored) :
    (s.finish p op outcome).successes = s.successes := by
  simp [State.successes, finish, setCall, hne]

theorem successes_finish_stored : (s.finish p op .stored).successes = s.successes ++ [(p, op)] := by
  simp [State.successes, finish, setCall]

end

section
variable (h : s.Inv processes records first)
include h

theorem Inv.finish (ht : Moves s t p) (hne : outcome ≠ .stored) :
    (t.finish p op outcome).Inv processes records first := by
  have hsuccesses : (t.finish p op outcome).successes = s.successes :=
    (successes_finish hne).trans ht.successes
  refine h.of_step ?_ ht.lock (.inl ⟨ht.stored, ht.committed, hsuccesses⟩) ⟨?_, ?_⟩ ?_ ?_
  · intro q hne
    rw [← ht.callers]
    exact callers_setCall_of_ne t _ hne
  · exact (ht.lost h.lost).1
  · rw [hsuccesses, ← ht.successes]
    exact (ht.lost h.lost).2
  · rintro id ⟨op', phase', hat, -⟩
    exact absurd hat not_at_finish
  · intro op' phase' hat
    exact absurd hat not_at_finish

theorem Inv.retry (ht : Moves s t p) (env : Surroundings) :
    (t.retry p op env).Inv processes records first := by
  unfold State.retry
  split_ifs
  · exact h.finish ht (by decide)
  · exact h.goOn ht trivial (fun _ hid => nomatch hid)

theorem Inv.creationFails (ht : Moves s t p) (env : Surroundings) (why : Purpose) :
    (t.creationFails p op env why).Inv processes records first := by
  cases why with
  | acquire | reclaimAgain => exact h.finish ht (by decide)
  | reclaim => exact h.retry ht env

theorem Inv.create (env : Surroundings) (why : Purpose) :
    (s.create p op env why).Inv processes records first := by
  unfold State.create
  split_ifs
  · exact h.creationFails (.refl s p) env why
  cases hfile : s.files why.path with
  | some file =>
    cases why with
    | acquire | reclaim => exact h.goOn (.refl s p) trivial (fun _ hid => nomatch hid)
    | reclaimAgain => exact h.retry (.refl s p) env
  | none =>
    cases why with
    | acquire =>
      have hmoves : Moves s (s.createFile env .lock) p :=
        ⟨rfl, rfl, rfl, rfl, .created env.now hfile rfl rfl⟩
      refine h.goOn hmoves ⟨_, rfl, rfl, rfl⟩ fun id hid => .inr ?_
      exact (some.inj hid).symm
    | reclaim | reclaimAgain =>
      have hmoves : Moves s (s.createFile env .reclaim) p :=
        ⟨rfl, rfl, rfl, rfl, .kept rfl (Nat.le_succ _)⟩
      exact h.goOn hmoves trivial (fun _ hid => nomatch hid)

end

section
omit [DecidableEq N] [DecidableEq P]

theorem moves_writeFile_reclaim (s : State P T N) (p : P) (env : Surroundings) (handle : Nat)
    (lock : ConversationStoreLock) : Moves s (s.writeFile env .reclaim handle lock) p := by
  unfold writeFile
  cases s.files .reclaim with
  | none => exact .refl s p
  | some file =>
    by_cases hid : file.id = handle
    · simp only [hid, if_true]
      exact ⟨rfl, rfl, rfl, rfl, .kept rfl le_rfl⟩
    · simp only [hid, if_false]
      exact .refl s p

theorem moves_unlink_reclaim (s : State P T N) (p : P) (env : Surroundings) :
    Moves s (s.unlink env .reclaim) p := by
  unfold unlink
  split_ifs
  · exact .refl s p
  · exact ⟨rfl, rfl, rfl, rfl, .kept rfl le_rfl⟩

/-- The lock file may be removed by its owner, and where it has none. -/
theorem moves_unlink_lock
    (hfree : env.fails = false → ∀ file q, s.files .lock = some file → s.Owns q file.id → q = p) :
    Moves s (s.unlink env .lock) p := by
  unfold unlink
  split_ifs with hfails
  · exact .refl s p
  · exact ⟨rfl, rfl, rfl, rfl, .removed rfl rfl (hfree (eq_false_of_ne_true hfails))⟩

end

theorem Inv.publish (h : s.Inv processes records first) (henv : Truthful processes s env)
    (hat : s.At p op (.publishing why handle)) :
    (s.publish p op env processes why handle).Inv processes records first := by
  have hsound := h.sound p op _ hat
  unfold State.publish
  cases why with
  | reclaim | reclaimAgain =>
    have hmoves := moves_writeFile_reclaim s p env handle
      ⟨processes.pid p, (env.pidIncarnation (processes.pid p)).getD (js "unavailable"), env.now⟩
    simp only [Purpose.path]
    split_ifs <;> exact h.goOn hmoves trivial (fun _ hid => nomatch hid)
  | acquire =>
    obtain ⟨file, hfile, rfl, hnone⟩ := hsound
    have howns : s.Owns p file.id := ⟨op, _, hat, rfl⟩
    simp only [Purpose.path]
    generalize hlock : (ConversationStoreLock.mk (processes.pid p)
      ((env.pidIncarnation (processes.pid p)).getD (js "unavailable")) env.now) = lock
    have hwrote : Wrote processes p lock := by
      subst hlock
      refine ⟨rfl, ?_⟩
      rcases henv.incarnation p hat.1 with hinc | hinc <;> simp [hinc]
    generalize hnow : (if env.completes then some lock else none) = written
    have hwritten : s.writeFile env .lock file.id lock =
        s.setFile .lock (some ⟨file.id, written, env.now⟩) := by
      simp only [writeFile, hfile, if_true, hnone, hnow]
    have hmoves : Moves s (s.setFile .lock (some ⟨file.id, written, env.now⟩)) p :=
      ⟨rfl, rfl, rfl, rfl, .written file _ _ hfile howns hnone rfl rfl⟩
    have hhandle : ∀ id, some file.id = some id → s.Owns p id ∨ id = s.nextId :=
      fun id hid => .inl (some.inj hid ▸ howns)
    rw [hwritten]
    split_ifs at hnow ⊢ with hfails hcompletes hcompletes
    · refine h.goOn hmoves ⟨_, rfl, rfl, fun l hl => ?_⟩ hhandle
      exact some.inj (hnow.trans hl) ▸ hwrote
    · exact h.goOn hmoves ⟨_, rfl, rfl, fun l hl => nomatch hnow.trans hl⟩ hhandle
    · exact h.goOn hmoves ⟨_, rfl, rfl, lock, hnow.symm, hwrote⟩ hhandle
    · exact h.goOn hmoves ⟨_, rfl, rfl, hnow.symm⟩ hhandle

theorem Inv.withdraw (h : s.Inv processes records first) (env : Surroundings)
    (hat : s.At p op (.withdrawing why handle)) :
    (s.withdraw p op env why).Inv processes records first := by
  cases why with
  | reclaim | reclaimAgain => exact h.creationFails (moves_unlink_reclaim s p env) env _
  | acquire =>
    refine h.creationFails (moves_unlink_lock fun _ file q _ hq => ?_) env _
    exact h.owner_eq hq ⟨op, _, hat, rfl⟩

section
omit [DecidableEq N] [DecidableEq P]

theorem known_of_file (hfresh : ∀ file, s.files .lock = some file → file.id < s.nextId)
    (hfile : s.files .lock = some file) : s.Known file :=
  ⟨hfresh file hfile, fun file' hfile' _ _ => by rw [some.inj (hfile'.symm.trans hfile)]⟩

theorem staleOwner_of_wrote (henv : Truthful processes s env) (halive : (s.callers q).alive = true)
    (hwrote : Wrote processes q lock) : staleOwner env lock = false := by
  obtain ⟨hpid, hincarnation⟩ := hwrote
  have hcanonical := processes.canonical q
  unfold staleOwner
  rw [hpid, henv.alive q halive]
  rcases hincarnation with hunavailable | hown
  · simp [hunavailable]
  · rcases henv.incarnation q halive with hnone | hsome
    · simp [hnone, hown, hcanonical]
    · simp [hsome, hown, hcanonical]

theorem isConversationStoreLock_of_wrote (hwrote : Wrote processes q lock) :
    isConversationStoreLock lock = true := by
  rw [isConversationStoreLock, hwrote.1, Bool.and_eq_true, decide_eq_true_eq, decide_eq_true_eq]
  exact processes.safe q

theorem Owns.alive {id : Nat} (h : s.Owns q id) : (s.callers q).alive = true := by
  obtain ⟨op, phase, hat, -⟩ := h
  exact hat.1

end

/-- What follows a check is sound where a stale lock file that was read is abandoned. -/
theorem Inv.judge (h : s.Inv processes records first) (env : Surroundings) (check : Check)
    {stale : Bool}
    (hseen : check = .second → stale = true → ∀ old ∈ seen, s.Known old ∧ s.Abandoned old) :
    (s.judge p op env check seen stale).Inv processes records first := by
  cases check <;> cases stale
  case first.true | ofReclaim.true | second.false =>
    exact h.goOn (.refl s p) trivial (fun _ hid => nomatch hid)
  case first.false | ofReclaim.false => exact h.retry (.refl s p) env
  case second.true =>
    cases seen with
    | none => exact h.goOn (.refl s p) trivial (fun _ hid => nomatch hid)
    | some old =>
      obtain ⟨hknown, habandoned⟩ := hseen rfl rfl old rfl
      refine h.goOn (.refl s p) ⟨hknown, ?_⟩ (fun _ hid => nomatch hid)
      intro file r hfile hid hlock ⟨op', phase', hat, hhandle⟩
      by_cases hr : r = p
      · subst hr
        obtain ⟨-, -, rfl⟩ := at_goOn.mp hat
        cases hhandle
      · rw [At, State.goOn, callers_setCall_of_ne s _ hr] at hat
        exact habandoned file r hfile hid hlock ⟨op', phase', hat, hhandle⟩

/-- **A lock that is judged stale is nobody's.** -/
theorem Inv.check (h : s.Inv processes records first) (henv : Truthful processes s env)
    (check : Check) : (s.check p op env check).Inv processes records first := by
  have hstat : ∀ file, s.files check.path = some file →
      (∀ l ∈ file.lock, isConversationStoreLock l = false) →
      (s.goOn p op (.statting check (some file))).Inv processes records first := by
    intro file hfile hlock
    refine h.goOn (.refl s p) ?_ (fun _ hid => nomatch hid)
    cases check with
    | first | ofReclaim => trivial
    | second => exact ⟨known_of_file h.fresh hfile, hlock⟩
  unfold State.check
  split_ifs
  · refine h.goOn (.refl s p) ?_ (fun _ hid => nomatch hid)
    cases check <;> trivial
  cases hfile : s.files check.path with
  | none => exact h.judge env check fun _ _ old hold => nomatch hold
  | some file =>
    dsimp only
    cases hlock : file.lock with
    | none => exact hstat file hfile fun l hl => nomatch hlock.symm.trans hl
    | some lock =>
      by_cases hvalid : isConversationStoreLock lock = true
      · simp only [hvalid, if_true]
        refine h.judge env check fun hcheck hstale old hold => ?_
        subst hcheck
        obtain rfl := some.inj hold
        refine ⟨known_of_file h.fresh hfile, fun file' r hfile' _ _ hr => ?_⟩
        obtain rfl : file = file' := some.inj (hfile.symm.trans hfile')
        rcases h.owner_of_file hfile hr with ⟨hnone, -⟩ | ⟨l, hl, hwrote⟩
        · cases hnone.symm.trans hlock
        · obtain rfl : lock = l := some.inj (hlock.symm.trans hl)
          rw [staleOwner_of_wrote henv hr.alive hwrote] at hstale
          cases hstale
      · simp only [hvalid]
        refine hstat file hfile fun l hl => ?_
        obtain rfl := some.inj (hlock.symm.trans hl)
        exact eq_false_of_ne_true hvalid

omit [DecidableEq N] [DecidableEq P] in
theorem isExpired_of_publishing (henv : Truthful processes s env)
    (hfile : s.files .lock = some file)
    (hat : s.At q op (.publishing .acquire file.id) ∨ s.At q op (.withdrawing .acquire file.id)) :
    isExpired env (s.files .lock) = false := by
  have hwrites := henv.writes q op file.id file hat hfile rfl
  simp [isExpired, hfile, hwrites]

section
variable (h : s.Inv processes records first)
include h

/-- **A lock file that has expired unpublished is nobody's.** -/
theorem Inv.stat (henv : Truthful processes s env) {check : Check}
    (hat : s.At p op (.statting check seen)) :
    (s.stat p op env check seen).Inv processes records first := by
  refine h.judge env check fun hcheck hstale old hold => ?_
  subst hcheck
  obtain rfl : seen = some old := hold
  obtain ⟨hknown, hinvalid⟩ := h.sound p op _ hat
  refine ⟨hknown, fun file r hfile hid hsame hr => ?_⟩
  rcases h.owner_of_file hfile hr with ⟨-, op', hat'⟩ | ⟨l, hl, hwrote⟩
  · rw [Check.path, isExpired_of_publishing henv hfile hat'] at hstale
    cases hstale
  · have hfalse := hinvalid l (hsame.symm.trans hl)
    rw [isConversationStoreLock_of_wrote hwrote] at hfalse
    cases hfalse

theorem Inv.unlinkLock (hat : s.At p op (.unlinking seen))
    (hremoves : RemovesWhatItChecked s (.go p env)) :
    ((s.unlink env .lock).goOn p op (.leaving true)).Inv processes records first := by
  refine h.goOn (moves_unlink_lock fun hfails file r hfile hr => ?_) trivial
    (fun _ hid => nomatch hid)
  obtain ⟨old, rfl, hid, hlock⟩ := hremoves op seen file r hat hfails hfile hr
  obtain ⟨-, habandoned⟩ := h.sound p op _ hat
  exact absurd hr (habandoned file r hfile hid.symm hlock.symm)

theorem Inv.leave (env : Surroundings) (reclaimed : Bool) :
    (s.leave p op env reclaimed).Inv processes records first := by
  cases reclaimed with
  | true => exact h.goOn (moves_unlink_reclaim s p env) trivial (fun _ hid => nomatch hid)
  | false => exact h.retry (moves_unlink_reclaim s p env) env

theorem Inv.readDocument (env : Surroundings) (hat : s.At p op (.reading handle)) :
    (s.readDocument p op env records handle).Inv processes records first := by
  have hpublished : s.Published processes p handle := h.sound p op _ hat
  have hhandle : ∀ id, some handle = some id → s.Owns p id ∨ id = s.nextId :=
    fun id hid => .inl ⟨op, _, hat, hid⟩
  have hreleases : ∀ outcome, outcome ≠ .stored →
      (s.goOn p op (.releasing handle outcome)).Inv processes records first :=
    fun outcome hne => h.goOn (.refl s p) ⟨hpublished, fun heq => absurd heq hne⟩ hhandle
  unfold State.readDocument
  split_ifs
  · exact hreleases .threw (by decide)
  cases hread : s.stored.read with
  | none => exact hreleases .threw (by decide)
  | some document =>
    dsimp only
    cases hperform : op.perform records document with
    | error _ => exact hreleases .threw (by decide)
    | ok next =>
      cases next with
      | none => exact hreleases .unchanged (by decide)
      | some next =>
        exact h.goOn (.refl s p) ⟨hpublished, document, hread, hperform⟩ hhandle

end

omit [DecidableEq P] in
theorem lost_rename (hlost : NothingLost records first s) {document : Document T}
    (hread : s.stored.read = some document)
    (hperform : op.perform records document = .ok (some next)) :
    NothingLost records first (s.rename p op next) := by
  refine ⟨?_, hlost.2.trans (List.sublist_append_left _ _)⟩
  rw [State.rename, List.map_append]
  exact .store hlost.1 hread hperform

/-- The owner of the lock renames what it made of the document that is still there. -/
theorem Inv.persist (h : s.Inv processes records first) (env : Surroundings)
    (hat : s.At p op (.persisting handle next)) :
    (s.persist p op env handle next).Inv processes records first := by
  obtain ⟨hpublished, document, hread, hperform⟩ := h.sound p op _ hat
  have howns : s.Owns p handle := ⟨op, _, hat, rfl⟩
  have hhandle : ∀ id, some handle = some id → s.Owns p id ∨ id = s.nextId :=
    fun id hid => .inl (some.inj hid ▸ howns)
  have hrenames : ∀ outcome, ((s.rename p op next).goOn p op
      (.releasing handle outcome)).Inv processes records first := by
    intro outcome
    refine h.of_step (fun q hne => callers_setCall_of_ne _ _ hne) (.kept rfl le_rfl)
      (.inr ⟨handle, howns⟩) (lost_rename h.lost hread hperform) ?_ ?_
    · rintro id ⟨op', phase', hat', hid⟩
      obtain ⟨-, -, rfl⟩ := at_goOn.mp hat'
      exact hhandle id hid
    · intro op' phase' hat'
      obtain ⟨-, rfl, rfl⟩ := at_goOn.mp hat'
      exact ⟨hpublished, fun _ => h.lost.2.append (List.Sublist.refl _)⟩
  unfold State.persist
  dsimp only
  split_ifs
  · exact hrenames .threw
  · exact h.goOn (.refl s p) ⟨hpublished, fun heq => nomatch heq⟩ hhandle
  · exact hrenames .stored
  · exact h.goOn (.refl s p) ⟨hpublished, document, hread, hperform⟩ hhandle

theorem Inv.release (h : s.Inv processes records first) (env : Surroundings) {handle : Nat}
    {outcome : Outcome} (hat : s.At p op (.releasing handle outcome)) :
    (s.release p op env outcome).Inv processes records first := by
  obtain ⟨-, hstored⟩ := h.sound p op _ hat
  have howns : s.Owns p handle := ⟨op, _, hat, rfl⟩
  unfold State.release
  split_ifs
  · exact h.finish (.refl s p) (by decide)
  have hmoves : Moves s (s.setFile .lock none) p :=
    ⟨rfl, rfl, rfl, rfl, .removed rfl rfl fun file r _ hr => h.owner_eq hr howns⟩
  by_cases hne : outcome = .stored
  · subst hne
    have hsuccesses : ((s.setFile .lock none).finish p op .stored).successes =
        s.successes ++ [(p, op)] := successes_finish_stored
    refine h.of_step (fun q hne => callers_setCall_of_ne _ _ hne) hmoves.lock
      (.inr ⟨handle, howns⟩) ⟨h.lost.1, ?_⟩ ?_ ?_
    · rw [hsuccesses]
      exact hstored rfl
    · rintro id ⟨op', phase', hat', -⟩
      exact absurd hat' not_at_finish
    · intro op' phase' hat'
      exact absurd hat' not_at_finish
  · exact h.finish hmoves hne

/-- **Every step of a process that is in a call keeps the invariant**, one case a phase. -/
theorem Inv.goFrom (h : s.Inv processes records first) (henv : Truthful processes s env)
    (hremoves : RemovesWhatItChecked s (.go p env)) (hat : s.At p op phase) :
    (s.goFrom p op env processes records phase).Inv processes records first := by
  cases phase with
  | creating why => exact h.create env why
  | publishing why handle => exact h.publish henv hat
  | withdrawing why handle => exact h.withdraw env hat
  | checking check => exact h.check henv check
  | statting check seen => exact h.stat henv hat
  | discarding => exact h.goOn (moves_unlink_reclaim s p env) trivial (fun _ hid => nomatch hid)
  | unlinking seen => exact h.unlinkLock hat hremoves
  | leaving reclaimed => exact h.leave env reclaimed
  | reading handle => exact h.readDocument env hat
  | persisting handle document => exact h.persist env hat
  | releasing handle outcome => exact h.release env hat

theorem Inv.setCaller (h : s.Inv processes records first) (caller : Caller T N)
    (hcaller : caller.alive = true → (s.callers p).alive = true)
    (hcall : caller.call = (s.callers p).call) :
    Inv processes records first { s with callers := Function.update s.callers p caller } := by
  refine h.of_at rfl rfl rfl rfl rfl fun q op phase hq => ?_
  by_cases hne : q = p
  · subst hne
    simp only [At, Function.update_self] at hq
    exact ⟨hcaller hq.1, hcall ▸ hq.2⟩
  · simpa only [At, Function.update_of_ne hne] using hq

theorem Inv.begin (h : s.Inv processes records first) (env : Surroundings) :
    (s.begin p env).Inv processes records first := by
  unfold State.begin
  cases (s.callers p).queue with
  | nil => exact h
  | cons op queue =>
    have hqueue := h.setCaller (p := p) { s.callers p with queue } id rfl
    dsimp only
    split_ifs
    · exact hqueue.finish (.refl _ p) (by decide)
    · exact hqueue.goOn (.refl _ p) trivial (fun _ hid => nomatch hid)

/-- **Every step keeps the invariant.** -/
theorem Inv.step (h : s.Inv processes records first) {action : Action P T N}
    (hlegal : Legal processes s action) (hremoves : RemovesWhatItChecked s action) :
    Inv processes records first (step processes records s action) := by
  cases action with
  | start p op => exact h.setCaller _ id rfl
  | crash p => exact h.setCaller _ (fun hfalse => nomatch hfalse) rfl
  | go p env =>
    rw [ConversationStore.step]
    split_ifs with halive
    · cases hcall : (s.callers p).call with
      | none => exact h.begin env
      | some call => exact h.goFrom hlegal hremoves ⟨halive, hcall⟩
    · exact h

section
omit [DecidableEq P]

theorem Inv.exclusive (h : s.Inv processes records first) : Exclusive s := by
  rintro p q ⟨op, phase, hat, hinside⟩ ⟨op', phase', hat', hinside'⟩
  have howner : ∀ phase : Phase T, phase.inside = true → ∃ id, phase.handle = some id := by
    intro phase hinside
    cases phase <;> first | exact ⟨_, rfl⟩ | cases hinside
  obtain ⟨id, hid⟩ := howner phase hinside
  obtain ⟨id', hid'⟩ := howner phase' hinside'
  exact h.owner_eq ⟨op, phase, hat, hid⟩ ⟨op', phase', hat', hid'⟩

theorem Inv.of_initial (h : Initial s) : s.Inv processes records s.stored := by
  have hat : ∀ p op phase, ¬ s.At p op phase := by
    rintro p op phase ⟨-, hcall⟩
    rw [h.call p] at hcall
    cases hcall
  refine ⟨h.fresh, fun p op phase hp => absurd hp (hat p op phase), ?_, ?_, ?_⟩
  · rintro p q id ⟨op, phase, hp, -⟩ -
    exact absurd hp (hat p op phase)
  · rw [h.committed]
    exact .nothing
  · rw [State.successes, h.ended]
    exact List.nil_sublist _

end

end State
end

section
variable {P T N : Type} [DecidableEq P] [DecidableEq N]

/-- **In every legal run in which reclaimers remove what they checked, the lock is exclusive
and no operation is lost**, in every state. -/
theorem exclusive_of_removesWhatItChecked (processes : Processes P) (records : Records T N)
    {s : State P T N} (hinitial : Initial s) {actions : List (Action P T N)}
    (hlegal : Runs.Meets (step processes records) (Legal processes) s actions)
    (hremoves : Runs.Meets (step processes records) RemovesWhatItChecked s actions) :
    Runs.Throughout (step processes records)
      (fun s' => Exclusive s' ∧ NothingLost records s.stored s') s actions := by
  have hmeets := Runs.meets_and hlegal hremoves
  have hinv := Runs.throughout_of_meets
    (I := State.Inv processes records s.stored) (fun s' action hs h => hs.step h.1 h.2)
    (State.Inv.of_initial hinitial) hmeets
  exact hinv.mono fun s' h => ⟨h.exclusive, h.lost⟩

end

/-! ### Three processes -/

def threeProcesses : Processes (Fin 3) where
  pid p := p + 1
  incarnation p := js "linux:" ++ ofNat (p + 1)
  safe := by decide
  canonical := by decide

/-- Records that are their own generation. -/
def plainRecords : Records Nat Nat := ⟨some, fun generation => generation.getD 0 + 1, fun _ => none⟩

/-- Everything succeeds at once, and only the pids up to 3 are alive. -/
def noTrouble : Surroundings :=
  ⟨0, fun pid => pid ≤ 3, fun pid => some (js "linux:" ++ ofNat pid), true, false, false⟩

/-- Nobody has been called; there may be a lock file of pid 9. -/
def threeIdle (left : Bool) : State (Fin 3) Nat Nat :=
  ⟨fun _ => ⟨true, [], none⟩,
    fun path => if left ∧ path = .lock then some ⟨0, some ⟨9, js "linux:9", 0⟩, 0⟩ else none,
    1, .missing, [], []⟩

theorem initial_threeIdle (left : Bool) : Initial (threeIdle left) where
  call _ := rfl
  committed := rfl
  ended := rfl
  fresh file hfile := by
    simp only [threeIdle] at hfile
    split_ifs at hfile
    cases hfile
    exact Nat.zero_lt_one

/-- The calls that the processes make first, then the order in which they go. -/
def script (calls : List (Fin 3 × JsString)) (order : List (Fin 3)) :
    List (Action (Fin 3) Nat Nat) :=
  calls.map (fun call => .start call.1 (.write call.2 none 1)) ++
    order.map (fun p => .go p noTrouble)

/-- The lock file is as old as the clock, and a reclaimer that removes it has just read it. -/
def undisturbed (s : State (Fin 3) Nat Nat) (action : Action (Fin 3) Nat Nat) : Bool :=
  (s.files .lock).all (fun file => file.mtimeMs == 0) &&
    match action with
    | .go p _ =>
      match (s.callers p).call with
      | some (_, .unlinking seen) => seen = s.files .lock
      | _ => true
    | _ => true

theorem legal_script {s : State (Fin 3) Nat Nat} {calls : List (Fin 3 × JsString)}
    {order : List (Fin 3)} (hmem : action ∈ script calls order)
    (hclock : (s.files .lock).all (fun file => file.mtimeMs == 0) = true) :
    Legal threeProcesses s action := by
  rcases List.mem_append.mp hmem with hstart | hgo
  · obtain ⟨call, -, rfl⟩ := List.mem_map.mp hstart
    trivial
  · obtain ⟨p, -, rfl⟩ := List.mem_map.mp hgo
    have halive : ∀ q, noTrouble.pidAlive (threeProcesses.pid q) = true := by decide
    refine ⟨fun q _ => halive q, fun q _ => .inr rfl, fun q op handle file _ hfile _ => ?_⟩
    rw [hfile] at hclock
    simp only [Option.all_some, beq_iff_eq] at hclock
    rw [hclock]
    decide

theorem removesWhatItChecked_of_undisturbed {s : State (Fin 3) Nat Nat}
    (h : undisturbed s action = true) : RemovesWhatItChecked s action := by
  cases action with
  | start p op | crash p => trivial
  | go p env =>
    intro op seen file q hat _ hfile _
    obtain ⟨-, hread⟩ := Bool.and_eq_true_iff.mp h
    simp only [hat.2, decide_eq_true_eq] at hread
    exact ⟨file, hread.trans hfile, rfl, rfl⟩

theorem State.inside_of_call {s : State (Fin 3) Nat Nat} {p : Fin 3}
    (h : (s.callers p).alive = true ∧
      (s.callers p).call.any (fun call => call.2.inside) = true) : s.Inside p := by
  obtain ⟨halive, hcall⟩ := h
  obtain ⟨⟨op, phase⟩, hsome, hinside⟩ := (Option.any_eq_true _ _).mp hcall
  exact ⟨op, phase, ⟨halive, hsome⟩, hinside⟩

/-- Process 0 reclaims the lock of pid 9 and writes, while process 1 waits. -/
def reclaims : List (Action (Fin 3) Nat Nat) :=
  script [(0, js "a"), (1, js "b")] [0, 0, 0, 0, 0, 0, 1, 0, 0, 0, 1, 0, 1, 0, 0, 1, 1, 1]

theorem exclusive_of_removesWhatItChecked_reclaims :
    Runs.Throughout (step threeProcesses plainRecords)
      (fun s' => Exclusive s' ∧ NothingLost plainRecords .missing s') (threeIdle true)
      reclaims := by
  have hundisturbed : Runs.Meets (step threeProcesses plainRecords)
      (fun s action => undisturbed s action = true) (threeIdle true) reclaims := by
    decide
  refine exclusive_of_removesWhatItChecked threeProcesses plainRecords (initial_threeIdle true)
    (hundisturbed.imp fun s action hmem h => legal_script hmem (Bool.and_eq_true_iff.mp h).1)
    (hundisturbed.imp fun s action _ h => removesWhatItChecked_of_undisturbed h)

/-- Process 1 finds the lock of process 0, which then releases it.  As a missing file counts
as stale, process 1 goes on to remove it; by then process 2 has created its own. -/
def race : List (Action (Fin 3) Nat Nat) :=
  script [(0, js "a"), (1, js "b"), (2, js "c")]
    [0, 0, 0, 1, 1, 0, 0, 0, 1, 1, 1, 1, 2, 2, 2, 1, 1, 1, 1]

/-- Both then write, and the first of them is told that it has. -/
def raceOn : List (Action (Fin 3) Nat Nat) :=
  race ++ script [] [1, 2, 1, 2, 1]

theorem live_lock_removed :
    Runs.Meets (step threeProcesses plainRecords) (Legal threeProcesses) (threeIdle false) race ∧
      ¬ Exclusive (Runs.run (step threeProcesses plainRecords) (threeIdle false) race) ∧
      ((Runs.run (step threeProcesses plainRecords) (threeIdle false) raceOn).ended.map
          fun ended => (ended.1, ended.2.2)) = [(0, .stored), (1, .stored)] ∧
      (Runs.run (step threeProcesses plainRecords) (threeIdle false) raceOn).stored.read.map
          (fun document => document.entries.map Prod.fst) = some [js "a", js "c"] := by
  have hclock : Runs.Meets (step threeProcesses plainRecords)
      (fun s _ => (s.files .lock).all (fun file => file.mtimeMs == 0) = true)
      (threeIdle false) race := by
    decide
  refine ⟨hclock.imp fun s action hmem h => legal_script hmem h, fun hexclusive => ?_,
    by decide, by decide⟩
  have hinside : ∀ p : Fin 3, p ≠ 0 →
      let caller := (Runs.run (step threeProcesses plainRecords) (threeIdle false) race).callers p
      caller.alive = true ∧ caller.call.any (fun call => call.2.inside) = true := by
    decide
  exact absurd (hexclusive 1 2 (State.inside_of_call (hinside 1 (by decide)))
    (State.inside_of_call (hinside 2 (by decide)))) (by decide)

end ConversationStore
end GajaeCode
