import GajaeCode.ConversationLock
import GajaeCode.Runs

/-! # Who owns the lock file

A process owns the lock file from its creation to its removal.  A lock that the second
check of a reclaimer judged stale is no live process's, and as long as the file stays what
the check read, it becomes nobody's.  The invariant says this of every process where it is
in the code (`Sound`); how a step may move the lock file (`LockMoves`) is said once, and
what the other processes have is kept by all such moves.
-/
namespace GajaeCode
open JsString

namespace ConversationStore

/-- The lock file that a process created and has not removed. -/
def Phase.handle {T : Type} : Phase T → Option Nat
  | .publishing .acquire handle | .withdrawing .acquire handle | .reading handle
  | .persisting handle _ | .releasing handle _ => some handle
  | _ => none

/-- Between a successful `#acquireFileLock` and the release. -/
def Phase.inside {T : Type} : Phase T → Bool
  | .reading _ | .persisting _ _ | .releasing _ _ => true
  | _ => false

namespace State
variable {P T N : Type}

/-- A live process is in a call. -/
def At (s : State P T N) (p : P) (op : Operation T N) (phase : Phase T) : Prop :=
  (s.callers p).alive = true ∧ (s.callers p).call = some (op, phase)

/-- A live process is between a successful `#acquireFileLock` and its release. -/
def Inside (s : State P T N) (p : P) : Prop := ∃ op phase, s.At p op phase ∧ phase.inside = true

/-- A live process created the file of that id as its lock file and has not removed it. -/
def Owns (s : State P T N) (p : P) (id : Nat) : Prop :=
  ∃ op phase, s.At p op phase ∧ phase.handle = some id

/-- The calls that ended with a stored document. -/
def successes (s : State P T N) : List (P × Operation T N) :=
  s.ended.filterMap fun ended => if ended.2.2 = .stored then some (ended.1, ended.2.1) else none

end State

/-- Performed one after the other, each on the document that the one before it left, the
operations lead from one file to the other. -/
inductive Replays {T N : Type} [DecidableEq N] (records : Records T N)
    (first : StoredDocument T) : List (Operation T N) → StoredDocument T → Prop
  | nothing : Replays records first [] first
  | store {ops op stored document next} : Replays records first ops stored →
      stored.read = some document → op.perform records document = .ok (some next) →
      Replays records first (ops ++ [op]) (.holds next)

section
variable {P T N : Type}

/-- At most one live process is in possession of the lock. -/
def Exclusive (s : State P T N) : Prop := ∀ p q, s.Inside p → s.Inside q → p = q

/-- The document is what the committed operations make of the first one, and no successful
operation is missing among them. -/
def NothingLost [DecidableEq N] (records : Records T N) (first : StoredDocument T)
    (s : State P T N) : Prop :=
  Replays records first (s.committed.map Prod.snd) s.stored ∧ s.successes.Sublist s.committed

/-- Nobody has been called yet.  There may be lock files of processes that are gone. -/
structure Initial (s : State P T N) : Prop where
  call : ∀ p, (s.callers p).call = none
  fresh : ∀ file, s.files .lock = some file → file.id < s.nextId
  committed : s.committed = []
  ended : s.ended = []

/-- What the operating system says of a live process is true, and a process that is in the
middle of publishing its lock has written to it within the last 30 seconds. -/
structure Truthful (processes : Processes P) (s : State P T N) (env : Surroundings) : Prop where
  alive : ∀ q, (s.callers q).alive = true → env.pidAlive (processes.pid q) = true
  incarnation : ∀ q, (s.callers q).alive = true →
    env.pidIncarnation (processes.pid q) = none ∨
      env.pidIncarnation (processes.pid q) = some (processes.incarnation q)
  writes : ∀ q op handle file, s.At q op (.publishing .acquire handle) ∨
    s.At q op (.withdrawing .acquire handle) → s.files .lock = some file → file.id = handle →
      env.now - file.mtimeMs < UNPUBLISHED_LOCK_STALE_MS

/-- The steps that the environment may take. -/
def Legal (processes : Processes P) (s : State P T N) : Action P T N → Prop
  | .go _ env => Truthful processes s env
  | _ => True

/-- A reclaimer does not remove the lock file of a live process, unless that is the file
its second check read, with the lock it read. -/
def RemovesWhatItChecked (s : State P T N) : Action P T N → Prop
  | .go p env => ∀ op seen file q, s.At p op (.unlinking seen) → env.fails = false →
      s.files .lock = some file → s.Owns q file.id →
        ∃ old, seen = some old ∧ old.id = file.id ∧ old.lock = file.lock
  | _ => True

end

section
variable {P T N : Type} [DecidableEq N]

/-- A lock that a process writes. -/
def Wrote (processes : Processes P) (p : P) (lock : ConversationStoreLock) : Prop :=
  lock.pid = processes.pid p ∧
    (lock.incarnation = js "unavailable" ∨ lock.incarnation = processes.incarnation p)

namespace State

/-- A file that was read can only have a lock written to it where it had none. -/
def Known (s : State P T N) (seen : LockFile) : Prop :=
  seen.id < s.nextId ∧ ∀ file, s.files .lock = some file → file.id = seen.id →
    seen.lock ≠ none → file.lock = seen.lock

/-- The lock file is the one of that id, and what it says satisfies `good`. -/
def LockIs (s : State P T N) (id : Nat) (good : Option ConversationStoreLock → Prop) : Prop :=
  ∃ file, s.files .lock = some file ∧ file.id = id ∧ good file.lock

/-- The lock file is the one of that id, with a lock of the process. -/
def Published (processes : Processes P) (s : State P T N) (p : P) (id : Nat) : Prop :=
  s.LockIs id fun lock => ∃ l ∈ lock, Wrote processes p l

/-- While the file is what was read, it is no live process's. -/
def Abandoned (s : State P T N) (seen : LockFile) : Prop :=
  ∀ file q, s.files .lock = some file → file.id = seen.id → file.lock = seen.lock →
    ¬ s.Owns q file.id

def Sound (processes : Processes P) (records : Records T N) (s : State P T N) (p : P)
    (op : Operation T N) : Phase T → Prop
  | .publishing .acquire id => s.LockIs id (· = none)
  | .withdrawing .acquire id => s.LockIs id fun lock => ∀ l ∈ lock, Wrote processes p l
  | .reading id => s.Published processes p id
  | .persisting id next => s.Published processes p id ∧
      ∃ document, s.stored.read = some document ∧ op.perform records document = .ok (some next)
  | .releasing id outcome => s.Published processes p id ∧
      (outcome = .stored → (s.successes ++ [(p, op)]).Sublist s.committed)
  | .statting .second (some seen) =>
      s.Known seen ∧ ∀ l ∈ seen.lock, isConversationStoreLock l = false
  | .unlinking (some seen) => s.Known seen ∧ s.Abandoned seen
  | _ => True

structure Inv (processes : Processes P) (records : Records T N) (first : StoredDocument T)
    (s : State P T N) : Prop where
  fresh : ∀ file, s.files .lock = some file → file.id < s.nextId
  sound : ∀ p op phase, s.At p op phase → s.Sound processes records p op phase
  one : ∀ p q id, s.Owns p id → s.Owns q id → p = q
  lost : NothingLost records first s

variable {processes : Processes P} {records : Records T N} {first : StoredDocument T}
variable {s s' : State P T N} {p q : P} {op : Operation T N}

section
variable (h : s.Inv processes records first)
include h

theorem Inv.owner {id : Nat} (howns : s.Owns q id) :
    ∃ file, s.files .lock = some file ∧ file.id = id ∧
      ((file.lock = none ∧ ∃ op, s.At q op (.publishing .acquire id) ∨
          s.At q op (.withdrawing .acquire id)) ∨
        ∃ l, file.lock = some l ∧ Wrote processes q l) := by
  obtain ⟨op, phase, hat, hhandle⟩ := howns
  have hsound := h.sound q op phase hat
  cases phase with
  | publishing why handle =>
    cases why <;> cases hhandle
    obtain ⟨file, hfile, hid, hlock⟩ := hsound
    exact ⟨file, hfile, hid, .inl ⟨hlock, op, .inl hat⟩⟩
  | withdrawing why handle =>
    cases why <;> cases hhandle
    obtain ⟨file, hfile, hid, hlock⟩ := hsound
    refine ⟨file, hfile, hid, ?_⟩
    cases hl : file.lock with
    | none => exact .inl ⟨rfl, op, .inr hat⟩
    | some l => exact .inr ⟨l, rfl, hlock l hl⟩
  | reading handle =>
    cases hhandle
    obtain ⟨file, hfile, hid, l, hl, hwrote⟩ := hsound
    exact ⟨file, hfile, hid, .inr ⟨l, hl, hwrote⟩⟩
  | persisting handle document =>
    cases hhandle
    obtain ⟨⟨file, hfile, hid, l, hl, hwrote⟩, -⟩ := hsound
    exact ⟨file, hfile, hid, .inr ⟨l, hl, hwrote⟩⟩
  | releasing handle outcome =>
    cases hhandle
    obtain ⟨⟨file, hfile, hid, l, hl, hwrote⟩, -⟩ := hsound
    exact ⟨file, hfile, hid, .inr ⟨l, hl, hwrote⟩⟩
  | _ => cases hhandle

theorem Inv.owner_of_file {file : LockFile} (hfile : s.files .lock = some file)
    (howns : s.Owns q file.id) :
    (file.lock = none ∧ ∃ op, s.At q op (.publishing .acquire file.id) ∨
        s.At q op (.withdrawing .acquire file.id)) ∨
      ∃ l, file.lock = some l ∧ Wrote processes q l := by
  obtain ⟨file', hfile', -, hlock⟩ := h.owner howns
  obtain rfl : file = file' := some.inj (hfile.symm.trans hfile')
  exact hlock

theorem Inv.owner_eq {id id' : Nat} (hp : s.Owns p id) (hq : s.Owns q id') : p = q := by
  obtain ⟨file, hfile, rfl, -⟩ := h.owner hp
  obtain ⟨file', hfile', rfl, -⟩ := h.owner hq
  obtain rfl : file = file' := some.inj (hfile.symm.trans hfile')
  exact h.one p q _ hp hq

theorem Inv.owns_lt {id : Nat} (howns : s.Owns q id) : id < s.nextId := by
  obtain ⟨file, hfile, rfl, -⟩ := h.owner howns
  exact h.fresh file hfile

end

/-! ## What a step of one process leaves to the others -/

/-- What a step of `p` does to the lock file, and to the number of files created. -/
inductive LockMoves (s : State P T N) (p : P) (lock' : Option LockFile) (nextId' : Nat) : Prop
  | kept (h' : lock' = s.files .lock) (hid : s.nextId ≤ nextId')
  | created (now : Int) (h : s.files .lock = none) (h' : lock' = some ⟨s.nextId, none, now⟩)
      (hid : nextId' = s.nextId + 1)
  | written (file : LockFile) (lock : Option ConversationStoreLock) (now : Int)
      (h : s.files .lock = some file) (hown : s.Owns p file.id) (hnone : file.lock = none)
      (h' : lock' = some ⟨file.id, lock, now⟩) (hid : nextId' = s.nextId)
  | removed (h' : lock' = none) (hid : nextId' = s.nextId)
      (hfree : ∀ file q, s.files .lock = some file → s.Owns q file.id → q = p)

section
variable (h : LockMoves s p (s'.files .lock) s'.nextId)
include h

omit [DecidableEq N] in
theorem LockMoves.nextId_le : s.nextId ≤ s'.nextId := by
  cases h <;> omega

theorem LockMoves.fresh (hinv : s.Inv processes records first) (file : LockFile)
    (hfile : s'.files .lock = some file) : file.id < s'.nextId := by
  cases h with
  | kept h' hid => exact (hinv.fresh file (h' ▸ hfile)).trans_le hid
  | created now h h' hid =>
    cases h'.symm.trans hfile
    exact hid ▸ Nat.lt_succ_self _
  | written old lock now h hown hnone h' hid =>
    cases h'.symm.trans hfile
    exact hid ▸ hinv.fresh old h
  | removed h' => cases h'.symm.trans hfile

theorem LockMoves.lockIs (hinv : s.Inv processes records first) (hne : q ≠ p) {id : Nat}
    (howns : s.Owns q id) {good : Option ConversationStoreLock → Prop} (hlock : s.LockIs id good) :
    s'.LockIs id good := by
  obtain ⟨file, hfile, rfl, hgood⟩ := hlock
  cases h with
  | kept h' => exact ⟨file, h'.trans hfile, rfl, hgood⟩
  | created now h => cases h.symm.trans hfile
  | written old lock now h hown =>
    cases h.symm.trans hfile
    exact absurd (hinv.one q p _ howns hown) hne
  | removed h' hid hfree => exact absurd (hfree file q hfile howns) hne

section
omit [DecidableEq N]

theorem LockMoves.known {seen : LockFile} (hknown : s.Known seen) : s'.Known seen := by
  obtain ⟨hlt, hseen⟩ := hknown
  refine ⟨hlt.trans_le h.nextId_le, fun file hfile hid hsome => ?_⟩
  cases h with
  | kept h' => exact hseen file (h' ▸ hfile) hid hsome
  | created now h h' =>
    cases h'.symm.trans hfile
    exact absurd hid hlt.ne'
  | written old lock now h hown hnone h' =>
    cases h'.symm.trans hfile
    exact absurd ((hseen old h hid hsome).symm.trans hnone) hsome
  | removed h' => cases h'.symm.trans hfile

theorem LockMoves.abandoned {seen : LockFile} (hknown : s.Known seen)
    (howns : ∀ q id, id < s.nextId → s'.Owns q id → s.Owns q id) (habandoned : s.Abandoned seen) :
    s'.Abandoned seen := by
  obtain ⟨hlt, hseen⟩ := hknown
  intro file q hfile hid hlock hq
  have hold : s.Owns q file.id := howns q file.id (hid ▸ hlt) hq
  cases h with
  | kept h' => exact habandoned file q (h' ▸ hfile) hid hlock hold
  | created now h h' =>
    cases h'.symm.trans hfile
    exact absurd hid hlt.ne'
  | written old lock now h hown hnone h' =>
    cases h'.symm.trans hfile
    -- a lock was written to a file that had none, so none was read, and `p` owns what was read
    by_cases hsome : seen.lock = none
    · exact habandoned old p h hid (hnone.trans hsome.symm) hown
    · exact absurd ((hseen old h hid hsome).symm.trans hnone) hsome
  | removed h' => cases h'.symm.trans hfile

end

end

/-- The rest of the state is the same, or belongs to the owner of the lock. -/
def RestMoves (s s' : State P T N) (p : P) : Prop :=
  (s'.stored = s.stored ∧ s'.committed = s.committed ∧ s'.successes = s.successes) ∨
    ∃ id, s.Owns p id

/-- What is sound stays sound where an owner keeps its lock file and the documents. -/
theorem Sound.moves (hlock : LockMoves s p (s'.files .lock) s'.nextId) {phase : Phase T}
    (hkeeps : ∀ id good, phase.handle = some id → s.LockIs id good → s'.LockIs id good)
    (hsame : ∀ id, phase.handle = some id → s'.stored = s.stored ∧
      s'.committed = s.committed ∧ s'.successes = s.successes)
    (howns : ∀ q id, id < s.nextId → s'.Owns q id → s.Owns q id)
    (h : s.Sound processes records q op phase) : s'.Sound processes records q op phase := by
  cases phase with
  | publishing why id =>
    cases why with
    | acquire => exact hkeeps id (· = none) rfl h
    | reclaim | reclaimAgain => trivial
  | withdrawing why id =>
    cases why with
    | acquire => exact hkeeps id (fun lock => ∀ l ∈ lock, Wrote processes q l) rfl h
    | reclaim | reclaimAgain => trivial
  | reading id => exact hkeeps id (fun lock => ∃ l ∈ lock, Wrote processes q l) rfl h
  | persisting id next =>
    refine ⟨hkeeps id _ rfl h.1, ?_⟩
    rw [(hsame id rfl).1]
    exact h.2
  | releasing id outcome =>
    obtain ⟨-, hcommitted, hsuccesses⟩ := hsame id rfl
    refine ⟨hkeeps id _ rfl h.1, ?_⟩
    rw [hcommitted, hsuccesses]
    exact h.2
  | statting check seen =>
    cases check with
    | first | ofReclaim => trivial
    | second =>
      cases seen with
      | none => trivial
      | some seen => exact ⟨hlock.known h.1, h.2⟩
  | unlinking seen =>
    cases seen with
    | none => trivial
    | some seen => exact ⟨hlock.known h.1, hlock.abandoned h.1 howns h.2⟩
  | _ => trivial

/-- **A step of `p`** keeps the invariant where it makes the lock file move as above and
`p` itself ends in a sound phase. -/
theorem Inv.of_step (h : s.Inv processes records first)
    (hothers : ∀ q, q ≠ p → s'.callers q = s.callers q)
    (hlock : LockMoves s p (s'.files .lock) s'.nextId)
    (hrest : RestMoves s s' p) (hlost : NothingLost records first s')
    (howns : ∀ id, s'.Owns p id → s.Owns p id ∨ id = s.nextId)
    (hsound : ∀ op phase, s'.At p op phase → s'.Sound processes records p op phase) :
    s'.Inv processes records first := by
  have hat : ∀ q, q ≠ p → ∀ op phase, s'.At q op phase → s.At q op phase := by
    intro q hne op phase hq
    rwa [At, hothers q hne] at hq
  have hownsOther : ∀ q, q ≠ p → ∀ id, s'.Owns q id → s.Owns q id :=
    fun q hne id ⟨op, phase, hq, hhandle⟩ => ⟨op, phase, hat q hne op phase hq, hhandle⟩
  have hownsOld : ∀ q id, id < s.nextId → s'.Owns q id → s.Owns q id := by
    intro q id hlt hq
    by_cases hne : q = p
    · subst hne
      rcases howns id hq with hold | rfl
      · exact hold
      · exact absurd hlt (lt_irrefl _)
    · exact hownsOther q hne id hq
  refine ⟨hlock.fresh h, ?_, ?_, hlost⟩
  · intro q op phase hq
    by_cases hne : q = p
    · subst hne
      exact hsound op phase hq
    have hold := hat q hne op phase hq
    refine Sound.moves hlock (fun id good hid => hlock.lockIs h hne ⟨op, _, hold, hid⟩) ?_
      hownsOld (h.sound q op phase hold)
    -- who owns the lock while `q` does is `q`, so the documents have not changed
    intro id hid
    rcases hrest with hrest | ⟨id', hp⟩
    · exact hrest
    · exact absurd (h.owner_eq ⟨op, phase, hold, hid⟩ hp) hne
  · intro q r id hq hr
    by_cases hqp : q = p
    · by_cases hrp : r = p
      · rw [hqp, hrp]
      · have hold := hownsOther r hrp id hr
        exact h.one q r id (hownsOld q id (h.owns_lt hold) hq) hold
    · have hold := hownsOther q hqp id hq
      exact h.one q r id hold (hownsOld r id (h.owns_lt hold) hr)

/-- A step that moves no file and no process, though it may crash one. -/
theorem Inv.of_at (h : s.Inv processes records first) (hfiles : s'.files = s.files)
    (hid : s'.nextId = s.nextId) (hstored : s'.stored = s.stored)
    (hcommitted : s'.committed = s.committed) (hended : s'.ended = s.ended)
    (hat : ∀ q op phase, s'.At q op phase → s.At q op phase) : s'.Inv processes records first := by
  have howns : ∀ q id, s'.Owns q id → s.Owns q id :=
    fun q id ⟨op, phase, hq, hhandle⟩ => ⟨op, phase, hat q op phase hq, hhandle⟩
  have hsuccesses : s'.successes = s.successes := by
    unfold State.successes
    rw [hended]
  refine ⟨?_, fun q op phase hq => ?_, fun q r id hq hr => h.one q r id (howns q id hq)
    (howns r id hr), ?_, ?_⟩
  · rw [hfiles, hid]
    exact h.fresh
  · refine Sound.moves (p := q) (.kept (by rw [hfiles]) hid.ge) ?_ ?_ (fun q id _ => howns q id)
      (h.sound q op phase (hat q op phase hq))
    · intro id good _ hlockIs
      rwa [State.LockIs, hfiles]
    · intro _ _
      exact ⟨hstored, hcommitted, hsuccesses⟩
  · rw [hcommitted, hstored]
    exact h.lost.1
  · rw [hcommitted, hsuccesses]
    exact h.lost.2

end State
end

end ConversationStore
end GajaeCode
