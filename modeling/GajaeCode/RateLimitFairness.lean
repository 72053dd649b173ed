import Mathlib.Algebra.Field.Rat
import Mathlib.Algebra.Order.Ring.Rat
import GajaeCode.RateLimitPool
import GajaeCode.Runs
import GajaeCode.ServiceHistory

/-! # Rotation among the sessions of a lane

For each lane the history of what was granted from it, and of which sessions were queued in
it after each change of the pool.  The cursor of a lane is a number: the session whose turn
it is stands at that place in a list that is made anew, in queue order, for every grant.  So
the list, as the cursor stands in it, is a round (`RateLimitPool.round`): the sessions from the
cursor on, then those before it.

Items that are granted, removed or submitted may shift the list under the cursor.  A run in
which this does not happen (`keepsPlaces`) is fair, since then the rounds go on as they began.
-/
namespace GajaeCode
open JsString ServiceHistory List

namespace RateLimitPool
variable {R T : Type}
variable {queue : List (QueuedItem R T)}

/-- The session at a cursor, in the list made for it. -/
def turnSession (cursor : Nat) (queue : List (QueuedItem R T)) : Option JsString :=
  (queuedSessions queue)[cursor % (queuedSessions queue).length]?

theorem mem_queuedSessions {sessionId : JsString} :
    sessionId ∈ queuedSessions queue ↔ ∃ q ∈ queue, q.item.sessionId = sessionId := by
  rw [queuedSessions, mem_firsts, mem_map]

/-- The rotation picks an item of the session at the cursor. -/
theorem pickFairIndex_turn (cursor : Nat) (h : queue ≠ []) :
    ∃ q, queue[(pickFairIndex cursor queue).1]? = some q ∧
      turnSession cursor queue = some q.item.sessionId := by
  obtain ⟨head, tail, rfl⟩ := exists_cons_of_ne_nil h
  have hhead : head.item.sessionId ∈ queuedSessions (head :: tail) :=
    mem_queuedSessions.mpr ⟨head, mem_cons_self, rfl⟩
  have hpos : 0 < (queuedSessions (head :: tail)).length := length_pos_of_mem hhead
  unfold pickFairIndex turnSession
  generalize hsessions : queuedSessions (head :: tail) = sessions at *
  simp only
  by_cases hone : sessions.length ≤ 1
  · obtain ⟨session, rfl⟩ := length_eq_one_iff.mp (Nat.le_antisymm hone hpos)
    obtain rfl := mem_singleton.mp hhead
    rw [if_pos hone]
    exact ⟨head, rfl, by simp [Nat.mod_one]⟩
  · rw [if_neg hone]
    have hlt : cursor % sessions.length < sessions.length := Nat.mod_lt _ hpos
    have hmem : sessions[cursor % sessions.length] ∈ queuedSessions (head :: tail) :=
      hsessions ▸ getElem_mem hlt
    obtain ⟨q, hq, hsession⟩ := mem_queuedSessions.mp hmem
    have hturn : sessions[cursor % sessions.length]? = some q.item.sessionId := by
      rw [getElem?_eq_getElem hlt, hsession]
    -- the loop ends at its first offset: the session at the cursor has an item
    obtain ⟨i, hi⟩ : ∃ i, (head :: tail).findIdx? (fun q =>
        sessions[cursor % sessions.length]? = some q.item.sessionId) = some i := by
      rw [← Option.isSome_iff_exists, findIdx?_isSome]
      exact any_eq_true.mpr ⟨q, hq, decide_eq_true hturn⟩
    obtain ⟨n, hn⟩ := Nat.exists_eq_succ_of_ne_zero hpos.ne'
    obtain ⟨hlength, hat, -⟩ := findIdx?_eq_some_iff_getElem.mp hi
    refine ⟨(head :: tail)[i], ?_, of_decide_eq_true hat⟩
    rw [hn, range_succ_eq_map, findSome?_cons, ← hn]
    simp only [Nat.add_zero]
    rw [hi]
    exact getElem?_eq_getElem hlength

variable (p : RateLimitPool R T)

/-- The lane the next item is taken from. -/
def turnLane : Option RateLimitLane :=
  LANE_PRIORITY.find? fun lane => p.lanes lane ≠ []

/-- The sessions queued in a lane, as its cursor stands among them. -/
def round (lane : RateLimitLane) : Round JsString :=
  let sessions := queuedSessions (p.lanes lane)
  let place := p.laneCursor lane % sessions.length
  ⟨sessions.drop place, sessions.take place⟩

theorem order_round_perm (lane : RateLimitLane) :
    (p.round lane).order.Perm (queuedSessions (p.lanes lane)) := by
  refine perm_append_comm.trans ?_
  rw [round, take_append_drop]

theorem nodup_order_round (lane : RateLimitLane) : (p.round lane).order.Nodup :=
  (p.order_round_perm lane).nodup_iff.mpr (InsertionMap.nodup_firsts _)

/-- **What the pool takes next** is an item of the session the cursor stands at. -/
theorem takeFrom_turn (lanes : List RateLimitLane) :
    ((lanes.find? fun lane => p.lanes lane ≠ []) = none ∧ p.takeFrom lanes = (p, .ok none)) ∨
      ∃ lane, ∃ q : QueuedItem R T, ∃ p', (lanes.find? fun lane => p.lanes lane ≠ []) = some lane ∧
        (p.round lane).ahead.head? = some q.item.sessionId ∧
        p.takeFrom lanes = (p', (p'.markSending q.item.id).map fun _ => some q.item) := by
  induction lanes with
  | nil => exact .inl ⟨rfl, rfl⟩
  | cons lane lanes ih =>
    rw [takeFrom]
    by_cases hempty : p.lanes lane = []
    · rw [if_pos hempty, find?_cons_of_neg (by simpa using hempty)]
      exact ih
    · rw [if_neg hempty, find?_cons_of_pos (by simpa using hempty)]
      obtain ⟨q, hget, hturn⟩ := pickFairIndex_turn (p.laneCursor lane) hempty
      simp only [hget]
      refine .inr ⟨lane, q, _, rfl, ?_, rfl⟩
      rw [round, head?_drop]
      exact hturn

/-- No list of queued sessions is shifted under its cursor when the pool changes. -/
def keepsPlace (p p' : RateLimitPool R T) (served : Option (RateLimitLane × JsString)) : Bool :=
  LANE_PRIORITY.all fun lane =>
    decide ((p.round lane).GoesOn ((served.filter fun s => s.1 = lane).map Prod.snd) (p'.round lane))

section
variable [Field R] [LinearOrder R]

/-- Nor by the grants of a drain, -/
def grantsKeepPlace : Nat → RateLimitPool R T → Bool
  | 0, _ => true
  | fuel + 1, p =>
    if 1 ≤ p.tokens then
      match p.takeNext with
      | (p', .ok (some item)) =>
        p.keepsPlace p' (p.turnLane.map (·, item.sessionId)) &&
          grantsKeepPlace fuel { p' with tokens := p'.tokens - 1 }
      | (p', _) => p.keepsPlace p' none
    else true

/-- nor by anything else in an operation. -/
def keepsPlaces (p : RateLimitPool R T) : PoolOperation R T T → Bool
  | .submit item => p.keepsPlace (p.submit item).1 none
  | .drainWithExpired nowMs =>
    let live := ((p.refill nowMs).removeWhere (isExpired nowMs) .expired).1
    p.keepsPlace live none && grantsKeepPlace (live.pending + 1) live
  | .removeWhere predicate disposition => p.keepsPlace (p.removeWhere predicate disposition).1 none
  | .removeById itemId => p.keepsPlace (p.removeById itemId).1 none
  | .settle itemId disposition => p.keepsPlace (p.settle itemId disposition) none

end

end RateLimitPool

/-- A pool with the histories of its lanes. -/
structure TracedPool (R T : Type) where
  pool : RateLimitPool R T
  history : RateLimitLane → List (ServiceEvent JsString)

namespace TracedPool
open RateLimitPool
variable {R T : Type}
variable {t : TracedPool R T}

/-- The pool changes, and a session may be granted an item from a lane. -/
def observe (t : TracedPool R T) (pool : RateLimitPool R T)
    (served : Option (RateLimitLane × JsString)) : TracedPool R T where
  pool
  history lane :=
    ⟨(served.filter fun s => s.1 = lane).map Prod.snd, queuedSessions (pool.lanes lane)⟩ ::
      t.history lane

/-- All grants up to now were fair, in every lane. -/
def Fair (t : TracedPool R T) : Prop := ∀ lane, ServiceHistory.Fair (t.history lane)

/-- All grants were fair, and in every lane who was served comes behind who waited. -/
structure InRotation (t : TracedPool R T) : Prop where
  fair : t.Fair
  rotates : ∀ lane, Rotates (t.history lane) (t.pool.round lane)

/-- **A change that shifts no list** keeps the rotation. -/
theorem InRotation.observe (h : t.InRotation) {pool : RateLimitPool R T}
    {served : Option (RateLimitLane × JsString)} (hkeeps : t.pool.keepsPlace pool served = true)
    (hturn : ∀ s ∈ served, (t.pool.round s.1).ahead.head? = some s.2) :
    (t.observe pool served).InRotation := by
  have hserved : ∀ lane, ∀ client ∈ (served.filter fun s => s.1 = lane).map Prod.snd,
      (t.pool.round lane).ahead.head? = some client := by
    intro lane client hclient
    obtain ⟨s, hfilter, rfl⟩ := Option.map_eq_some_iff.mp hclient
    obtain ⟨hs, hlane⟩ := Option.filter_eq_some_iff.mp hfilter
    obtain rfl := of_decide_eq_true hlane
    exact hturn s hs
  refine ⟨fun lane => fair_cons (h.fair lane) fun client hclient => ?_, fun lane => ?_⟩
  · exact (h.rotates lane).inTurn (t.pool.nodup_order_round lane) (hserved lane client hclient)
  · refine (h.rotates lane).step (t.pool.nodup_order_round lane) (hserved lane) ?_ ?_
    · exact fun k hk => (pool.order_round_perm lane).mem_iff.mpr hk
    · exact of_decide_eq_true (all_eq_true.mp hkeeps lane (mem_LANE_PRIORITY lane))

section
variable [Field R] [LinearOrder R]
variable {t : TracedPool R T} {fuel : Nat}

/-- `RateLimitPool.grantLoop` with its history. -/
def grantLoop : Nat → TracedPool R T → TracedPool R T
  | 0, t => t
  | fuel + 1, t =>
    if 1 ≤ t.pool.tokens then
      match t.pool.takeNext with
      | (pool, .error _) => t.observe pool none
      | (pool, .ok none) => t.observe pool none
      | (pool, .ok (some item)) =>
        grantLoop fuel (t.observe { pool with tokens := pool.tokens - 1 }
          (t.pool.turnLane.map (·, item.sessionId)))
    else t

/-- `RateLimitPool.drainWithExpired` with its history. -/
def drainWithExpired (t : TracedPool R T) (nowMs : R) : TracedPool R T :=
  let live := ((t.pool.refill nowMs).removeWhere (isExpired nowMs) .expired).1
  (t.observe live none).grantLoop (live.pending + 1)

def step (t : TracedPool R T) : PoolOperation R T T → TracedPool R T
  | .submit item => t.observe (t.pool.submit item).1 none
  | .drainWithExpired nowMs => t.drainWithExpired nowMs
  | .removeWhere predicate disposition =>
    t.observe (t.pool.removeWhere predicate disposition).1 none
  | .removeById itemId => t.observe (t.pool.removeById itemId).1 none
  | .settle itemId disposition => t.observe (t.pool.settle itemId disposition) none

/-- A new pool, of which nothing has happened yet. -/
def create (T : Type) (capacity refillPerSec : Option R) (nowMs : R) : TracedPool R T :=
  ⟨RateLimitPool.create capacity refillPerSec nowMs, fun _ => []⟩

/-- The history is a record: the pools are those of the code. -/
theorem pool_grantLoop (fuel : Nat) (t : TracedPool R T) (granted : List (RateLimitItem R T)) :
    (t.grantLoop fuel).pool = (t.pool.grantLoop fuel granted).1 := by
  induction fuel generalizing t granted with
  | zero => rfl
  | succ fuel ih =>
    rw [grantLoop, RateLimitPool.grantLoop]
    by_cases htokens : 1 ≤ t.pool.tokens
    · rw [if_pos htokens, if_pos htokens]
      rcases t.pool.takeNext with ⟨pool, _ | _ | item⟩
      · rfl
      · rfl
      · exact ih (t.observe _ _) (granted ++ [item])
    · rw [if_neg htokens, if_neg htokens]

theorem pool_drainWithExpired (t : TracedPool R T) (nowMs : R) :
    (t.drainWithExpired nowMs).pool = (t.pool.drainWithExpired nowMs).1 :=
  pool_grantLoop _ _ []

/-- **A drain that shifts no list** keeps the rotation. -/
theorem InRotation.grantLoop (h : t.InRotation) (hkeeps : grantsKeepPlace fuel t.pool = true) :
    (t.grantLoop fuel).InRotation := by
  induction fuel generalizing t with
  | zero => exact h
  | succ fuel ih =>
    rw [grantsKeepPlace] at hkeeps
    rw [TracedPool.grantLoop]
    by_cases htokens : 1 ≤ t.pool.tokens
    · rw [if_pos htokens] at hkeeps ⊢
      rcases takeFrom_turn t.pool LANE_PRIORITY with
        ⟨-, htake⟩ | ⟨lane, q, pool, hlane, hturn, htake⟩
      · rw [takeNext, htake] at hkeeps ⊢
        exact h.observe hkeeps nofun
      · rw [takeNext, htake, markSending] at hkeeps ⊢
        have hserved : t.pool.turnLane = some lane := hlane
        by_cases hopen : q.item.id ∈ pool.settlements
        · rw [if_pos hopen] at hkeeps ⊢
          obtain ⟨hplace, hrest⟩ := Bool.and_eq_true_iff.mp hkeeps
          refine ih (h.observe hplace ?_) hrest
          rw [hserved]
          rintro s ⟨⟩
          exact hturn
        · rw [if_neg hopen] at hkeeps ⊢
          exact h.observe hkeeps nofun
    · rw [if_neg htokens]
      exact h

theorem InRotation.step (op : PoolOperation R T T) (h : t.InRotation)
    (hkeeps : t.pool.keepsPlaces op = true) : (t.step op).InRotation := by
  cases op with
  | drainWithExpired nowMs =>
    obtain ⟨hplace, hgrants⟩ := Bool.and_eq_true_iff.mp hkeeps
    exact (h.observe hplace nofun).grantLoop hgrants
  | submit item | removeWhere predicate disposition | removeById itemId
  | settle itemId disposition => exact h.observe hkeeps nofun

/-- **A run that never shifts a list of sessions under its cursor is fair**, in every state
it goes through. -/
theorem fair_of_keepsPlaces (capacity refillPerSec : Option R) (nowMs : R)
    (ops : List (PoolOperation R T T))
    (hkeeps : Runs.Meets step (fun t op => t.pool.keepsPlaces op = true)
      (create T capacity refillPerSec nowMs) ops) :
    ∀ ops', ops' <+: ops → (Runs.run step (create T capacity refillPerSec nowMs) ops').Fair := by
  have hnew : (create T capacity refillPerSec nowMs).InRotation :=
    ⟨fun _ => fair_nil, fun _ _ _ h => absurd h not_mem_nil⟩
  rw [← Runs.throughout_iff]
  exact (Runs.throughout_of_meets (fun _ op h hop => h.step op hop) hnew hkeeps).mono
    fun _ h => h.fair

end

def frame (sessionId : JsString) : RateLimitItem Rat Unit :=
  ⟨sessionId, .live, none, none, none, ()⟩

/-- `a`, `b` and `a` again are queued and drained with tokens for all. -/
def twoSessions : List (PoolOperation Rat Unit Unit) :=
  [.submit (frame (js "a")), .submit (frame (js "b")), .submit (frame (js "a")),
    .drainWithExpired 0]

/-- Two frames of `a` and two of `b`, the second of each right behind its first, are drained;
`b` submits another one. -/
def steadyFrames : List (PoolOperation Rat Unit Unit) :=
  [.submit (frame (js "a")), .submit (frame (js "a")), .submit (frame (js "b")),
    .submit (frame (js "b")), .drainWithExpired 0, .submit (frame (js "b"))]

theorem fair_of_keepsPlaces_steady :
    (Runs.run step (create Unit none none (0 : Rat)) steadyFrames).Fair :=
  fair_of_keepsPlaces none none 0 steadyFrames (by decide +kernel) _ (prefix_refl _)

theorem second_frame_overtakes :
    ¬ (Runs.run step (create Unit none none (0 : Rat)) twoSessions).Fair := by
  intro hfair
  have hhistory : (Runs.run step (create Unit none none (0 : Rat)) twoSessions).history .live =
      [⟨none, []⟩, ⟨some (js "b"), []⟩] ++ ⟨some (js "a"), [js "b"]⟩ ::
        ([] ++ ⟨some (js "a"), [js "b", js "a"]⟩ ::
          [⟨none, [js "a", js "b"]⟩, ⟨none, [js "a", js "b"]⟩, ⟨none, [js "a", js "b"]⟩,
            ⟨none, [js "a"]⟩]) := by
    decide +kernel
  obtain ⟨event, hevent, -⟩ := hfair .live _ _ _ _ _ (js "a") hhistory rfl rfl
    (fun _ h => nomatch h) (js "b") (by decide) (by decide)
  cases hevent

end TracedPool
end GajaeCode
