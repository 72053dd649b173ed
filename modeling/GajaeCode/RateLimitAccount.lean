import Mathlib.Algebra.Order.Group.Multiset
import Mathlib.Tactic.Abel
import Mathlib.Tactic.FieldSimp
import Mathlib.Tactic.Linarith
import GajaeCode.RateLimitQueues
import GajaeCode.Runs

/-! # The send pool keeps account of its items, and stays within its rate

What was submitted is queued, or was granted, reported as expired, reported as removed, or
replaced.  The pool is run with numbered payloads, which it cannot see, so that all items
are told apart; `PoolAccount` keeps what its operations report.

The token bucket bounds what is granted in any window of time: what was granted since some
moment, together with the tokens left, is at most the capacity and what has been refilled
since.
-/
namespace GajaeCode
open JsString RateLimitPool List

variable {R T : Type}

namespace RateLimitItem

def number (item : RateLimitItem R (Nat × T)) : Nat := item.payload.1

def numbered (item : RateLimitItem R T) (n : Nat) : RateLimitItem R (Nat × T) :=
  ⟨item.sessionId, item.lane, item.coalesceKey, item.itemId, item.deadlineAt, (n, item.payload)⟩

/-- The item is the one submitted under its number; only an id may have been given to it. -/
def IsSubmission (submitted : List (RateLimitItem R T)) (item : RateLimitItem R (Nat × T)) :
    Prop :=
  ∃ original, submitted[item.number]? = some original ∧
    item = { original.numbered item.number with itemId := some item.id } ∧
    (original.itemId = none ∨ original.itemId = some item.id)

theorem IsSubmission.append {submitted : List (RateLimitItem R T)}
    {item : RateLimitItem R (Nat × T)} (h : IsSubmission submitted item)
    (last : RateLimitItem R T) : IsSubmission (submitted ++ [last]) item := by
  obtain ⟨original, hget, hitem, hid⟩ := h
  refine ⟨original, ?_, hitem, hid⟩
  rw [List.getElem?_append_left (List.getElem?_eq_some_iff.mp hget).1]
  exact hget

end RateLimitItem

/-- A pool with what was submitted to it and what it has reported. -/
structure PoolAccount (R T : Type) where
  pool : RateLimitPool R (Nat × T)
  submitted : List (RateLimitItem R T)
  /-- granted items, with the times of the drains -/
  granted : List (RateLimitItem R (Nat × T) × R)
  expired : List (RateLimitItem R (Nat × T))
  removed : List (RateLimitItem R (Nat × T))
  /-- replaced items, with the ones that replaced them -/
  replaced : List (RateLimitItem R (Nat × T) × RateLimitItem R (Nat × T))
  lastDrain : Option R

namespace PoolAccount
variable {a : PoolAccount R T}
variable {item : RateLimitItem R (Nat × T)}

def submit (a : PoolAccount R T) (item : RateLimitItem R T) : PoolAccount R T :=
  let item' := item.numbered a.submitted.length
  { a with
    pool := (a.pool.submit item').1
    submitted := a.submitted ++ [item]
    replaced := a.replaced ++
      ((a.pool.existing item').toList.map fun q => (q.item, a.pool.identified item')) }

def removeWhere (a : PoolAccount R T) (predicate : RateLimitItem R (Nat × T) → Bool)
    (disposition : RateLimitDisposition) : PoolAccount R T :=
  { a with
    pool := (a.pool.removeWhere predicate disposition).1
    removed := a.removed ++ (a.pool.removeWhere predicate disposition).2 }

def removeById (a : PoolAccount R T) (itemId : JsString) : PoolAccount R T :=
  { a with
    pool := (a.pool.removeById itemId).1
    removed := a.removed ++ (a.pool.removeById itemId).2.toList }

section
variable [Field R] [LinearOrder R]

/-- A drain that throws reports nothing. -/
def drainWithExpired (a : PoolAccount R T) (nowMs : R) : PoolAccount R T :=
  match a.pool.drainWithExpired nowMs with
  | (pool, .ok result) =>
    { a with
      pool
      granted := a.granted ++ result.granted.map (·, nowMs)
      expired := a.expired ++ result.expired
      lastDrain := some nowMs }
  | (pool, .error _) => { a with pool, lastDrain := some nowMs }

def step (a : PoolAccount R T) : PoolOperation R T (Nat × T) → PoolAccount R T
  | .submit item => a.submit item
  | .drainWithExpired nowMs => a.drainWithExpired nowMs
  | .removeWhere predicate disposition => a.removeWhere predicate disposition
  | .removeById itemId => a.removeById itemId
  | .settle itemId disposition => { a with pool := a.pool.settle itemId disposition }

/-- A new pool, to which nothing was submitted yet. -/
def create (T : Type) (capacity refillPerSec : Option R) (nowMs : R) : PoolAccount R T :=
  ⟨RateLimitPool.create capacity refillPerSec nowMs, [], [], [], [], [], none⟩

/-- What callers keep to: an id is submitted again only after its item was settled, times do
not decrease, and only items that are not queued are settled from outside. -/
def Legal (a : PoolAccount R T) : PoolOperation R T (Nat × T) → Prop
  | .submit item =>
    a.pool.idFor (item.numbered a.submitted.length) ∉ a.pool.settlements
  | .drainWithExpired nowMs => ∀ t, a.lastDrain = some t → t ≤ nowMs
  | .settle itemId _ => ∀ item ∈ a.pool.queued, item.id ≠ itemId
  | _ => True

end

def items (a : PoolAccount R T) : List (RateLimitItem R (Nat × T)) :=
  a.pool.queued ++ a.granted.map Prod.fst ++ a.expired ++ a.removed ++ a.replaced.map Prod.fst

/-- Every submission is in exactly one place, once, as it was submitted; what replaced an
item was submitted after it. -/
structure Accounted (a : PoolAccount R T) : Prop where
  perm : (a.items.map RateLimitItem.number).Perm (List.range a.submitted.length)
  submissions : ∀ item ∈ a.items, item.IsSubmission a.submitted
  newer : ∀ pair ∈ a.replaced, pair.1.number < pair.2.number ∧
    pair.2.IsSubmission a.submitted

/-- How many items were granted from `s` on, up to `t`. -/
def grantedWithin [LinearOrder R] (a : PoolAccount R T) (s t : R) : Nat :=
  a.granted.countP fun grant => s ≤ grant.2 ∧ grant.2 ≤ t

/-- No window of time has more grants than a full bucket and the refill in it. -/
def WithinRate [Field R] [LinearOrder R] (a : PoolAccount R T) : Prop :=
  ∀ s t : R, s ≤ t →
    (a.grantedWithin s t : R) ≤ a.pool.capacity + a.pool.refillPerSec * (t - s) / 1000

/-- The item was submitted without an id. -/
def Unidentified (submitted : List (RateLimitItem R T)) (item : RateLimitItem R (Nat × T)) :
    Prop :=
  ∀ original, submitted[item.number]? = some original → original.itemId = none

def OnlyUnidentifiedReplaced (a : PoolAccount R T) : Prop :=
  ∀ pair ∈ a.replaced, Unidentified a.submitted pair.1

/-! ## No item is lost -/

theorem coe_items (a : PoolAccount R T) : (a.items : Multiset (RateLimitItem R (Nat × T))) =
      a.pool.queued + a.granted.map Prod.fst + a.expired + a.removed + a.replaced.map Prod.fst := by
  simp only [items, Multiset.coe_add]

theorem Accounted.of_perm {a' : PoolAccount R T} (h : a.Accounted) (hitems : a'.items.Perm a.items)
    (hsubmitted : a'.submitted = a.submitted) (hreplaced : a'.replaced = a.replaced) :
    a'.Accounted where
  perm := by
    rw [hsubmitted]
    exact (hitems.map _).trans h.perm
  submissions item hitem := by
    rw [hsubmitted]
    exact h.submissions item (hitems.mem_iff.mp hitem)
  newer := by
    rw [hsubmitted, hreplaced]
    exact h.newer

theorem isSubmission_identified (a : PoolAccount R T) (item : RateLimitItem R T) :
    (a.pool.identified (item.numbered a.submitted.length)).IsSubmission
      (a.submitted ++ [item]) := by
  refine ⟨item, getElem?_concat_length, rfl, ?_⟩
  cases hid : item.itemId with
  | none => exact .inl rfl
  | some itemId =>
    right
    rw [id_identified, idFor]
    show some itemId = some (item.itemId.getD _)
    rw [hid]
    rfl

theorem mem_items_of_queued (a : PoolAccount R T) (h : item ∈ a.pool.queued) : item ∈ a.items := by
  simp only [items, mem_append]
  exact .inl (.inl (.inl (.inl h)))

theorem items_submit (a : PoolAccount R T) (item : RateLimitItem R T) : (a.submit item).items.Perm
      (a.pool.identified (item.numbered a.submitted.length) :: a.items) := by
  have hqueued := queued_submit a.pool (item.numbered a.submitted.length)
  rw [← Multiset.coe_eq_coe, ← Multiset.coe_add, ← Multiset.cons_coe] at hqueued
  rw [← Multiset.coe_eq_coe, coe_items, ← Multiset.cons_coe, coe_items]
  have hreplaced : (a.submit item).replaced.map Prod.fst = a.replaced.map Prod.fst ++
      (a.pool.existing (item.numbered a.submitted.length)).toList.map QueuedItem.item := by
    simp [submit, Function.comp_def]
  rw [hreplaced, ← Multiset.coe_add]
  have hmove : ∀ q g e r x o : Multiset (RateLimitItem R (Nat × T)),
      q + g + e + r + (o + x) = x + q + g + e + r + o := by
    intro q g e r x o
    abel
  refine (hmove _ _ _ _ _ _).trans ?_
  rw [← Multiset.cons_add, ← Multiset.cons_add, ← Multiset.cons_add, ← Multiset.cons_add]
  exact congrArg (· + _ + _ + _ + _) hqueued

theorem Accounted.submit (h : a.Accounted) (item : RateLimitItem R T) :
    (a.submit item).Accounted where
  perm := by
    refine ((items_submit a item).map _).trans ?_
    show ((_ :: a.items.map RateLimitItem.number).Perm (range (a.submitted ++ [item]).length))
    rw [length_append, length_singleton, range_succ]
    exact (h.perm.cons _).trans (perm_append_singleton _ _).symm
  submissions other hother := by
    rcases mem_cons.mp ((items_submit a item).mem_iff.mp hother) with rfl | hother
    · exact isSubmission_identified a item
    · exact (h.submissions other hother).append item
  newer pair hpair := by
    rcases mem_append.mp hpair with hpair | hpair
    · exact ⟨(h.newer pair hpair).1, (h.newer pair hpair).2.append item⟩
    · obtain ⟨q, hq, rfl⟩ := mem_map.mp hpair
      refine ⟨?_, isSubmission_identified a item⟩
      have hqueued := existing_mem (Option.mem_toList.mp hq)
      obtain ⟨original, hget, -⟩ := h.submissions _ (a.mem_items_of_queued hqueued)
      exact (List.getElem?_eq_some_iff.mp hget).1

theorem items_removeWhere (a : PoolAccount R T) (predicate : RateLimitItem R (Nat × T) → Bool)
    (disposition : RateLimitDisposition) :
    (a.removeWhere predicate disposition).items.Perm a.items := by
  have hqueued := queued_removeWhere_perm a.pool predicate disposition
  rw [← Multiset.coe_eq_coe, ← Multiset.coe_add] at hqueued
  rw [← Multiset.coe_eq_coe, coe_items, coe_items, hqueued]
  simp only [removeWhere, ← Multiset.coe_add]
  abel

theorem items_removeById (a : PoolAccount R T) (itemId : JsString) :
    (a.removeById itemId).items.Perm a.items := by
  have hqueued := queued_removeById (p := a.pool) itemId
  rw [← Multiset.coe_eq_coe, ← Multiset.coe_add] at hqueued
  rw [← Multiset.coe_eq_coe, coe_items, coe_items, hqueued]
  simp only [removeById, ← Multiset.coe_add]
  abel

theorem items_settle (a : PoolAccount R T) (itemId : JsString)
    (disposition : RateLimitDisposition) :
    ({ a with pool := a.pool.settle itemId disposition } : PoolAccount R T).items = a.items := by
  rw [items, queued_settle]
  rfl

section
variable [Field R] [LinearOrder R] [IsStrictOrderedRing R]

theorem drainWithExpired_eq_account {a : PoolAccount R T} (h : a.pool.OpenIds) (nowMs : R) :
    ∃ granted pool, Grants ((a.pool.refill nowMs).removeWhere (isExpired nowMs) .expired).1
        granted pool ∧
      a.drainWithExpired nowMs =
        { a with
          pool
          granted := a.granted ++ granted.map (·, nowMs)
          expired := a.expired ++ a.pool.queued.filter (isExpired nowMs)
          lastDrain := some nowMs } := by
  obtain ⟨granted, pool, hdrain, hgrants⟩ := drainWithExpired_eq h nowMs
  refine ⟨granted, pool, hgrants, ?_⟩
  rw [drainWithExpired, hdrain]

theorem items_drainWithExpired {a : PoolAccount R T} (h : a.pool.OpenIds) (nowMs : R) :
    (a.drainWithExpired nowMs).items.Perm a.items := by
  obtain ⟨granted, pool, hgrants, heq⟩ := drainWithExpired_eq_account h nowMs
  have hexpired := queued_removeWhere_perm (a.pool.refill nowMs) (isExpired nowMs) .expired
  have hqueued := hgrants.queued
  rw [removed_eq, queued_refill, ← Multiset.coe_eq_coe, ← Multiset.coe_add] at hexpired
  rw [← Multiset.coe_eq_coe, ← Multiset.coe_add] at hqueued
  rw [hqueued] at hexpired
  have hgranted : (granted.map (·, nowMs)).map Prod.fst = granted := by
    simp [Function.comp_def]
  rw [heq, ← Multiset.coe_eq_coe, coe_items, coe_items, hexpired]
  simp only [map_append, hgranted, ← Multiset.coe_add]
  abel

end

/-! ## The bucket -/

section Bucket
variable [LinearOrder R]
variable {a : PoolAccount R T} {nowMs : R}

theorem grantedWithin_drain (a : PoolAccount R T) (granted : List (RateLimitItem R (Nat × T)))
    (nowMs s t : R) :
    (a.granted ++ granted.map (·, nowMs)).countP (fun grant => s ≤ grant.2 ∧ grant.2 ≤ t) =
      a.grantedWithin s t + if s ≤ nowMs ∧ nowMs ≤ t then granted.length else 0 := by
  rw [countP_append, grantedWithin, countP_map]
  congr 1
  split_ifs with h
  · exact countP_eq_length.mpr fun _ _ => decide_eq_true h
  · exact countP_eq_zero.mpr fun _ _ => by simpa using h

theorem grantedWithin_congr {s t t' : R} (h : ∀ grant ∈ a.granted, grant.2 ≤ t ↔ grant.2 ≤ t') :
    a.grantedWithin s t = a.grantedWithin s t' := by
  refine countP_congr fun grant hgrant => ?_
  rw [decide_eq_true_eq, decide_eq_true_eq, h grant hgrant]

theorem grantedWithin_eq_zero {s t : R} (h : ∀ grant ∈ a.granted, grant.2 < s) :
    a.grantedWithin s t = 0 := by
  refine countP_eq_zero.mpr fun grant hgrant => ?_
  simpa using fun hs => absurd (h grant hgrant) (not_lt.mpr hs)

variable [Field R]

theorem refill_capacity (p : RateLimitPool R T) (nowMs : R) :
    (p.refill nowMs).capacity = p.capacity ∧ (p.refill nowMs).refillPerSec = p.refillPerSec ∧
      (p.refill nowMs).lastRefill = max p.lastRefill nowMs := by
  unfold RateLimitPool.refill
  split_ifs with h
  · exact ⟨rfl, rfl, (max_eq_left h).symm⟩
  · exact ⟨rfl, rfl, (max_eq_right (not_le.mp h).le).symm⟩

/-- The tokens are between none and the capacity, and the rate is not negative. -/
structure InBounds (p : RateLimitPool R T) : Prop where
  nonneg : 0 ≤ p.tokens
  le_capacity : p.tokens ≤ p.capacity
  rate : 0 ≤ p.refillPerSec

/-- What was granted since a moment and the tokens left are paid for by a full bucket and
the refill since. -/
structure Paid (a : PoolAccount R T) : Prop where
  bounds : InBounds a.pool
  undrained : a.lastDrain = none → a.granted = []
  drained : ∀ D, a.lastDrain = some D → D ≤ a.pool.lastRefill ∧ (∀ grant ∈ a.granted, grant.2 ≤ D) ∧
    ∀ s, s ≤ D → (a.grantedWithin s D : R) + a.pool.tokens ≤
      a.pool.capacity + a.pool.refillPerSec * (D - s) / 1000
  within : a.WithinRate

theorem Paid.congr {a' : PoolAccount R T} (h : a.Paid) (hbucket : a'.pool.bucket = a.pool.bucket)
    (hgranted : a'.granted = a.granted) (hlast : a'.lastDrain = a.lastDrain) : a'.Paid := by
  obtain ⟨⟨h0, h1, h2⟩, h3, h4, h5⟩ := h
  simp only [bucket, Prod.mk.injEq] at hbucket
  obtain ⟨hcapacity, hrate, htokens, hrefill⟩ := hbucket
  refine ⟨⟨?_, ?_, ?_⟩, ?_, ?_, ?_⟩
  · rwa [htokens]
  · rwa [htokens, hcapacity]
  · rwa [hrate]
  · rwa [hlast, hgranted]
  · unfold grantedWithin at h4 ⊢
    rwa [hlast, hgranted, hrefill, htokens, hcapacity, hrate]
  · unfold WithinRate grantedWithin at h5 ⊢
    rwa [hgranted, hcapacity, hrate]

theorem Paid.granted_le (h : a.Paid) (hnow : ∀ t, a.lastDrain = some t → t ≤ nowMs) :
    ∀ grant ∈ a.granted, grant.2 ≤ nowMs := by
  intro grant hgrant
  cases hlastDrain : a.lastDrain with
  | none =>
    rw [h.undrained hlastDrain] at hgrant
    exact nomatch hgrant
  | some D => exact ((h.drained D hlastDrain).2.1 grant hgrant).trans (hnow D hlastDrain)

/-- The bucket after a drain: the refilled one without a token for each grant. -/
theorem bucket_drain {p pool : RateLimitPool R (Nat × T)}
    {granted : List (RateLimitItem R (Nat × T))}
    (h : Grants ((p.refill nowMs).removeWhere (isExpired nowMs) .expired).1 granted pool) :
    pool.capacity = p.capacity ∧ pool.refillPerSec = p.refillPerSec ∧
      pool.lastRefill = max p.lastRefill nowMs ∧
      pool.tokens + granted.length = (p.refill nowMs).tokens ∧
      (0 ≤ (p.refill nowMs).tokens → 0 ≤ pool.tokens) := by
  have hbucket := bucket_removeWhere (p := p.refill nowMs) (isExpired nowMs) .expired
  simp only [bucket, Prod.mk.injEq] at hbucket
  obtain ⟨hcap, hrate, htok, hlast⟩ := hbucket
  obtain ⟨hcap', hrate', hlast'⟩ := refill_capacity p nowMs
  refine ⟨h.capacity.trans (hcap.trans hcap'), h.refillPerSec.trans (hrate.trans hrate'),
    h.lastRefill.trans (hlast.trans hlast'), h.tokens.trans htok, fun hnonneg => ?_⟩
  exact h.nonneg (by rw [htok]; exact hnonneg)

variable [IsStrictOrderedRing R]

/-- A refill adds at most the rate over the time since any moment before the last one. -/
theorem InBounds.refill {p : RateLimitPool R T} (h : InBounds p) (nowMs : R) :
    InBounds (p.refill nowMs) ∧ ∀ D, D ≤ p.lastRefill → D ≤ nowMs →
      (p.refill nowMs).tokens ≤ p.tokens + p.refillPerSec * (nowMs - D) / 1000 := by
  have hrate := h.rate
  unfold RateLimitPool.refill
  split_ifs with hle
  · refine ⟨h, fun D _ hD => le_add_of_nonneg_right ?_⟩
    exact div_nonneg (mul_nonneg hrate (sub_nonneg.mpr hD)) (by norm_num)
  · have helapsed : 0 ≤ nowMs - p.lastRefill := sub_nonneg.mpr (not_le.mp hle).le
    have hadded : 0 ≤ (nowMs - p.lastRefill) / 1000 * p.refillPerSec :=
      mul_nonneg (div_nonneg helapsed (by norm_num)) hrate
    refine ⟨⟨?_, min_le_left _ _, hrate⟩, fun D hD _ => (min_le_right _ _).trans ?_⟩
    · exact le_min (h.nonneg.trans h.le_capacity) (add_nonneg h.nonneg hadded)
    · have hlonger : p.refillPerSec * (nowMs - p.lastRefill) ≤ p.refillPerSec * (nowMs - D) :=
        mul_le_mul_of_nonneg_left (sub_le_sub_left hD nowMs) hrate
      have hsame : (nowMs - p.lastRefill) / 1000 * p.refillPerSec =
          p.refillPerSec * (nowMs - p.lastRefill) / 1000 := by ring
      rw [hsame]
      linarith [div_le_div_of_nonneg_right hlonger (by norm_num : (0 : R) ≤ 1000)]

/-- The refill of a drain pays for the time since the drain before. -/
theorem Paid.refill (h : a.Paid) (hnow : ∀ t, a.lastDrain = some t → t ≤ nowMs) {s : R}
    (hs : s ≤ nowMs) : (a.grantedWithin s nowMs : R) + (a.pool.refill nowMs).tokens ≤
      a.pool.capacity + a.pool.refillPerSec * (nowMs - s) / 1000 := by
  obtain ⟨hbounds, hrefill⟩ := h.bounds.refill nowMs
  have hcapacity := hbounds.le_capacity
  rw [(refill_capacity a.pool nowMs).1] at hcapacity
  have hwindow : 0 ≤ a.pool.refillPerSec * (nowMs - s) / 1000 :=
    div_nonneg (mul_nonneg h.bounds.rate (sub_nonneg.mpr hs)) (by norm_num)
  have hfresh : a.grantedWithin s nowMs = 0 → (a.grantedWithin s nowMs : R) +
      (a.pool.refill nowMs).tokens ≤
        a.pool.capacity + a.pool.refillPerSec * (nowMs - s) / 1000 := by
    intro hzero
    rw [hzero, Nat.cast_zero]
    linarith
  cases hlast : a.lastDrain with
  | none =>
    apply hfresh
    apply grantedWithin_eq_zero
    rw [h.undrained hlast]
    exact fun grant hgrant => nomatch hgrant
  | some D =>
    obtain ⟨hD, hgrants, hpaid⟩ := h.drained D hlast
    have hDnow := hnow D hlast
    by_cases hsD : s ≤ D
    · have hsame : a.grantedWithin s nowMs = a.grantedWithin s D :=
        grantedWithin_congr fun grant hgrant =>
          iff_of_true ((hgrants grant hgrant).trans hDnow) (hgrants grant hgrant)
      have hsplit : a.pool.refillPerSec * (nowMs - s) / 1000 =
          a.pool.refillPerSec * (D - s) / 1000 +
            a.pool.refillPerSec * (nowMs - D) / 1000 := by ring
      rw [hsame, hsplit]
      linarith [hpaid s hsD, hrefill D hD hDnow]
    · exact hfresh (grantedWithin_eq_zero fun grant hgrant =>
        (hgrants grant hgrant).trans_lt (not_le.mp hsD))

theorem Paid.drainWithExpired (h : a.Paid) (hopen : a.pool.OpenIds)
    (hnow : ∀ t, a.lastDrain = some t → t ≤ nowMs) : (a.drainWithExpired nowMs).Paid := by
  obtain ⟨granted, pool, hgrants, heq⟩ := drainWithExpired_eq_account hopen nowMs
  obtain ⟨hcapacity, hrefillPerSec, hlastRefill, htokens, hnonneg⟩ := bucket_drain hgrants
  have hbounds := (h.bounds.refill nowMs).1
  replace hnonneg := hnonneg hbounds.nonneg
  have hcount : (0 : R) ≤ granted.length := Nat.cast_nonneg _
  have hearlier := h.granted_le hnow
  rw [heq]
  refine ⟨⟨hnonneg, ?_, ?_⟩, fun hnone => (nomatch hnone), ?_, ?_⟩
  · show pool.tokens ≤ pool.capacity
    have hle := hbounds.le_capacity
    rw [(refill_capacity a.pool nowMs).1] at hle
    rw [hcapacity]
    linarith
  · show 0 ≤ pool.refillPerSec
    rw [hrefillPerSec]
    exact h.bounds.rate
  · rintro D hD
    obtain rfl := some.inj hD
    refine ⟨?_, ?_, fun s hs => ?_⟩
    · show nowMs ≤ pool.lastRefill
      rw [hlastRefill]
      exact le_max_right _ _
    · intro grant hgrant
      rcases mem_append.mp hgrant with hgrant | hgrant
      · exact hearlier grant hgrant
      · obtain ⟨item, -, rfl⟩ := mem_map.mp hgrant
        exact le_refl _
    · show ((countP _ _ : Nat) : R) + pool.tokens ≤
        pool.capacity + pool.refillPerSec * (nowMs - s) / 1000
      rw [grantedWithin_drain, if_pos ⟨hs, le_refl _⟩, hcapacity, hrefillPerSec, Nat.cast_add]
      linarith [h.refill hnow hs]
  · intro s t hst
    show ((countP _ _ : Nat) : R) ≤ pool.capacity + pool.refillPerSec * (t - s) / 1000
    rw [grantedWithin_drain, hcapacity, hrefillPerSec]
    by_cases hwindow : s ≤ nowMs ∧ nowMs ≤ t
    · obtain ⟨hs, ht⟩ := hwindow
      have hsame : a.grantedWithin s t = a.grantedWithin s nowMs :=
        grantedWithin_congr fun grant hgrant =>
          iff_of_true ((hearlier grant hgrant).trans ht) (hearlier grant hgrant)
      have hlonger : 0 ≤ a.pool.refillPerSec * (t - nowMs) / 1000 :=
        div_nonneg (mul_nonneg h.bounds.rate (sub_nonneg.mpr ht)) (by norm_num)
      have hsplit : a.pool.refillPerSec * (t - s) / 1000 =
          a.pool.refillPerSec * (nowMs - s) / 1000 +
            a.pool.refillPerSec * (t - nowMs) / 1000 := by ring
      rw [if_pos ⟨hs, ht⟩, hsame, hsplit, Nat.cast_add]
      linarith [h.refill hnow hs]
    · rw [if_neg hwindow, Nat.add_zero]
      exact h.within s t hst

end Bucket

/-! ## Runs -/

theorem unidentified_append {submitted : List (RateLimitItem R T)} (h : item.IsSubmission submitted)
    (last : RateLimitItem R T) :
    Unidentified (submitted ++ [last]) item ↔ Unidentified submitted item := by
  obtain ⟨original, hget, -⟩ := h
  unfold Unidentified
  rw [List.getElem?_append_left (List.getElem?_eq_some_iff.mp hget).1]

/-- A new item without an id replaces only items that were submitted without one. -/
def CoalescesUnidentified (a : PoolAccount R T) : PoolOperation R T (Nat × T) → Prop
  | .submit item => ∀ q, a.pool.existing (item.numbered a.submitted.length) = some q →
      Unidentified a.submitted q.item
  | _ => True

theorem onlyUnidentifiedReplaced_submit (h : a.Accounted) (honly : a.OnlyUnidentifiedReplaced)
    (item : RateLimitItem R T) :
    (a.submit item).OnlyUnidentifiedReplaced ↔ a.CoalescesUnidentified (.submit item) := by
  have hsubmission : ∀ old ∈ a.replaced.map Prod.fst, old.IsSubmission a.submitted :=
    fun old hold => h.submissions old (mem_append_right _ hold)
  have hqueued : ∀ q, a.pool.existing (item.numbered a.submitted.length) = some q →
      q.item.IsSubmission a.submitted :=
    fun q hq => h.submissions _ (a.mem_items_of_queued (existing_mem hq))
  constructor
  · intro hnext q hq
    refine (unidentified_append (hqueued q hq) item).mp ?_
    have hnew : (q.item, a.pool.identified (item.numbered a.submitted.length)) ∈
        (a.submit item).replaced :=
      mem_append_right _ (mem_map.mpr ⟨q, Option.mem_toList.mpr hq, rfl⟩)
    exact hnext _ hnew
  · intro hcoalesces pair hpair
    rcases mem_append.mp hpair with hpair | hpair
    · have hold := hsubmission pair.1 (mem_map_of_mem hpair)
      exact (unidentified_append hold item).mpr (honly pair hpair)
    · obtain ⟨q, hq, rfl⟩ := mem_map.mp hpair
      have hq := Option.mem_toList.mp hq
      exact (unidentified_append (hqueued q hq) item).mpr (hcoalesces q hq)

section Runs
variable [Field R] [LinearOrder R]

/-- Nothing is lost, the rate is kept, and items with an id are not replaced. -/
structure Sound (a : PoolAccount R T) : Prop where
  accounted : a.Accounted
  withinRate : a.WithinRate
  onlyUnidentified : a.OnlyUnidentifiedReplaced

/-- What every legal operation keeps. -/
structure Kept (a : PoolAccount R T) : Prop where
  openIds : a.pool.OpenIds
  accounted : a.Accounted
  paid : a.Paid

variable [IsStrictOrderedRing R]

theorem kept_create (capacity refillPerSec : Option R) (nowMs : R) :
    (create T capacity refillPerSec nowMs).Kept where
  openIds := ⟨nodup_nil, fun _ hitem => nomatch hitem⟩
  accounted := ⟨Perm.refl _, fun _ hitem => (nomatch hitem), fun _ hpair => nomatch hpair⟩
  paid := by
    refine ⟨⟨?_, le_refl _, le_max_left _ _⟩, fun _ => rfl, fun _ hlast => (nomatch hlast), ?_⟩
    · exact zero_le_one.trans (le_max_left _ _)
    · intro s t hst
      have hcapacity : (1 : R) ≤ max 1 (capacity.getD 20) := le_max_left _ _
      have hrate : (0 : R) ≤ max 0 (refillPerSec.getD 1) * (t - s) / 1000 :=
        div_nonneg (mul_nonneg (le_max_left _ _) (sub_nonneg.mpr hst)) (by norm_num)
      show ((0 : Nat) : R) ≤ max 1 (capacity.getD 20) + max 0 (refillPerSec.getD 1) * (t - s) / 1000
      rw [Nat.cast_zero]
      linarith

theorem kept_step (a : PoolAccount R T) (op : PoolOperation R T (Nat × T)) (h : a.Kept)
    (hlegal : a.Legal op) : (a.step op).Kept := by
  obtain ⟨hopen, haccounted, hpaid⟩ := h
  cases op with
  | submit item =>
    exact ⟨hopen.submit hlegal, haccounted.submit item,
      hpaid.congr (bucket_submit _ _) rfl rfl⟩
  | drainWithExpired nowMs =>
    obtain ⟨granted, pool, hgrants, heq⟩ := drainWithExpired_eq_account hopen nowMs
    refine ⟨?_, ?_, hpaid.drainWithExpired hopen hlegal⟩
    · show (a.drainWithExpired nowMs).pool.OpenIds
      rw [heq]
      exact hgrants.openIds
    · have hsubmitted := congrArg PoolAccount.submitted heq
      have hreplaced := congrArg PoolAccount.replaced heq
      exact haccounted.of_perm (items_drainWithExpired hopen nowMs) hsubmitted hreplaced
  | removeWhere predicate disposition =>
    exact ⟨hopen.removeWhere predicate disposition,
      haccounted.of_perm (items_removeWhere a predicate disposition) rfl rfl,
      hpaid.congr (bucket_removeWhere predicate disposition) rfl rfl⟩
  | removeById itemId =>
    exact ⟨hopen.removeById itemId, haccounted.of_perm (items_removeById a itemId) rfl rfl,
      hpaid.congr (bucket_removeById _ _) rfl rfl⟩
  | settle itemId disposition =>
    refine ⟨hopen.settle hlegal disposition, ?_, hpaid.congr (bucket_settle ..) rfl rfl⟩
    exact haccounted.of_perm (Perm.of_eq (items_settle a itemId disposition)) rfl rfl

theorem onlyUnidentifiedReplaced_step {a : PoolAccount R T} (op : PoolOperation R T (Nat × T)) (h : a.Kept)
    (honly : a.OnlyUnidentifiedReplaced) :
    (a.step op).OnlyUnidentifiedReplaced ↔ a.CoalescesUnidentified op := by
  cases op with
  | submit item => exact onlyUnidentifiedReplaced_submit h.accounted honly item
  | drainWithExpired nowMs =>
    obtain ⟨granted, pool, -, heq⟩ := drainWithExpired_eq_account h.openIds nowMs
    refine iff_of_true ?_ trivial
    show (a.drainWithExpired nowMs).OnlyUnidentifiedReplaced
    rw [heq]
    exact honly
  | removeWhere predicate disposition | removeById itemId | settle itemId disposition =>
    exact iff_of_true honly trivial

/-- In every legal run no item is lost and the rate is kept. -/
theorem kept_run {a : PoolAccount R T} (h : a.Kept) {ops : List (PoolOperation R T (Nat × T))}
    (hlegal : Runs.Meets step Legal a ops) : (Runs.run step a ops).Kept :=
  Runs.throughout_iff.mp (Runs.throughout_of_meets kept_step h hlegal) ops prefix_rfl

/-- **The send pool keeps account in all of a legal run exactly if no item that was
submitted with an id is coalesced away.** -/
theorem sound_iff_coalescesUnidentified (capacity refillPerSec : Option R) (nowMs : R)
    (ops : List (PoolOperation R T (Nat × T)))
    (hlegal : Runs.Meets step Legal (create T capacity refillPerSec nowMs) ops) :
    (∀ ops', ops' <+: ops → (Runs.run step (create T capacity refillPerSec nowMs) ops').Sound) ↔
      Runs.Meets step CoalescesUnidentified (create T capacity refillPerSec nowMs) ops := by
  have hkept : (create T capacity refillPerSec nowMs).Kept := kept_create ..
  have hcreate : (create T capacity refillPerSec nowMs).OnlyUnidentifiedReplaced :=
    fun _ hpair => nomatch hpair
  have hiff := Runs.throughout_iff_meets_of_legal kept_step
    (fun a op h _ honly => onlyUnidentifiedReplaced_step op h honly) hkept hcreate hlegal
  rw [← hiff, Runs.throughout_iff]
  have hkepts := Runs.throughout_iff.mp (Runs.throughout_of_meets kept_step hkept hlegal)
  refine forall₂_congr fun ops' hops' => ⟨Sound.onlyUnidentified, fun honly => ?_⟩
  exact ⟨(hkepts ops' hops').accounted, (hkepts ops' hops').paid.within, honly⟩

end Runs

/-- A live edit of session `s` under key `k`. -/
def liveEdit (itemId : Option JsString) : RateLimitItem Rat Unit :=
  ⟨js "s", .live, some (js "k"), itemId, none, ()⟩

/-- An edit with an id, and one without. -/
def identifiedThenNot : List (PoolOperation Rat Unit (Nat × Unit)) :=
  [.submit (liveEdit (some (js "x"))), .submit (liveEdit none)]

theorem identified_replaced :
    Runs.Meets step Legal (create Unit none none (0 : Rat)) identifiedThenNot ∧
      ¬ (Runs.run step (create Unit none none (0 : Rat)) identifiedThenNot).Sound := by
  constructor
  · refine ⟨?_, ?_, trivial⟩
    · show idFor _ _ ∉ _
      decide
    · show idFor _ _ ∉ _
      decide
  · intro hsound
    have hnumber : ((Runs.run step (create Unit none none (0 : Rat)) identifiedThenNot).replaced.map
        fun pair => pair.1.number) = [0] := by decide
    obtain ⟨pair, hpair, hzero⟩ : ∃ pair ∈ (Runs.run step (create Unit none none (0 : Rat))
        identifiedThenNot).replaced, pair.1.number = 0 :=
      mem_map.mp (hnumber ▸ mem_singleton_self 0)
    have hnone := hsound.onlyUnidentified pair hpair (liveEdit (some (js "x"))) (by
      rw [hzero]
      rfl)
    cases hnone

/-- Two edits without ids, a drain and a removal. -/
def twoEdits : List (PoolOperation Rat Unit (Nat × Unit)) :=
  [.submit (liveEdit none), .submit (liveEdit none), .drainWithExpired 0,
    .removeById (js "x")]

theorem sound_iff_coalescesUnidentified_twoEdits : (∀ ops', ops' <+: twoEdits →
        (Runs.run step (create Unit none none (0 : Rat)) ops').Sound) ↔
      Runs.Meets step CoalescesUnidentified (create Unit none none (0 : Rat)) twoEdits :=
  sound_iff_coalescesUnidentified none none 0 twoEdits (by
    refine ⟨?_, ?_, fun t ht => ?_, trivial, trivial⟩
    · show idFor _ _ ∉ _
      decide
    · show idFor _ _ ∉ _
      decide
    · cases ht)

theorem kept_run_twoEdits : (Runs.run step (create Unit none none (0 : Rat)) twoEdits).Kept := by
  refine kept_run (kept_create none none 0) ⟨?_, ?_, fun t ht => ?_, trivial, trivial⟩
  · show idFor _ _ ∉ _
    decide
  · show idFor _ _ ∉ _
    decide
  · cases ht

end PoolAccount
end GajaeCode
