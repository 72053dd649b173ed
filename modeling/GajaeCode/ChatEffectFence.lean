import Mathlib.Data.List.Nodup
import GajaeCode.ChatEffectJournal
import GajaeCode.Runs

/-! # Chat effects are fenced by lease epochs

What the calls on one effect returned makes a list of events, the latest first.  `Moves`
says what a call can do to the record of the effect, and with which event.  The fence is an
invariant of the record and the events: the epoch of a record is that of its last claim,
and a lease is held from the claim that granted it to the call that settled it.
-/
namespace GajaeCode
open JsString List

/-- What a successful call says about an effect. -/
inductive EffectEvent where
  | claimed (lease : ChatEffectLease)
  | renewed (lease : ChatEffectLease)
  | receipted (lease : ChatEffectLease)
  | recorded (lease : ChatEffectLease) (state : RecordedState)
  | terminalized (lease : Option ChatEffectLease) (epoch : Nat)
  deriving DecidableEq

namespace EffectEvent

def claimedLease : EffectEvent → Option ChatEffectLease
  | claimed lease => some lease
  | _ => none

/-- The lease by which the holder of an effect acted. -/
def usedLease : EffectEvent → Option ChatEffectLease
  | renewed lease => some lease
  | receipted lease => some lease
  | recorded lease _ => some lease
  | _ => none

/-- The epoch of the effect when a record or a termination succeeded. -/
def settledEpoch : EffectEvent → Option Nat
  | recorded lease _ => some lease.epoch
  | terminalized _ epoch => some epoch
  | _ => none

def isTerminal : EffectEvent → Bool
  | recorded _ state => state = .terminal
  | terminalized _ _ => true
  | _ => false

end EffectEvent

/-- Every event of a history fits the ones before it. -/
def EachAfter (fits : EffectEvent → List EffectEvent → Prop) : List EffectEvent → Prop
  | [] => True
  | event :: earlier => fits event earlier ∧ EachAfter fits earlier

/-- The lease that was granted last. -/
def lastClaim (events : List EffectEvent) : Option ChatEffectLease :=
  events.findSome? EffectEvent.claimedLease

def settlements (events : List EffectEvent) (epoch : Nat) : List EffectEvent :=
  events.filter fun event => event.settledEpoch = some epoch

/-- One settlement at most, or a record that is not terminal and then a termination. -/
def SettledOnce (settlements : List EffectEvent) : Prop :=
  settlements.length ≤ 1 ∨ ∃ lease' epoch lease state,
    settlements = [.terminalized lease' epoch, .recorded lease state] ∧ state ≠ .terminal

namespace ChatEffectOperation
variable {N P : Type}

/-- The event of a call that returned an effect. -/
def event (op : ChatEffectOperation N P) (effect : ChatEffect N P) : Option EffectEvent :=
  match op with
  | enqueue _ _ => none
  | enqueueAndClaim _ owner _ _ => some (.claimed ⟨owner, effect.epoch⟩)
  | claim _ owner _ _ => some (.claimed ⟨owner, effect.epoch⟩)
  | renew _ lease _ _ => some (.renewed lease)
  | recordReceipt _ lease _ _ => some (.receipted lease)
  | record _ lease state _ _ => some (.recorded lease state)
  | terminalize _ _ lease _ => some (.terminalized lease effect.epoch)

end ChatEffectOperation

/-- The journal, with the events of one effect. -/
structure EffectTrace (N P : Type) where
  effects : ChatEffects N P
  events : List EffectEvent

namespace EffectTrace
open ChatEffectJournal
variable {N P : Type}
variable {effect next : ChatEffect N P} {lease : ChatEffectLease}
variable {owner : JsString} {epoch : Nat}

def start : EffectTrace N P := ⟨fun _ => none, []⟩

/-- What a call moves the record of its effect to, with which event. -/
inductive Moves : Option (ChatEffect N P) → Option EffectEvent → Option (ChatEffect N P) → Prop
  | stays (current : Option (ChatEffect N P)) : Moves current none current
  | enqueued (next : ChatEffect N P) (hstate : next.state = .pending) (hepoch : next.epoch = 0) :
    Moves none none (some next)
  | inserted (next : ChatEffect N P) (owner : JsString) (hstate : next.state = .leased)
      (howner : next.owner = some owner) (hepoch : next.epoch = 1) :
    Moves none (some (.claimed ⟨owner, 1⟩)) (some next)
  | claimed (current next : ChatEffect N P) (owner : JsString)
      (hfree : current.state = .uncertain → ¬ isInbound current)
      (hterminal : current.state ≠ .terminal) (hstate : next.state = .leased)
      (howner : next.owner = some owner) (hepoch : next.epoch = current.epoch + 1)
      (hkind : next.kind = current.kind) :
    Moves (some current) (some (.claimed ⟨owner, current.epoch + 1⟩)) (some next)
  | renewed (current next : ChatEffect N P) (lease : ChatEffectLease)
      (hheld : heldBy current lease) (hheld' : heldBy next lease)
      (hkind : next.kind = current.kind) :
    Moves (some current) (some (.renewed lease)) (some next)
  | receipted (current next : ChatEffect N P) (lease : ChatEffectLease)
      (hheld : heldBy current lease) (hheld' : heldBy next lease)
      (hkind : next.kind = current.kind) :
    Moves (some current) (some (.receipted lease)) (some next)
  | recorded (current next : ChatEffect N P) (lease : ChatEffectLease) (state : RecordedState)
      (hheld : heldBy current lease) (hstate : next.state = state.toState)
      (hepoch : next.epoch = current.epoch) (hkind : next.kind = current.kind) :
    Moves (some current) (some (.recorded lease state)) (some next)
  | terminalized (current next : ChatEffect N P) (lease : Option ChatEffectLease)
      (hterminal : current.state ≠ .terminal)
      (hheld : current.state = .leased → ∃ held, lease = some held ∧ heldBy current held)
      (hstate : next.state = .terminal) (hepoch : next.epoch = current.epoch)
      (hkind : next.kind = current.kind) :
    Moves (some current) (some (.terminalized lease current.epoch)) (some next)

/-- A call did nothing to the effect `id`, or moved its record. -/
def Steps (effects : ChatEffects N P) (id : JsString)
    (event : ChatEffect N P → Option EffectEvent)
    (r : ChatEffectAnswer N P) : Prop :=
  (r.1 = effects ∧ ∀ effect, r.2 ≠ .ok (some effect)) ∨
    ∃ next, r = (Function.update effects id (some next), .ok (some next)) ∧
      Moves (effects id) (event next) (some next)

section
variable {effects : ChatEffects N P} {id : JsString}
  {event : ChatEffect N P → Option EffectEvent}

theorem Steps.guarded {check : Except ChatEffectError Unit}
    {rest : ChatEffectAnswer N P}
    (h : Steps effects id event rest) :
    Steps effects id event (ChatEffectJournal.guarded effects check rest) := by
  cases check with
  | error e => exact .inl ⟨rfl, fun _ h => nomatch h⟩
  | ok _ => exact h

theorem steps_transact
    {update : Option (ChatEffect N P) → Except ChatEffectError (Option (ChatEffect N P))}
    (h : ∀ next, update (effects id) = .ok (some next) →
      Moves (effects id) (event next) (some next)) :
    Steps effects id event (transact effects id update) := by
  unfold transact
  split
  · exact .inl ⟨rfl, fun _ h => nomatch h⟩
  · exact .inl ⟨rfl, fun _ h => nomatch h⟩
  · next next hupdate =>
    simp only
    split_ifs
    · exact .inr ⟨next, rfl, h next hupdate⟩
    · exact .inl ⟨rfl, fun _ h => nomatch h⟩

theorem steps_byHolder {lease : ChatEffectLease} {update : ChatEffect N P → ChatEffect N P}
    (h : ∀ current, heldBy current lease →
      Moves (some current) (event { update current with generation := current.generation + 1 })
        (some { update current with generation := current.generation + 1 })) :
    Steps effects id event (byHolder effects id lease update) := by
  refine steps_transact fun next hnext => ?_
  cases hcurrent : effects id with
  | none =>
    rw [hcurrent] at hnext
    cases hnext
  | some current =>
    rw [hcurrent] at hnext
    by_cases hheld : heldBy current lease
    · obtain rfl := some.inj (Except.ok.inj ((if_pos hheld).symm.trans hnext))
      exact h current hheld
    · exact nomatch Except.ok.inj ((if_neg hheld).symm.trans hnext)

end

theorem heldBy_iff : heldBy effect lease ↔
      effect.state = .leased ∧ effect.owner = some lease.owner ∧ effect.epoch = lease.epoch := by
  simp [heldBy, and_assoc]

theorem canClaim_cases {numbers : LeaseNumbers N} {now : N} (h : canClaim numbers effect now) :
    (effect.state = .uncertain → ¬ isInbound effect) ∧ effect.state ≠ .terminal := by
  unfold canClaim at h
  cases hstate : effect.state <;> simp_all

theorem steps_claim (numbers : LeaseNumbers N) (effects : ChatEffects N P) (id owner : JsString)
    (leaseMs now : N) : Steps effects id (fun effect => some (.claimed ⟨owner, effect.epoch⟩))
      (claim numbers effects id owner leaseMs now) := by
  refine Steps.guarded (Steps.guarded (steps_transact fun next hnext => ?_))
  cases hcurrent : effects id with
  | none =>
    rw [hcurrent] at hnext
    cases hnext
  | some current =>
    rw [hcurrent] at hnext
    by_cases hclaim : canClaim numbers current now
    · obtain rfl := some.inj (Except.ok.inj ((if_pos hclaim).symm.trans hnext))
      obtain ⟨hfree, hterminal⟩ := canClaim_cases hclaim
      exact .claimed current _ owner hfree hterminal rfl rfl rfl rfl
    · exact nomatch Except.ok.inj ((if_neg hclaim).symm.trans hnext)

theorem steps_terminalize (effects : ChatEffects N P) (id : JsString)
    (receipt : ChatEffectReceipt) (lease : Option ChatEffectLease) (now : N) :
    Steps effects id (fun effect => some (.terminalized lease effect.epoch))
      (terminalize effects id receipt lease now) := by
  refine steps_transact fun next hnext => ?_
  cases hcurrent : effects id with
  | none =>
    rw [hcurrent] at hnext
    cases hnext
  | some current =>
    rw [hcurrent] at hnext
    by_cases hterminal : current.state = .terminal
    · exact nomatch Except.ok.inj ((if_pos hterminal).symm.trans hnext)
    · replace hnext := (if_neg hterminal).symm.trans hnext
      by_cases hheld : current.state = .leased && !lease.any (heldBy current)
      · exact nomatch Except.ok.inj ((if_pos hheld).symm.trans hnext)
      · obtain rfl := some.inj (Except.ok.inj ((if_neg hheld).symm.trans hnext))
        refine .terminalized current _ lease hterminal (fun hleased => ?_) rfl rfl rfl
        cases lease with
        | none => simp [hleased] at hheld
        | some held => exact ⟨held, rfl, by simpa [hleased] using hheld⟩

section
variable [DecidableEq N] [DecidableEq P] (numbers : LeaseNumbers N)

theorem steps_enqueue (effects : ChatEffects N P) (input : EnqueueChatEffect N P) (now : N) :
    Steps effects input.id (fun _ => none) (enqueue effects input now) := by
  refine Steps.guarded (Steps.guarded ?_)
  cases hexisting : effects input.id with
  | none =>
    refine steps_transact fun next hnext => ?_
    obtain rfl := some.inj (Except.ok.inj hnext)
    rw [hexisting]
    exact .enqueued _ rfl rfl
  | some existing =>
    simp only
    cases requireImmutableEnqueueIdentity existing input with
    | error e => exact .inl ⟨rfl, fun _ h => nomatch h⟩
    | ok _ =>
      refine .inr ⟨existing, ?_, ?_⟩
      · rw [← hexisting, Function.update_eq_self]
        rfl
      · rw [hexisting]
        exact .stays _

theorem steps_enqueueAndClaim (effects : ChatEffects N P) (input : EnqueueChatEffect N P)
    (owner : JsString) (leaseMs now : N) :
    Steps effects input.id (fun effect => some (.claimed ⟨owner, effect.epoch⟩))
      (enqueueAndClaim numbers effects input owner leaseMs now) := by
  refine Steps.guarded (Steps.guarded (Steps.guarded (Steps.guarded ?_)))
  refine steps_transact fun next hnext => ?_
  cases hcurrent : effects input.id with
  | none =>
    rw [hcurrent] at hnext
    obtain rfl := some.inj (Except.ok.inj hnext)
    exact .inserted _ owner rfl rfl rfl
  | some current =>
    rw [hcurrent] at hnext
    cases hidentity : requireImmutableEnqueueIdentity current input with
    | error e | ok _ => simp [hidentity, Except.map] at hnext

/-- **What a call can do.** -/
theorem steps_perform (effects : ChatEffects N P) (op : ChatEffectOperation N P) :
    Steps effects op.id op.event (op.perform numbers effects) := by
  cases op with
  | enqueue input now => exact steps_enqueue effects input now
  | enqueueAndClaim input owner leaseMs now =>
    exact steps_enqueueAndClaim numbers effects input owner leaseMs now
  | claim id owner leaseMs now => exact steps_claim numbers effects id owner leaseMs now
  | renew id lease leaseMs now =>
    refine Steps.guarded (steps_byHolder fun current hheld => ?_)
    exact .renewed current _ lease hheld hheld rfl
  | recordReceipt id lease receipt now =>
    refine steps_byHolder fun current hheld => ?_
    exact .receipted current _ lease hheld hheld rfl
  | record id lease state receipt now =>
    refine steps_byHolder fun current hheld => ?_
    exact .recorded current _ lease state hheld rfl rfl rfl
  | terminalize id receipt lease now => exact steps_terminalize effects id receipt lease now

/-- A call, with its event if it is about the effect `id`. -/
def step (id : JsString) (t : EffectTrace N P) (op : ChatEffectOperation N P) :
    EffectTrace N P where
  effects := (op.perform numbers t.effects).1
  events :=
    match (op.perform numbers t.effects).2 with
    | .ok (some effect) => if op.id = id then (op.event effect).toList ++ t.events else t.events
    | _ => t.events

theorem step_moves (id : JsString) (t : EffectTrace N P) (op : ChatEffectOperation N P) :
    ∃ event, Moves (t.effects id) event ((t.step numbers id op).effects id) ∧
      (t.step numbers id op).events = event.toList ++ t.events := by
  rcases steps_perform numbers t.effects op with ⟨heffects, hnone⟩ | ⟨next, heq, hmoves⟩
  · refine ⟨none, ?_, ?_⟩
    · rw [step, heffects]
      exact .stays _
    · rw [step]
      split
      · next effect hsome => exact absurd hsome (hnone effect)
      · rfl
  · rw [step, heq]
    by_cases hid : op.id = id
    · subst hid
      refine ⟨op.event next, ?_, if_pos rfl⟩
      simpa using hmoves
    · refine ⟨none, ?_, if_neg hid⟩
      show Moves _ none (Function.update t.effects op.id (some next) id)
      rw [Function.update_of_ne (Ne.symm hid)]
      exact .stays _

end

/-! ## The fence -/

/-- Leases are used only by their holders, epochs are granted once and settled once, and
what is terminal stays so. -/
structure Fenced (current : Option (ChatEffect N P)) (events : List EffectEvent) : Prop where
  /-- whoever acts by a lease got it by the last claim -/
  used_by_holder : EachAfter (fun event earlier => ∀ lease, event.usedLease = some lease →
    lastClaim earlier = some lease) events
  granted_once : (events.filterMap EffectEvent.claimedLease).Pairwise (·.epoch ≠ ·.epoch)
  settled_once : ∀ epoch, SettledOnce (settlements events epoch)
  /-- an effect under a lease that was not settled is terminated only by its holder -/
  terminalized_by_holder : EachAfter (fun event earlier => ∀ lease held,
    event = .terminalized lease held.epoch → lastClaim earlier = some held →
    settlements earlier held.epoch = [] → lease = some held) events
  /-- after a call that left the effect terminal, none succeeds -/
  terminal_last : EachAfter (fun _ earlier => ∀ e ∈ earlier, ¬ e.isTerminal) events
  /-- no claim comes after an inbound effect was recorded as uncertain -/
  inbound_uncertain : ∀ effect, current = some effect → isInbound effect →
    EachAfter (fun event earlier => event.claimedLease ≠ none →
      ∀ lease, .recorded lease .uncertain ∉ earlier) events

/-- How the record of an effect agrees with what has happened to it. -/
structure Follows (effect : ChatEffect N P) (events : List EffectEvent) : Prop where
  claimed_le : ∀ lease ∈ events.filterMap EffectEvent.claimedLease, lease.epoch ≤ effect.epoch
  settled_le : ∀ event ∈ events, ∀ epoch, event.settledEpoch = some epoch → epoch ≤ effect.epoch
  pending : effect.state = .pending → events = [] ∧ effect.epoch = 0
  leased : effect.state = .leased → settlements events effect.epoch = [] ∧
    ∃ lease, lastClaim events = some lease ∧ heldBy effect lease
  recorded : effect.state = .accepted ∨ effect.state = .uncertain → ∃ lease state,
    settlements events effect.epoch = [.recorded lease state] ∧ state.toState = effect.state
  live : effect.state ≠ .terminal → ∀ event ∈ events, ¬ event.isTerminal
  inbound : isInbound effect → ∀ lease, .recorded lease .uncertain ∈ events →
    effect.state = .uncertain ∨ effect.state = .terminal

theorem heldBy_unique {lease' : ChatEffectLease} (h : heldBy effect lease)
    (h' : heldBy effect lease') : lease = lease' := by
  obtain ⟨-, howner, hepoch⟩ := heldBy_iff.mp h
  obtain ⟨-, howner', hepoch'⟩ := heldBy_iff.mp h'
  have howners : lease.owner = lease'.owner := some.inj (howner.symm.trans howner')
  have hepochs : lease.epoch = lease'.epoch := hepoch.symm.trans hepoch'
  cases lease
  cases lease'
  exact congr (congrArg ChatEffectLease.mk howners) hepochs

theorem settlements_cons_of_eq {event : EffectEvent} (h : event.settledEpoch = some epoch)
    (events : List EffectEvent) :
    settlements (event :: events) epoch = event :: settlements events epoch :=
  filter_cons_of_pos (decide_eq_true h)

theorem settlements_cons_of_ne {event : EffectEvent} (h : event.settledEpoch ≠ some epoch)
    (events : List EffectEvent) : settlements (event :: events) epoch = settlements events epoch :=
  filter_cons_of_neg (by simpa using h)

/-- The record and the events of an effect that is fenced. -/
structure Guarded (current : Option (ChatEffect N P)) (events : List EffectEvent) : Prop where
  fenced : Fenced current events
  absent : current = none → events = []
  follows : ∀ effect, current = some effect → Follows effect events

theorem Guarded.of {events : List EffectEvent} (hfenced : Fenced (some next) events)
    (hfollows : Follows next events) : Guarded (some next) events :=
  ⟨hfenced, nofun, fun _ heq => some.inj heq ▸ hfollows⟩

theorem isInbound_of_kind (hkind : next.kind = effect.kind) : isInbound next = isInbound effect := by
  rw [isInbound, isInbound, hkind]

theorem guarded_claimed {events : List EffectEvent} (h : Guarded (some effect) events)
    (hfree : effect.state = .uncertain → ¬ isInbound effect) (hterminal : effect.state ≠ .terminal)
    (hstate : next.state = .leased) (howner : next.owner = some owner)
    (hepoch : next.epoch = effect.epoch + 1) (hkind : next.kind = effect.kind) :
    Guarded (some next) (.claimed ⟨owner, effect.epoch + 1⟩ :: events) := by
  obtain ⟨hfenced, -, hfollows⟩ := h
  have hf := hfollows effect rfl
  have hinbound := isInbound_of_kind hkind
  have hnone : isInbound effect → ∀ lease, .recorded lease .uncertain ∉ events := by
    intro hin lease hmem
    rcases hf.inbound hin lease hmem with huncertain | hterm
    · exact hfree huncertain hin
    · exact hterminal hterm
  have hunsettled : settlements events next.epoch = [] := by
    refine filter_eq_nil_iff.mpr fun event hevent hsettled => ?_
    have hle := hf.settled_le event hevent next.epoch (of_decide_eq_true hsettled)
    omega
  have hheld : heldBy next ⟨owner, effect.epoch + 1⟩ := heldBy_iff.mpr ⟨hstate, howner, hepoch⟩
  refine .of ?_ ?_
  · refine ⟨⟨fun lease hused => (nomatch hused), hfenced.used_by_holder⟩, ?_, ?_,
      ⟨fun lease held heq => (nomatch heq), hfenced.terminalized_by_holder⟩,
      ⟨hf.live hterminal, hfenced.terminal_last⟩, ?_⟩
    · refine pairwise_cons.mpr ⟨fun lease hlease => ?_, hfenced.granted_once⟩
      have hle := hf.claimed_le lease hlease
      show effect.epoch + 1 ≠ lease.epoch
      omega
    · intro epoch
      rw [settlements_cons_of_ne (by exact nofun)]
      exact hfenced.settled_once epoch
    · intro effect' heq hin
      obtain rfl := some.inj heq
      rw [hinbound] at hin
      exact ⟨fun _ => hnone hin, hfenced.inbound_uncertain effect rfl hin⟩
  · refine ⟨?_, ?_, fun h => ?_, fun _ => ⟨?_, _, rfl, hheld⟩, fun h => ?_, fun _ => ?_, ?_⟩
    · refine forall_mem_cons.mpr ⟨hepoch.ge, fun lease hlease => ?_⟩
      have hle := hf.claimed_le lease hlease
      omega
    · refine forall_mem_cons.mpr ⟨fun epoch h => (nomatch h), fun event hevent epoch h => ?_⟩
      have hle := hf.settled_le event hevent epoch h
      omega
    · rw [hstate] at h
      cases h
    · rw [settlements_cons_of_ne (by exact nofun)]
      exact hunsettled
    · rw [hstate] at h
      rcases h with h | h <;> cases h
    · exact forall_mem_cons.mpr ⟨fun h => (nomatch h), hf.live hterminal⟩
    · intro hin lease hmem
      rw [hinbound] at hin
      rcases mem_cons.mp hmem with heq | hmem
      · cases heq
      · exact absurd hmem (hnone hin lease)

theorem fenced_nil (current : Option (ChatEffect N P)) : Fenced current [] :=
  ⟨trivial, List.Pairwise.nil, fun _ => .inl (Nat.zero_le _), trivial, trivial,
    fun _ _ _ => trivial⟩

theorem guarded_enqueued (hstate : next.state = .pending) (hepoch : next.epoch = 0) :
    Guarded (some next) [] := by
  refine ⟨fenced_nil _, fun _ => rfl, fun effect heq => ?_⟩
  obtain rfl := some.inj heq
  refine ⟨fun _ h => (nomatch h), fun _ h => (nomatch h), fun _ => ⟨rfl, hepoch⟩, fun h => ?_,
    fun h => ?_, fun _ _ h => (nomatch h), fun _ _ h => (nomatch h)⟩
  · rw [hstate] at h
    cases h
  · rw [hstate] at h
    rcases h with h | h <;> cases h

/-- The first claim of an effect, by the call that inserts it. -/
theorem guarded_inserted (hstate : next.state = .leased) (howner : next.owner = some owner)
    (hepoch : next.epoch = 1) : Guarded (some next) [.claimed ⟨owner, 1⟩] := by
  have hheld : heldBy next ⟨owner, 1⟩ := heldBy_iff.mpr ⟨hstate, howner, hepoch⟩
  refine .of ?_ ?_
  · refine ⟨⟨fun lease hused => (nomatch hused), trivial⟩, pairwise_singleton _ _,
      fun epoch => .inl (Nat.zero_le _), ⟨fun lease held heq => (nomatch heq), trivial⟩,
      ⟨fun e he => (nomatch he), trivial⟩, fun effect' _ _ => ⟨fun _ lease hmem => ?_, trivial⟩⟩
    cases hmem
  · refine ⟨?_, ?_, fun h => ?_, fun _ => ⟨rfl, _, rfl, hheld⟩, fun h => ?_, fun _ => ?_, ?_⟩
    · exact forall_mem_cons.mpr ⟨hepoch.ge, fun _ h => nomatch h⟩
    · exact forall_mem_cons.mpr ⟨fun _ h => (nomatch h), fun _ h => nomatch h⟩
    · rw [hstate] at h
      cases h
    · rw [hstate] at h
      rcases h with h | h <;> cases h
    · exact forall_mem_cons.mpr ⟨fun h => (nomatch h), fun _ h => nomatch h⟩
    · intro _ lease hmem
      cases mem_singleton.mp hmem

section
variable {events : List EffectEvent} (h : Guarded (some effect) events)
include h

theorem guarded_used {event : EffectEvent} (hused : event.usedLease = some lease)
    (hclaimed : event.claimedLease = none) (hsettled : event.settledEpoch = none)
    (hterminal : ¬ event.isTerminal) (hheld : heldBy effect lease) (hheld' : heldBy next lease)
    (hkind : next.kind = effect.kind) : Guarded (some next) (event :: events) := by
  obtain ⟨hfenced, -, hfollows⟩ := h
  have hf := hfollows effect rfl
  have hinbound := isInbound_of_kind hkind
  obtain ⟨hstate, -, hepoch⟩ := heldBy_iff.mp hheld
  obtain ⟨hstate', -, hepoch'⟩ := heldBy_iff.mp hheld'
  have hepochs : next.epoch = effect.epoch := hepoch'.trans hepoch.symm
  obtain ⟨hunsettled, held, hlast, hholds⟩ := hf.leased hstate
  obtain rfl := heldBy_unique hheld hholds
  have hclaims : (event :: events).filterMap EffectEvent.claimedLease =
      events.filterMap EffectEvent.claimedLease := filterMap_cons_none hclaimed
  have hsettlements : ∀ epoch, settlements (event :: events) epoch = settlements events epoch := by
    intro epoch
    rw [settlements_cons_of_ne (by rw [hsettled]; exact nofun)]
  have hnot : ∀ lease state, event ≠ .recorded lease state := by
    rintro lease state rfl
    cases hsettled
  have hlive := hf.live (by rw [hstate]; decide)
  refine .of ?_ ?_
  · refine ⟨⟨fun other hother => ?_, hfenced.used_by_holder⟩, ?_, fun epoch => ?_,
      ⟨fun other held heq => ?_, hfenced.terminalized_by_holder⟩,
      ⟨hlive, hfenced.terminal_last⟩, fun effect' heq hin => ?_⟩
    · rw [hlast, ← hused, hother]
    · rw [hclaims]
      exact hfenced.granted_once
    · rw [hsettlements]
      exact hfenced.settled_once epoch
    · rw [heq] at hsettled
      cases hsettled
    · obtain rfl := some.inj heq
      rw [hinbound] at hin
      exact ⟨fun h => absurd hclaimed h, hfenced.inbound_uncertain effect rfl hin⟩
  · refine ⟨?_, ?_, fun h => ?_, fun _ => ⟨?_, lease, ?_, hheld'⟩, fun h => ?_, fun _ => ?_, ?_⟩
    · rw [hclaims, hepochs]
      exact hf.claimed_le
    · refine forall_mem_cons.mpr ⟨fun epoch h => ?_, ?_⟩
      · rw [hsettled] at h
        cases h
      · rw [hepochs]
        exact hf.settled_le
    · rw [hstate'] at h
      cases h
    · rw [hsettlements, hepochs]
      exact hunsettled
    · rw [lastClaim, findSome?_cons, hclaimed]
      exact hlast
    · rw [hstate'] at h
      rcases h with h | h <;> cases h
    · exact forall_mem_cons.mpr ⟨hterminal, hlive⟩
    · intro hin other hmem
      rw [hinbound] at hin
      rcases mem_cons.mp hmem with heq | hmem
      · exact absurd heq.symm (hnot other .uncertain)
      · rcases hf.inbound hin other hmem with h | h <;> rw [hstate] at h <;> cases h

theorem guarded_recorded {state : RecordedState} (hheld : heldBy effect lease)
    (hstate' : next.state = state.toState) (hepochs : next.epoch = effect.epoch)
    (hkind : next.kind = effect.kind) : Guarded (some next) (.recorded lease state :: events) := by
  obtain ⟨hfenced, -, hfollows⟩ := h
  have hf := hfollows effect rfl
  have hinbound := isInbound_of_kind hkind
  obtain ⟨hstate, -, hepoch⟩ := heldBy_iff.mp hheld
  obtain ⟨hunsettled, held, hlast, hholds⟩ := hf.leased hstate
  obtain rfl := heldBy_unique hheld hholds
  have hlive := hf.live (by rw [hstate]; decide)
  have hsettlements : settlements (.recorded lease state :: events) effect.epoch =
      [.recorded lease state] := by
    rw [settlements_cons_of_eq, hunsettled]
    exact congrArg some hepoch.symm
  refine .of ?_ ?_
  · refine ⟨⟨fun other hother => ?_, hfenced.used_by_holder⟩, hfenced.granted_once,
      fun epoch => ?_, ⟨fun other held heq => (nomatch heq), hfenced.terminalized_by_holder⟩,
      ⟨hlive, hfenced.terminal_last⟩, fun effect' heq hin => ?_⟩
    · rw [hlast]
      exact hother
    · by_cases heq : epoch = effect.epoch
      · subst heq
        rw [hsettlements]
        exact .inl (Nat.le_refl _)
      · rw [settlements_cons_of_ne]
        · exact hfenced.settled_once epoch
        · exact fun h => heq ((some.inj h).symm.trans hepoch.symm)
    · obtain rfl := some.inj heq
      rw [hinbound] at hin
      exact ⟨fun h => absurd rfl h, hfenced.inbound_uncertain effect rfl hin⟩
  · refine ⟨?_, ?_, fun h => ?_, fun h => ?_, fun _ => ⟨lease, state, ?_, hstate'.symm⟩,
      fun h => ?_, ?_⟩
    · rw [hepochs]
      exact hf.claimed_le
    · rw [hepochs]
      refine forall_mem_cons.mpr ⟨fun epoch h => ?_, hf.settled_le⟩
      exact (hepoch.trans (some.inj h)).ge
    · rw [hstate'] at h
      cases state <;> cases h
    · rw [hstate'] at h
      cases state <;> cases h
    · rw [hepochs]
      exact hsettlements
    · refine forall_mem_cons.mpr ⟨fun hterminal => h ?_, hlive⟩
      rw [hstate', of_decide_eq_true hterminal]
      rfl
    · intro hin other hmem
      rw [hinbound] at hin
      rcases mem_cons.mp hmem with heq | hmem
      · obtain ⟨-, rfl⟩ := EffectEvent.recorded.inj heq
        exact .inl hstate'
      · rcases hf.inbound hin other hmem with h | h <;> rw [hstate] at h <;> cases h

theorem guarded_terminalized {lease : Option ChatEffectLease} (hterminal : effect.state ≠ .terminal)
    (hheld : effect.state = .leased → ∃ held, lease = some held ∧ heldBy effect held)
    (hstate' : next.state = .terminal) (hepochs : next.epoch = effect.epoch)
    (hkind : next.kind = effect.kind) :
    Guarded (some next) (.terminalized lease effect.epoch :: events) := by
  obtain ⟨hfenced, -, hfollows⟩ := h
  have hf := hfollows effect rfl
  have hinbound := isInbound_of_kind hkind
  refine .of ?_ ?_
  · refine ⟨⟨fun other hother => (nomatch hother), hfenced.used_by_holder⟩, hfenced.granted_once,
      fun epoch => ?_, ⟨fun other held heq hlast hunsettled => ?_, hfenced.terminalized_by_holder⟩,
      ⟨hf.live hterminal, hfenced.terminal_last⟩, fun effect' heq hin => ?_⟩
    · by_cases heq : epoch = effect.epoch
      · subst heq
        rw [settlements_cons_of_eq rfl]
        cases hstate : effect.state with
        | pending =>
          obtain ⟨rfl, -⟩ := hf.pending hstate
          exact .inl (Nat.le_refl _)
        | leased =>
          rw [(hf.leased hstate).1]
          exact .inl (Nat.le_refl _)
        | accepted =>
          obtain ⟨held, state, hsettled, hsame⟩ := hf.recorded (.inl hstate)
          rw [hsettled]
          refine .inr ⟨_, _, _, _, rfl, fun h => ?_⟩
          rw [h, hstate] at hsame
          cases hsame
        | uncertain =>
          obtain ⟨held, state, hsettled, hsame⟩ := hf.recorded (.inr hstate)
          rw [hsettled]
          refine .inr ⟨_, _, _, _, rfl, fun h => ?_⟩
          rw [h, hstate] at hsame
          cases hsame
        | terminal => exact absurd hstate hterminal
      · rw [settlements_cons_of_ne]
        · exact hfenced.settled_once epoch
        · exact fun h => heq (some.inj h).symm
    · obtain ⟨rfl, hepoch⟩ := EffectEvent.terminalized.inj heq
      rw [← hepoch] at hunsettled
      cases hstate : effect.state with
      | pending =>
        obtain ⟨rfl, -⟩ := hf.pending hstate
        cases hlast
      | leased =>
        obtain ⟨-, last, hlast', hholds⟩ := hf.leased hstate
        obtain ⟨mine, rfl, hmine⟩ := hheld hstate
        rw [heldBy_unique hmine hholds, ← hlast', hlast]
      | accepted =>
        obtain ⟨_, _, hsettled, -⟩ := hf.recorded (.inl hstate)
        rw [hunsettled] at hsettled
        cases hsettled
      | uncertain =>
        obtain ⟨_, _, hsettled, -⟩ := hf.recorded (.inr hstate)
        rw [hunsettled] at hsettled
        cases hsettled
      | terminal => exact absurd hstate hterminal
    · obtain rfl := some.inj heq
      rw [hinbound] at hin
      exact ⟨fun h => absurd rfl h, hfenced.inbound_uncertain effect rfl hin⟩
  · refine ⟨?_, ?_, fun h => ?_, fun h => ?_, fun h => ?_, fun h => absurd hstate' h,
      fun _ _ _ => .inr hstate'⟩
    · rw [hepochs]
      exact hf.claimed_le
    · rw [hepochs]
      refine forall_mem_cons.mpr ⟨fun epoch h => ?_, hf.settled_le⟩
      exact (some.inj h).ge
    · rw [hstate'] at h
      cases h
    · rw [hstate'] at h
      cases h
    · rw [hstate'] at h
      rcases h with h | h <;> cases h

end

theorem guarded_moves {current next : Option (ChatEffect N P)} {event : Option EffectEvent}
    {events : List EffectEvent} (h : Guarded current events) (hmoves : Moves current event next) :
    Guarded next (event.toList ++ events) := by
  cases hmoves with
  | stays => exact h
  | enqueued next hstate hepoch =>
    obtain rfl := h.absent rfl
    exact guarded_enqueued hstate hepoch
  | inserted next owner hstate howner hepoch =>
    obtain rfl := h.absent rfl
    exact guarded_inserted hstate howner hepoch
  | claimed effect next owner hfree hterminal hstate howner hepoch hkind =>
    exact guarded_claimed h hfree hterminal hstate howner hepoch hkind
  | renewed effect next lease hheld hheld' hkind =>
    exact guarded_used h rfl rfl rfl (fun h => nomatch h) hheld hheld' hkind
  | receipted effect next lease hheld hheld' hkind =>
    exact guarded_used h rfl rfl rfl (fun h => nomatch h) hheld hheld' hkind
  | recorded effect next lease state hheld hstate hepoch hkind =>
    exact guarded_recorded h hheld hstate hepoch hkind
  | terminalized effect next lease hterminal hheld hstate hepoch hkind =>
    exact guarded_terminalized h hterminal hheld hstate hepoch hkind

theorem moves_terminal (h : effect.state = .terminal) {event : Option EffectEvent}
    {next : Option (ChatEffect N P)} (hmoves : Moves (some effect) event next) :
    next = some effect ∧ event = none := by
  cases hmoves with
  | stays => exact ⟨rfl, rfl⟩
  | claimed _ next owner hfree hterminal => exact absurd h hterminal
  | renewed _ next lease hheld | receipted _ next lease hheld | recorded _ next lease state hheld =>
    exact absurd h (by rw [(heldBy_iff.mp hheld).1]; decide)
  | terminalized _ next lease hterminal => exact absurd h hterminal

section
variable [DecidableEq N] [DecidableEq P] (numbers : LeaseNumbers N)

theorem guarded_run (id : JsString) (ops : List (ChatEffectOperation N P)) :
    Guarded ((Runs.run (step numbers id) start ops).effects id)
      (Runs.run (step numbers id) start ops).events := by
  have hstart : Guarded (none : Option (ChatEffect N P)) [] :=
    ⟨fenced_nil _, fun _ => rfl, fun _ h => (nomatch h)⟩
  refine Runs.run_induction (J := fun t : EffectTrace N P => Guarded (t.effects id) t.events) ?_
    hstart ops
  intro t op h
  obtain ⟨event, hmoves, hevents⟩ := step_moves numbers id t op
  rw [hevents]
  exact guarded_moves h hmoves

theorem terminal_run (id : JsString) {t : EffectTrace N P} {effect : ChatEffect N P}
    (h : t.effects id = some effect) (hstate : effect.state = .terminal)
    (ops : List (ChatEffectOperation N P)) :
    (Runs.run (step numbers id) t ops).effects id = some effect := by
  refine Runs.run_induction (J := fun t : EffectTrace N P => t.effects id = some effect) ?_ h ops
  intro t op h
  obtain ⟨event, hmoves, -⟩ := step_moves numbers id t op
  rw [h] at hmoves
  exact (moves_terminal hstate hmoves).1

/-- **Chat effects are fenced by their epochs**, and terminal effects stay as they are. -/
theorem journal_fenced (id : JsString) (ops : List (ChatEffectOperation N P)) :
    Fenced ((Runs.run (step numbers id) start ops).effects id)
        (Runs.run (step numbers id) start ops).events ∧
      ∀ effect, (Runs.run (step numbers id) start ops).effects id = some effect →
        effect.state = .terminal → ∀ more,
          (Runs.run (step numbers id) start (ops ++ more)).effects id = some effect := by
  refine ⟨(guarded_run numbers id ops).fenced, fun effect heffect hstate more => ?_⟩
  rw [Runs.run_append]
  exact terminal_run numbers id heffect hstate more

end

def natLease : LeaseNumbers Nat := ⟨0, (· + ·), (· ≤ ·), (0 < ·)⟩

/-- Somebody claims an effect, records it as accepted and then terminates it, all by the
lease of epoch 1. -/
def acceptedThenTerminalized : List (ChatEffectOperation Nat Unit) :=
  [.enqueueAndClaim ⟨js "e", js "post", .slack, none, 1, (), none⟩ (js "o") 10 0,
    .record (js "e") ⟨js "o", 1⟩ .accepted none 1,
    .terminalize (js "e") ⟨none, none, none, none, none, none⟩ (some ⟨js "o", 1⟩) 2]

theorem epoch_settled_twice :
    ¬ ((Runs.run (step natLease (js "e")) start acceptedThenTerminalized).events.filterMap
      EffectEvent.settledEpoch).Nodup := by
  decide

end EffectTrace
end GajaeCode
