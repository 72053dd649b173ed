import Mathlib.Order.Nat
import GajaeCode.ReverseLeases
import GajaeCode.Runs

/-! # Provider leases are exclusive

A registration by another connection than the one that holds a live lease, or for which it
is reserved, is refused.  What carries it: a grace period is only given to a lease that has
expired (`WellTimed`), as the clock does not go back.  The one way around it is a replay:
registrations are kept under the texts of connection id and idempotency key, joined by a
NUL, and two connections can have such a text in common.
-/
namespace GajaeCode
open JsString

namespace ReverseLeaseRuntime
variable {N D V : Type}
variable {frames : List (JsString × ReverseRequest V)}

/-- The leases, the registrations, the clock and the frames sent are the same. -/
structure SameLeases (s s' : ReverseLeaseRuntime N D V) : Prop where
  leases : s'.leases = s.leases
  idempotency : s'.idempotency = s.idempotency
  sent : s'.sent = s.sent
  nextRef : s'.nextRef = s.nextRef
  clock : s'.clock = s.clock

theorem SameLeases.refl (s : ReverseLeaseRuntime N D V) : SameLeases s s :=
  ⟨rfl, rfl, rfl, rfl, rfl⟩

theorem SameLeases.trans {s s' s'' : ReverseLeaseRuntime N D V} (h : SameLeases s s')
    (h' : SameLeases s' s'') : SameLeases s s'' :=
  ⟨h'.leases.trans h.leases, h'.idempotency.trans h.idempotency, h'.sent.trans h.sent,
    h'.nextRef.trans h.nextRef, h'.clock.trans h.clock⟩

theorem andThen_ok {α β : Type} {r : ReverseResult N D V α}
    {rest : ReverseLeaseRuntime N D V → α → ReverseResult N D V β}
    {s' : ReverseLeaseRuntime N D V} {b : β} (h : andThen r rest = (s', .ok b)) :
    ∃ s a, r = (s, .ok a) ∧ rest s a = (s', .ok b) := by
  obtain ⟨s, _ | a⟩ := r
  · cases h
  · exact ⟨s, a, rfl, h⟩

/-- What holds after the first part of a call and after the rest holds after the call. -/
theorem andThen_inv {α β : Type} {I : ReverseLeaseRuntime N D V → Prop}
    {r : ReverseResult N D V α} {rest : ReverseLeaseRuntime N D V → α → ReverseResult N D V β}
    (h : I r.1) (hrest : ∀ s a, r = (s, .ok a) → I s → I (rest s a).1) : I (andThen r rest).1 := by
  obtain ⟨s, _ | a⟩ := r
  · exact h
  · exact hrest s a rfl h

section
variable (s : ReverseLeaseRuntime N D V) (hooks : ReverseHooks)

theorem sameLeases_removeDefinitions (capability : JsString) :
    SameLeases s (s.removeDefinitions hooks capability).1 := by
  unfold removeDefinitions
  split_ifs <;> exact ⟨rfl, rfl, rfl, rfl, rfl⟩

theorem sameLeases_installDefinitionsFor (capability : JsString) :
    SameLeases s (s.installDefinitionsFor hooks capability).1 := by
  unfold installDefinitionsFor
  split_ifs <;> exact ⟨rfl, rfl, rfl, rfl, rfl⟩

theorem sameLeases_cancelEach (connectionId : JsString) (requests : List (JsString × Outstanding)) :
    SameLeases s (cancelEach hooks connectionId requests s).1 := by
  induction requests generalizing s with
  | nil => exact .refl s
  | cons entry rest ih =>
    obtain ⟨id, request⟩ := entry
    rw [cancelEach]
    split_ifs
    · exact ⟨rfl, rfl, rfl, rfl, rfl⟩
    · have hcancelled : SameLeases s { s with
          outstanding := s.outstanding.erase id
          settled := s.settled ++ [(id, .cancelled)] } := ⟨rfl, rfl, rfl, rfl, rfl⟩
      exact hcancelled.trans (ih _)
    · exact ih s

theorem sameLeases_cancelForConnection (connectionId : JsString) :
    SameLeases s (s.cancelForConnection hooks connectionId).1 :=
  sameLeases_cancelEach s hooks connectionId _

end

section
variable {s : ReverseLeaseRuntime N D V}

theorem sameLeases_respond (options : ReverseLeaseOptions N D V)
    (connectionId id leaseId : JsString) (result : V) (error : Option (JsString × JsString)) :
    SameLeases s (respond options s connectionId id leaseId result error).1 := by
  unfold respond
  split
  · exact .refl s
  · split
    · exact .refl s
    · split_ifs
      · exact .refl s
      · exact ⟨rfl, rfl, rfl, rfl, rfl⟩

theorem sameLeases_deliveryFails (id : JsString) : SameLeases s (s.deliveryFails id) := by
  unfold deliveryFails
  split_ifs
  · exact ⟨rfl, rfl, rfl, rfl, rfl⟩
  · exact .refl s

end

def SentIs (frames : List (JsString × ReverseRequest V)) (s : ReverseLeaseRuntime N D V) : Prop :=
  s.sent = frames

theorem SentIs.congr {s s' : ReverseLeaseRuntime N D V} (h : SentIs frames s)
    (hsame : SameLeases s s') : SentIs frames s' :=
  hsame.sent.trans h

variable [LinearOrder N]

/-- Leases are under their capabilities, and those with a grace period have expired. -/
structure WellTimed (s : ReverseLeaseRuntime N D V) : Prop where
  capability : ∀ capability lease, s.leases.get capability = some lease →
    lease.capability = capability
  grace : ∀ capability lease, s.leases.get capability = some lease →
    lease.graceUntil ≠ none → lease.expiresAt ≤ s.clock

section
variable {s s' : ReverseLeaseRuntime N D V}
variable {now : N}

section
variable (h : s.WellTimed)
include h

theorem WellTimed.congr (hsame : SameLeases s s') : s'.WellTimed := by
  obtain ⟨hcapability, hgrace⟩ := h
  constructor
  · rw [hsame.leases]
    exact hcapability
  · rw [hsame.leases, hsame.clock]
    exact hgrace

theorem WellTimed.read (hnow : s.clock ≤ now) : (s.read now).WellTimed :=
  ⟨h.capability, fun capability lease hget hgrace =>
    (h.grace capability lease hget hgrace).trans hnow⟩

theorem WellTimed.mutate (ref : Nat) {change : ProviderLease N D → ProviderLease N D}
    (hcapability : ∀ lease, (change lease).capability = lease.capability)
    (hgrace : ∀ lease, (change lease).graceUntil ≠ none → (change lease).expiresAt ≤ s.clock) :
    (s.mutate ref change).WellTimed := by
  have hget : ∀ capability lease, (s.mutate ref change).leases.get capability = some lease →
      ∃ old, s.leases.get capability = some old ∧ (lease = change old ∨ lease = old) := by
    intro capability lease hlease
    rw [ReverseLeaseRuntime.mutate, InsertionMap.get_mapValues] at hlease
    obtain ⟨old, hold, rfl⟩ := Option.map_eq_some_iff.mp hlease
    refine ⟨old, hold, ?_⟩
    split_ifs
    · exact .inl rfl
    · exact .inr rfl
  constructor
  · intro capability lease hlease
    obtain ⟨old, hold, rfl | rfl⟩ := hget capability lease hlease
    · exact (hcapability old).trans (h.capability capability old hold)
    · exact h.capability capability _ hold
  · intro capability lease hlease hsome
    obtain ⟨old, hold, rfl | rfl⟩ := hget capability lease hlease
    · exact hgrace old hsome
    · exact h.grace capability _ hold hsome

theorem WellTimed.setLease {lease : ProviderLease N D} (hgrace : lease.graceUntil = none) :
    (s.setLease lease).WellTimed := by
  constructor
  · intro capability lease' hget
    rw [ReverseLeaseRuntime.setLease, InsertionMap.get_set] at hget
    split_ifs at hget with heq
    · obtain rfl := some.inj hget
      exact heq.symm
    · exact h.capability capability lease' hget
  · intro capability lease' hget hsome
    rw [ReverseLeaseRuntime.setLease, InsertionMap.get_set] at hget
    split_ifs at hget with heq
    · obtain rfl := some.inj hget
      exact absurd hgrace hsome
    · exact h.grace capability lease' hget hsome

theorem WellTimed.erase (capability : JsString) :
    WellTimed { s with leases := s.leases.erase capability } := by
  have hget : ∀ capability' lease, (s.leases.erase capability).get capability' = some lease →
      s.leases.get capability' = some lease := by
    intro capability' lease hlease
    rw [InsertionMap.get_erase] at hlease
    split_ifs at hlease
    exact hlease
  exact ⟨fun capability' lease hlease => h.capability capability' lease (hget _ _ hlease),
    fun capability' lease hlease => h.grace capability' lease (hget _ _ hlease)⟩

end

/-- Well timed, with the clock at or before a time. -/
def TimedBy (now : N) (s : ReverseLeaseRuntime N D V) : Prop := s.WellTimed ∧ s.clock ≤ now

theorem TimedBy.congr {s s' : ReverseLeaseRuntime N D V} (h : TimedBy now s)
    (hsame : SameLeases s s') : TimedBy now s' :=
  ⟨h.1.congr hsame, hsame.clock.le.trans h.2⟩

/-- Well timed, with the clock at or after a time. -/
def TimedFrom (now : N) (s : ReverseLeaseRuntime N D V) : Prop := s.WellTimed ∧ now ≤ s.clock

theorem TimedFrom.congr {s s' : ReverseLeaseRuntime N D V} (h : TimedFrom now s)
    (hsame : SameLeases s s') : TimedFrom now s' :=
  ⟨h.1.congr hsame, h.2.trans hsame.clock.ge⟩

end

/-- The clock does not go back. -/
def Legal (s : ReverseLeaseRuntime N D V) : ReverseOperation N D V → Prop
  | .registerProvider _ _ _ _ _ _ replayNow now _ => s.clock ≤ replayNow ∧ replayNow ≤ now
  | .heartbeat _ _ now now' _ => s.clock ≤ now ∧ now ≤ now'
  | .release _ _ _ now _ => s.clock ≤ now
  | .disconnect _ now _ => s.clock ≤ now
  | .request _ _ _ _ now now' now'' _ => s.clock ≤ now ∧ now ≤ now' ∧ now' ≤ now''
  | _ => True

variable (options : ReverseLeaseOptions N D V)

theorem replay_state (s : ReverseLeaseRuntime N D V) (connectionId capability : JsString)
    (definitions : D) (expectedLeaseId idempotencyKey : Option JsString) (now : N) :
    (replay options s connectionId capability definitions expectedLeaseId idempotencyKey
        now).1 = s ∨
      (replay options s connectionId capability definitions expectedLeaseId idempotencyKey
        now).1 = s.read now := by
  unfold replay
  split
  · exact .inl rfl
  · split
    · exact .inl rfl
    · split_ifs
      · exact .inl rfl
      · split
        · exact .inl rfl
        · split_ifs
          · exact .inr rfl
          · exact .inr rfl
          · exact .inl rfl

section
variable {s s' : ReverseLeaseRuntime N D V} (hooks : ReverseHooks)

theorem TimedBy.liveLease {now'' : N} (h : TimedBy now'' s) (capability : JsString) {now now' : N}
    (hclock : s.clock ≤ now) (hnow : now ≤ now') (hnow' : now' ≤ now'') :
    TimedBy now'' (liveLease s hooks capability now now').1 := by
  have hread : TimedBy now'' (s.read now) := ⟨h.1.read hclock, hnow.trans hnow'⟩
  have hread' : TimedBy now'' (s.read now') := ⟨h.1.read (hclock.trans hnow), hnow'⟩
  unfold ReverseLeaseRuntime.liveLease
  split
  · exact h
  · split_ifs
    · exact hread
    · refine andThen_inv (hread'.congr (sameLeases_removeDefinitions ..)) ?_
      exact fun _ _ _ h' => h'
    · exact hread'

theorem sameLeases_expireStaleLeases (now : JsString → N) (leases : List (ProviderLease N D)) :
    SameLeases s (expireStaleLeases hooks now leases s).1 := by
  induction leases generalizing s with
  | nil => exact .refl s
  | cons lease leases ih =>
    rw [expireStaleLeases]
    split_ifs
    · refine andThen_inv (I := SameLeases s) (sameLeases_removeDefinitions ..) ?_
      exact fun s' _ _ h' => h'.trans ih
    · exact ih

theorem WellTimed.request (options : ReverseLeaseOptions N D V) (h : s.WellTimed)
    (capability method : JsString) (payload : V)
    (uuid : JsString) {now now' now'' : N} (hclock : s.clock ≤ now) (hnow : now ≤ now')
    (hnow' : now' ≤ now'') :
    (request options s hooks capability method payload uuid now now' now'').1.WellTimed := by
  have htimed : TimedBy now'' s := ⟨h, hclock.trans (hnow.trans hnow')⟩
  suffices hby : TimedBy now'' (ReverseLeaseRuntime.request options s hooks capability method
      payload uuid now now' now'').1 from hby.1
  unfold ReverseLeaseRuntime.request
  split
  · exact htimed
  · refine andThen_inv (htimed.liveLease hooks capability hclock hnow hnow') ?_
    intro s' live _ h'
    cases live with
    | none => exact ⟨h'.1.read h'.2, le_refl now''⟩
    | some lease =>
      simp only
      split_ifs <;> exact ⟨⟨h'.1.capability, h'.1.grace⟩, h'.2⟩

end

/-! ## Replays -/

section
variable {options} {s s' : ReverseLeaseRuntime N D V} {connectionId capability : JsString}
  {definitions : D} {expectedLeaseId idempotencyKey : Option JsString} {now : N}

/-- A registration under the same text, of the same things, made the live lease of the
capability. -/
structure Replays (options : ReverseLeaseOptions N D V) (s : ReverseLeaseRuntime N D V)
    (connectionId capability : JsString) (definitions : D)
    (expectedLeaseId idempotencyKey : Option JsString) (now : N)
    (lease : ProviderLease N D) : Prop where
  found : ∃ key registration, idempotencyKey.filter (· ≠ []) = some key ∧
    s.idempotency.get (idempotencyKeyOf connectionId key) = some registration ∧
    registration.fingerprint =
      options.registrationFingerprint capability definitions expectedLeaseId ∧
    registration.ref = lease.ref
  current : s.leases.get capability = some lease
  active : lease.active
  unexpired : now < lease.expiresAt

theorem replay_eq_some {lease : ProviderLease N D} :
    replay options s connectionId capability definitions expectedLeaseId idempotencyKey now =
        (s', .ok (some lease)) ↔
      s' = s.read now ∧ Replays options s connectionId capability definitions expectedLeaseId
        idempotencyKey now lease := by
  constructor
  · intro h
    unfold replay at h
    split at h
    · cases h
    · next key hkey =>
      split at h
      · cases h
      · next registration hregistration =>
        split_ifs at h with hfingerprint
        · cases h
        · split at h
          · cases h
          · next current hcurrent =>
            split_ifs at h with hlive hexpired
            · obtain ⟨rfl, hlease⟩ := Prod.mk.inj h
              obtain rfl := some.inj (Except.ok.inj hlease)
              exact ⟨rfl, ⟨key, registration, hkey, hregistration, not_ne_iff.mp hfingerprint,
                hlive.1⟩, hcurrent, hlive.2, hexpired⟩
            · cases h
            · cases h
  · rintro ⟨rfl, ⟨key, registration, hkey, hregistration, hfingerprint, href⟩, hcurrent, hactive,
      hexpired⟩
    unfold replay
    simp only [hkey, hregistration, hcurrent]
    rw [if_neg (not_ne_iff.mpr hfingerprint), if_pos ⟨href, hactive⟩, if_pos hexpired]

end

variable [Add N]

section
variable {s : ReverseLeaseRuntime N D V} (hooks : ReverseHooks)
variable {now : N}

theorem WellTimed.grant (h : s.WellTimed) (connectionId capability : JsString) (definitions : D)
    (expectedLeaseId idempotencyKey : Option JsString) (leaseId : JsString) (now : N) :
    (grant options s hooks connectionId capability definitions expectedLeaseId idempotencyKey
      leaseId now).1.WellTimed := by
  unfold ReverseLeaseRuntime.grant
  refine andThen_inv (h.congr (sameLeases_installDefinitionsFor ..)) fun s' _ _ h' => ?_
  simp only
  split
  · exact ⟨(h'.setLease rfl).capability, (h'.setLease rfl).grace⟩
  · exact ⟨(h'.setLease rfl).capability, (h'.setLease rfl).grace⟩

theorem WellTimed.registerOver (h : s.WellTimed) (existing : ProviderLease N D)
    (connectionId capability : JsString) (definitions : D)
    (expectedLeaseId idempotencyKey : Option JsString) (uuid : JsString) (now : N) :
    (registerOver options s hooks existing connectionId capability definitions expectedLeaseId
      idempotencyKey uuid now).1.WellTimed := by
  unfold ReverseLeaseRuntime.registerOver
  simp only
  split_ifs
  · exact h
  · exact h.grant options hooks ..
  · exact h
  · exact h.grant options hooks ..
  · exact h.grant options hooks ..

theorem WellTimed.registerProvider (h : s.WellTimed) (connectionId capability : JsString)
    (definitions : D) (expectedLeaseId idempotencyKey : Option JsString) (uuid : JsString)
    {replayNow : N} (hreplay : s.clock ≤ replayNow) (hnow : replayNow ≤ now) :
    (registerProvider options s hooks connectionId capability definitions expectedLeaseId
      idempotencyKey uuid replayNow now).1.WellTimed := by
  have hreplayed := replay_state options s connectionId capability definitions expectedLeaseId
    idempotencyKey replayNow
  unfold ReverseLeaseRuntime.registerProvider
  have hfirst : ∀ s', s' = s ∨ s' = s.read replayNow → s'.WellTimed ∧ s'.clock ≤ now := by
    rintro s' (rfl | rfl)
    · exact ⟨h, hreplay.trans hnow⟩
    · exact ⟨h.read hreplay, hnow⟩
  refine andThen_inv (hfirst _ hreplayed).1 fun s' replayed hs' htimed => ?_
  rw [hs'] at hreplayed
  have hclock := (hfirst s' hreplayed).2
  cases replayed with
  | some lease => exact htimed
  | none =>
    simp only
    have hread := htimed.read hclock
    split
    · exact hread.grant options hooks ..
    · next existing hexisting =>
      refine andThen_inv ?_ fun s'' _ _ h' => h'.registerOver options hooks ..
      split_ifs
      · exact hread.congr (sameLeases_removeDefinitions ..)
      · exact hread

theorem WellTimed.heartbeat (h : s.WellTimed) (connectionId leaseId : JsString) {now' : N}
    (hnow : s.clock ≤ now) (hnow' : now ≤ now') :
    (heartbeat options s hooks connectionId leaseId now now').1.WellTimed := by
  unfold ReverseLeaseRuntime.heartbeat
  split
  · exact h
  · simp only
    split_ifs
    · exact andThen_inv ((h.read hnow).congr (sameLeases_removeDefinitions ..)) fun _ _ _ h' => h'
    · refine WellTimed.mutate ((h.read hnow).read hnow') _ (fun _ => rfl) ?_
      exact fun _ hsome => absurd rfl hsome

variable [NatCast N]

theorem WellTimed.release (h : s.WellTimed) (connectionId leaseId : JsString)
    (handoffTo : Option JsString) {now : N} (hnow : s.clock ≤ now) :
    (release s hooks connectionId leaseId handoffTo now).1.WellTimed := by
  have htimed : TimedBy now s := ⟨h, hnow⟩
  suffices hby : TimedBy now (ReverseLeaseRuntime.release s hooks connectionId leaseId handoffTo
      now).1 from hby.1
  unfold ReverseLeaseRuntime.release
  split
  · exact htimed
  · next lease _ =>
    refine andThen_inv (htimed.congr (sameLeases_cancelForConnection ..)) fun s' _ _ h' => ?_
    refine andThen_inv (h'.congr (sameLeases_removeDefinitions ..)) fun s'' _ _ h'' => ?_
    split
    · refine ⟨WellTimed.mutate (h''.1.read h''.2) _ (fun _ => rfl) ?_, le_refl now⟩
      exact fun _ hsome => absurd rfl hsome
    · exact ⟨h''.1.erase lease.capability, h''.2⟩

theorem TimedFrom.disconnectEach (h : TimedFrom now s) (connectionId : JsString)
    (leases : List (ProviderLease N D)) :
    TimedFrom now (disconnectEach hooks connectionId now leases s).1 := by
  induction leases generalizing s with
  | nil => exact h
  | cons lease leases ih =>
    rw [ReverseLeaseRuntime.disconnectEach]
    split_ifs
    · refine andThen_inv (TimedFrom.congr ?_ (sameLeases_removeDefinitions ..)) ?_
      · exact ⟨h.1.mutate lease.ref (fun _ => rfl) (fun _ _ => h.2), h.2⟩
      · exact fun s' _ _ h' => ih h'
    · exact ih h

theorem WellTimed.disconnect (h : s.WellTimed) (connectionId : JsString) (hnow : s.clock ≤ now) :
    (disconnect s hooks connectionId now).1.WellTimed := by
  unfold ReverseLeaseRuntime.disconnect
  have hread : TimedFrom now (s.read now) := ⟨h.read hnow, le_refl now⟩
  suffices hfrom : TimedFrom now (ReverseLeaseRuntime.disconnect s hooks connectionId now).1 from
    hfrom.1
  refine andThen_inv (hread.disconnectEach hooks connectionId _) fun s' _ _ h' => ?_
  exact h'.congr (sameLeases_cancelForConnection ..)

end

variable [NatCast N]

theorem wellTimed_step (s : ReverseLeaseRuntime N D V) (op : ReverseOperation N D V)
    (h : s.WellTimed) (hlegal : s.Legal op) : (step options s op).WellTimed := by
  cases op with
  | registerProvider connectionId capability definitions expectedLeaseId idempotencyKey uuid
      replayNow now hooks =>
    exact h.registerProvider options hooks connectionId capability definitions expectedLeaseId
      idempotencyKey uuid hlegal.1 hlegal.2
  | heartbeat connectionId leaseId now now' hooks =>
    exact h.heartbeat options hooks connectionId leaseId hlegal.1 hlegal.2
  | release connectionId leaseId handoffTo now hooks =>
    exact h.release hooks connectionId leaseId handoffTo hlegal
  | disconnect connectionId now hooks => exact h.disconnect hooks connectionId hlegal
  | request capability method payload uuid now now' now'' hooks =>
    exact WellTimed.request hooks options h capability method payload uuid hlegal.1 hlegal.2.1
      hlegal.2.2
  | deliveryFails id => exact h.congr (sameLeases_deliveryFails id)
  | respond connectionId id leaseId result error =>
    exact h.congr (sameLeases_respond options connectionId id leaseId result error)
  | expireStaleLeases now hooks => exact h.congr (sameLeases_expireStaleLeases hooks now _)

section
variable {options} {s s' : ReverseLeaseRuntime N D V} {hooks : ReverseHooks}
  {connectionId capability : JsString} {definitions : D}
  {expectedLeaseId idempotencyKey : Option JsString} {now : N}
variable {granted : ProviderLease N D}

omit [LinearOrder N] [NatCast N] in
theorem grant_clock {leaseId : JsString}
    (h : grant options s hooks connectionId capability definitions expectedLeaseId idempotencyKey
      leaseId now = (s', .ok granted)) : s'.clock = s.clock := by
  obtain ⟨s'', _, hinstalled, hgrant⟩ := andThen_ok h
  have hsame := sameLeases_installDefinitionsFor s hooks capability
  rw [hinstalled] at hsame
  simp only at hgrant
  split at hgrant
  · obtain ⟨rfl, -⟩ := Prod.mk.inj hgrant
    exact hsame.clock
  · obtain ⟨rfl, -⟩ := Prod.mk.inj hgrant
    exact hsame.clock

omit [NatCast N] in
/-- Over a lease that has not expired, a registration succeeds only for the connection that
has it, and if it is reserved only with its id. -/
theorem registerOver_ok {existing : ProviderLease N D} {uuid : JsString}
    (hgrace : existing.graceUntil ≠ none → existing.expiresAt ≤ now)
    (h : registerOver options s hooks existing connectionId capability definitions expectedLeaseId
      idempotencyKey uuid now = (s', .ok granted)) :
    s'.clock = s.clock ∧ (now < existing.expiresAt → existing.connectionId = connectionId ∧
      (¬ existing.active → some existing.leaseId = expectedLeaseId)) := by
  -- who registers over a lease that was not refused and has not expired is refreshing it
  have howner : ¬ (¬ existing.active ∧ now < existing.expiresAt) →
      ¬ (¬ (some existing.leaseId = expectedLeaseId ∧ existing.graceUntil.any (now ≤ ·)) ∧
        ¬ (existing.active ∧ existing.connectionId = connectionId ∧ now < existing.expiresAt) ∧
        existing.connectionId ≠ connectionId ∧ now < existing.expiresAt) →
      now < existing.expiresAt → existing.connectionId = connectionId ∧
        (¬ existing.active → some existing.leaseId = expectedLeaseId) := by
    intro hreserved hconflict hexpires
    have hactive : existing.active := by
      by_contra hinactive
      exact hreserved ⟨hinactive, hexpires⟩
    refine ⟨?_, fun hinactive => absurd hactive hinactive⟩
    by_contra hother
    refine hconflict
      ⟨fun hreclaims => ?_, fun hrefreshes => hother hrefreshes.2.1, hother, hexpires⟩
    refine absurd (hgrace fun hnone => ?_) (not_le.mpr hexpires)
    rw [hnone] at hreclaims
    exact nomatch hreclaims.2
  unfold registerOver at h
  simp only at h
  split_ifs at h with hreserved hother hconflict hsame
  · cases h
  · obtain ⟨hconnection, hid⟩ := not_or.mp hother
    exact ⟨grant_clock h, fun _ => ⟨not_ne_iff.mp hconnection, fun _ => not_ne_iff.mp hid⟩⟩
  · cases h
  · exact ⟨grant_clock h, howner hreserved hconflict⟩
  · exact ⟨grant_clock h, howner hreserved hconflict⟩

end

/-! ## Exclusive runs -/

/-- A registration over a lease that is not expired succeeds only for the connection that has
it, and over a reservation only with the reserved id; a frame is only sent by a request, to
the connection that has the live lease. -/
def Exclusive (s : ReverseLeaseRuntime N D V) : ReverseOperation N D V → Prop
  | .registerProvider connectionId capability definitions expectedLeaseId idempotencyKey uuid
      replayNow now hooks => ∀ s' granted,
    registerProvider options s hooks connectionId capability definitions expectedLeaseId
      idempotencyKey uuid replayNow now = (s', .ok granted) →
    ∀ lease, s.leases.get capability = some lease → s'.clock < lease.expiresAt →
      lease.connectionId = connectionId ∧
        (¬ lease.active → some lease.leaseId = expectedLeaseId)
  | .request capability method payload uuid now now' now'' hooks => ∀ frame,
    frame ∈ (request options s hooks capability method payload uuid now now' now'').1.sent →
    frame ∈ s.sent ∨ ∃ lease, s.leases.get capability = some lease ∧ lease.active ∧
      now < lease.expiresAt ∧ frame.1 = lease.connectionId ∧
      frame.2.connectionId = lease.connectionId ∧ frame.2.leaseId = lease.leaseId ∧
      frame.2.capability = capability
  | op => (step options s op).sent = s.sent

/-- No registration of another connection, under the same text, is replayed. -/
def NoForeignReplay (s : ReverseLeaseRuntime N D V) : ReverseOperation N D V → Prop
  | .registerProvider connectionId capability definitions expectedLeaseId idempotencyKey _
      replayNow _ _ => ∀ lease,
    Replays options s connectionId capability definitions expectedLeaseId idempotencyKey replayNow
      lease → lease.connectionId = connectionId
  | _ => True

theorem exclusive_registerProvider_iff {s : ReverseLeaseRuntime N D V} (h : s.WellTimed)
    {connectionId capability : JsString} {definitions : D}
    {expectedLeaseId idempotencyKey : Option JsString} {uuid : JsString} {replayNow now : N}
    {hooks : ReverseHooks} (hreplay : s.clock ≤ replayNow) (hnow : replayNow ≤ now) :
    s.Exclusive options (.registerProvider connectionId capability definitions expectedLeaseId
        idempotencyKey uuid replayNow now hooks) ↔
      s.NoForeignReplay options (.registerProvider connectionId capability definitions
        expectedLeaseId idempotencyKey uuid replayNow now hooks) := by
  constructor
  · intro hexclusive lease hreplays
    have hreplayed := replay_eq_some.mpr ⟨rfl, hreplays⟩
    have hregistered : registerProvider options s hooks connectionId capability definitions
        expectedLeaseId idempotencyKey uuid replayNow now = (s.read replayNow, .ok lease) := by
      unfold registerProvider
      rw [hreplayed]
      rfl
    exact (hexclusive _ _ hregistered lease hreplays.current hreplays.unexpired).1
  · intro hforeign s' granted hregistered lease hcurrent hexpires
    obtain ⟨s₁, replayed, hreplayed, hrest⟩ := andThen_ok hregistered
    cases replayed with
    | some replayed =>
      obtain ⟨rfl, hreplays⟩ := replay_eq_some.mp hreplayed
      obtain ⟨rfl, hgranted⟩ := Prod.mk.inj hrest
      obtain rfl := some.inj (hreplays.current.symm.trans hcurrent)
      exact ⟨hforeign replayed hreplays, fun hinactive => absurd hreplays.active hinactive⟩
    | none =>
      have hstate := replay_state options s connectionId capability definitions expectedLeaseId
        idempotencyKey replayNow
      rw [hreplayed] at hstate
      have hleases : (s₁.read now).leases.get capability = some lease := by
        rcases hstate with rfl | rfl <;> exact hcurrent
      simp only at hrest
      rw [hleases] at hrest
      obtain ⟨s₂, _, hremoved, hover⟩ := andThen_ok hrest
      have hclock : s₂.clock = now := by
        split_ifs at hremoved
        · have hsame := sameLeases_removeDefinitions (s₁.read now) hooks lease.capability
          rw [hremoved] at hsame
          exact hsame.clock
        · obtain ⟨rfl, -⟩ := Prod.mk.inj hremoved
          rfl
      have hgrace : lease.graceUntil ≠ none → lease.expiresAt ≤ now := fun hsome =>
        (h.grace capability lease hcurrent hsome).trans (hreplay.trans hnow)
      obtain ⟨hclock', howner⟩ := registerOver_ok hgrace hover
      rw [hclock', hclock] at hexpires
      exact howner hexpires

section
variable (s : ReverseLeaseRuntime N D V) (hooks : ReverseHooks) (connectionId leaseId : JsString)
include s hooks connectionId leaseId

omit [NatCast N] in
theorem sent_heartbeat (now now' : N) :
    SentIs s.sent (heartbeat options s hooks connectionId leaseId now now').1 := by
  have hsent : SentIs s.sent s := rfl
  have hread : SentIs s.sent (s.read now) := rfl
  unfold heartbeat
  split
  · exact hsent
  · simp only
    split_ifs
    · exact andThen_inv (hread.congr (sameLeases_removeDefinitions ..)) fun _ _ _ h => h
    · rfl

omit [LinearOrder N] in
theorem sent_release (handoffTo : Option JsString) (now : N) :
    SentIs s.sent (release s hooks connectionId leaseId handoffTo now).1 := by
  have hsent : SentIs s.sent s := rfl
  unfold release
  split
  · exact hsent
  · refine andThen_inv (hsent.congr (sameLeases_cancelForConnection ..)) fun _ _ _ h => ?_
    refine andThen_inv (h.congr (sameLeases_removeDefinitions ..)) fun _ _ _ h' => ?_
    split <;> exact h'

end

omit [LinearOrder N] in
theorem SentIs.disconnectEach {s : ReverseLeaseRuntime N D V} (h : SentIs frames s)
    (hooks : ReverseHooks) (connectionId : JsString) (now : N) (leases : List (ProviderLease N D)) :
    SentIs frames (disconnectEach hooks connectionId now leases s).1 := by
  induction leases generalizing s with
  | nil => exact h
  | cons lease leases ih =>
    rw [ReverseLeaseRuntime.disconnectEach]
    split_ifs
    · have hlost : SentIs frames (s.mutate lease.ref fun lease =>
          { lease with
            expiresAt := now
            graceUntil := some (now + ((REVERSE_RECLAIM_GRACE_MS : Nat) : N)) }) := h
      exact andThen_inv (hlost.congr (sameLeases_removeDefinitions ..)) fun _ _ _ h' => ih h'
    · exact ih h

section
variable (s : ReverseLeaseRuntime N D V)
include s

omit [LinearOrder N] in
theorem sent_disconnect (hooks : ReverseHooks) (connectionId : JsString) (now : N) :
    SentIs s.sent (disconnect s hooks connectionId now).1 := by
  have hread : SentIs s.sent (s.read now) := rfl
  refine andThen_inv (hread.disconnectEach hooks connectionId now _) fun _ _ _ h => ?_
  exact h.congr (sameLeases_cancelForConnection ..)

omit [Add N] [NatCast N] in
theorem liveLease_cases (hooks : ReverseHooks) (capability : JsString) (now now' : N) :
    SentIs s.sent (liveLease s hooks capability now now').1 ∧
      ∀ lease, (liveLease s hooks capability now now').2 = .ok (some lease) →
        s.leases.get capability = some lease ∧ lease.active ∧ now < lease.expiresAt := by
  have hsent : SentIs s.sent s := rfl
  have hread : SentIs s.sent (s.read now') := rfl
  unfold liveLease
  split
  · exact ⟨hsent, fun _ h => by cases h⟩
  · next current hcurrent =>
    split_ifs with hlive
    · refine ⟨rfl, fun lease h => ?_⟩
      obtain rfl := some.inj (Except.ok.inj h)
      exact ⟨hcurrent, hlive⟩
    · refine ⟨andThen_inv (hread.congr (sameLeases_removeDefinitions ..)) fun _ _ _ h => h, ?_⟩
      intro lease h
      obtain ⟨_, _, -, hnone⟩ := andThen_ok (Prod.ext rfl h)
      cases hnone
    · exact ⟨hread, fun _ h => by cases h⟩

/-- Every frame goes to the connection with the live lease. -/
theorem exclusive_request (capability method : JsString) (payload : V) (uuid : JsString)
    (now now' now'' : N) (hooks : ReverseHooks) :
    s.Exclusive options (.request capability method payload uuid now now' now'' hooks) := by
  intro frame hframe
  obtain ⟨hsent, hlive⟩ := liveLease_cases s hooks capability now now'
  unfold request at hframe
  split at hframe
  · exact .inl hframe
  · rcases hresult : liveLease s hooks capability now now' with ⟨s', live⟩
    rw [hresult] at hsent hlive hframe
    obtain _ | _ | lease := live
    · exact .inl (hsent ▸ hframe)
    · exact .inl (hsent ▸ hframe)
    · obtain ⟨hcurrent, hactive, hexpires⟩ := hlive lease rfl
      have hcases : frame ∈ s'.sent ∨ frame = (lease.connectionId,
          ⟨uuid, capability, lease.connectionId, lease.leaseId, method, payload⟩) := by
        simp only [andThen] at hframe
        split_ifs at hframe
        · exact .inl hframe
        · exact (List.mem_append.mp hframe).imp_right List.mem_singleton.mp
        · exact (List.mem_append.mp hframe).imp_right List.mem_singleton.mp
      rcases hcases with hold | rfl
      · exact .inl (hsent ▸ hold)
      · exact .inr ⟨lease, hcurrent, hactive, hexpires, rfl, rfl, rfl, rfl⟩

end

theorem exclusive_iff {s : ReverseLeaseRuntime N D V} {op : ReverseOperation N D V}
    (h : s.WellTimed) (hlegal : s.Legal op) :
    s.Exclusive options op ↔ s.NoForeignReplay options op := by
  cases op with
  | registerProvider => exact exclusive_registerProvider_iff options h hlegal.1 hlegal.2
  | heartbeat connectionId leaseId now now' hooks =>
    exact iff_of_true (sent_heartbeat options s hooks connectionId leaseId now now') trivial
  | release connectionId leaseId handoffTo now hooks =>
    exact iff_of_true (sent_release s hooks connectionId leaseId handoffTo now) trivial
  | disconnect connectionId now hooks =>
    exact iff_of_true (sent_disconnect s hooks connectionId now) trivial
  | request capability method payload uuid now now' now'' hooks =>
    exact iff_of_true (exclusive_request options s capability method payload uuid now now' now''
      hooks) trivial
  | deliveryFails id => exact iff_of_true (sameLeases_deliveryFails id).sent trivial
  | respond connectionId id leaseId result error =>
    exact iff_of_true (sameLeases_respond options connectionId id leaseId result error).sent trivial
  | expireStaleLeases now hooks =>
    exact iff_of_true (sameLeases_expireStaleLeases hooks now _).sent trivial

/-- **Leases are exclusive in a run exactly if no registration of another connection is
replayed in it.** -/
theorem exclusive_iff_noForeignReplay (now : N) (ops : List (ReverseOperation N D V))
    (hlegal : Runs.Meets (step options) Legal (create now) ops) :
    Runs.Meets (step options) (Exclusive options) (create now) ops ↔
      Runs.Meets (step options) (NoForeignReplay options) (create now) ops := by
  have hcreate : (create now : ReverseLeaseRuntime N D V).WellTimed :=
    ⟨fun _ _ h => (nomatch h), fun _ _ h => (nomatch h)⟩
  exact Runs.meets_iff_meets_of_legal (wellTimed_step options)
    (fun _ _ h hlegal => exclusive_iff options h hlegal) hcreate hlegal

/-- Fingerprints that tell the things of the example apart, and no payloads. -/
def plainOptions : ReverseLeaseOptions Nat Unit Unit where
  leaseTtlMs := 15000
  registrationFingerprint capability _ expectedLeaseId := capability ++ expectedLeaseId.getD []
  encodedLength _ := none

def quietHooks : ReverseHooks := ⟨false, false, fun _ => false, fun _ => false⟩

/-- One connection registers a provider under a key with a NUL, and then another one, whose
id goes on with the first part of that key, under the other part. -/
def twoConnections : List (ReverseOperation Nat Unit Unit) :=
  [.registerProvider (js "seam:a") (js "ui") () none (some (js "b" ++ 0 :: js "k")) (js "u") 0 0
      quietHooks,
    .registerProvider (js "seam:a" ++ 0 :: js "b") (js "ui") () none (some (js "k")) (js "v") 1 1
      quietHooks]

theorem lease_for_two_connections : Runs.Meets (step plainOptions) Legal (create 0) twoConnections ∧
      ¬ Runs.Meets (step plainOptions) (Exclusive plainOptions) (create 0) twoConnections := by
  refine ⟨⟨⟨Nat.le_refl 0, Nat.le_refl 0⟩, ⟨?_, Nat.le_refl 1⟩, trivial⟩, ?_⟩
  · show (step plainOptions (create 0) _).clock ≤ 1
    decide
  · rintro ⟨-, hexclusive, -⟩
    have howner := hexclusive _ _ rfl
      ⟨0, js "u", js "seam:a", js "ui", (), 15000, none, true⟩ rfl (by decide)
    exact absurd howner.1 (by decide)

/-- Another connection is refused while a lease is kept alive, and takes it over when it is
handed on. -/
def handedOver : List (ReverseOperation Nat Unit Unit) :=
  [.registerProvider (js "c") (js "ui") () none (some (js "k")) (js "u") 0 1 quietHooks,
    .registerProvider (js "d") (js "ui") () none none (js "v") 2 2 quietHooks,
    .heartbeat (js "c") (js "u") 3 3 quietHooks,
    .release (js "c") (js "u") (some (js "d")) 4 quietHooks,
    .registerProvider (js "d") (js "ui") () (some (js "u")) none (js "w") 5 5 quietHooks,
    .request (js "ui") (js "m") () (js "r") 6 6 6 quietHooks]

theorem exclusive_iff_noForeignReplay_handedOver :
    Runs.Meets (step plainOptions) (Exclusive plainOptions) (create 0) handedOver ∧
      [2, 5].map (fun n => ((Runs.run (step plainOptions) (create 0)
          (handedOver.take n)).leases.get (js "ui")).map ProviderLease.connectionId) =
        [some (js "c"), some (js "d")] := by
  refine ⟨(exclusive_iff_noForeignReplay plainOptions 0 handedOver ?_).mpr ?_, by decide⟩
  · have hclock : (Runs.run (step plainOptions) (create 0) (handedOver.take 3)).clock ≤ 4 := by
      decide
    refine ⟨⟨?_, ?_⟩, ⟨?_, ?_⟩, ⟨?_, ?_⟩, hclock, ⟨?_, ?_⟩, ⟨?_, ?_, ?_⟩, trivial⟩ <;> decide
  · exact ⟨fun _ h => (nomatch h.found), fun _ h => (nomatch h.found), trivial, trivial,
      fun _ h => (nomatch h.found), trivial, trivial⟩

end ReverseLeaseRuntime
end GajaeCode
