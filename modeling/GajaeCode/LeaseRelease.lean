import GajaeCode.ProviderExclusive

/-! # What a release cancels

`packages/coding-agent/src/sdk/host/reverse-leases.ts`, `release`: a lease is given up for one
capability, but what is cancelled are the outstanding requests of its connection
(`#cancelForConnection`), which may have leases for other capabilities as well.
-/
namespace GajaeCode
open JsString Option

namespace ReverseLeaseRuntime
variable {N D V : Type}

section
variable {s s' : ReverseLeaseRuntime N D V} {hooks : ReverseHooks} {connectionId : JsString}

/-- The outstanding requests of a connection, in their order. -/
def requestsOf (connectionId : JsString) (requests : List (JsString × Outstanding)) :
    List (JsString × Outstanding) :=
  requests.filter fun e => e.2.connectionId = connectionId

/-- If no hook throws, the requests of the connection are gone, and settled in their order. -/
theorem cancelEach_ok {requests : List (JsString × Outstanding)}
    (h : cancelEach hooks connectionId requests s = (s', .ok ())) :
    s'.outstanding = ((requestsOf connectionId requests).map Prod.fst).foldl InsertionMap.erase
      s.outstanding ∧ s'.settled =
      s.settled ++ (requestsOf connectionId requests).map fun e => (e.1, .cancelled) := by
  induction requests generalizing s with
  | nil =>
    obtain ⟨rfl, -⟩ := Prod.mk.inj h
    exact ⟨rfl, (List.append_nil _).symm⟩
  | cons entry rest ih =>
    obtain ⟨id, request⟩ := entry
    rw [cancelEach] at h
    split_ifs at h with hconnection hthrows
    · cases h
    · obtain ⟨houtstanding, hsettled⟩ := ih h
      have hcons : requestsOf connectionId ((id, request) :: rest) =
          (id, request) :: requestsOf connectionId rest :=
        List.filter_cons_of_pos (by simpa using hconnection)
      rw [houtstanding, hsettled, hcons]
      exact ⟨rfl, List.append_assoc _ _ _⟩
    · have hcons : requestsOf connectionId ((id, request) :: rest) = requestsOf connectionId rest :=
        List.filter_cons_of_neg (by simpa using hconnection)
      rw [hcons]
      exact ih h

theorem cancelForConnection_ok (h : s.cancelForConnection hooks connectionId = (s', .ok ())) :
    (∀ id, s'.outstanding.get id =
      (s.outstanding.get id).filter fun request => request.connectionId ≠ connectionId) ∧
    s'.settled = s.settled ++
      (requestsOf connectionId s.outstanding.entries).map fun e => (e.1, .cancelled) := by
  obtain ⟨houtstanding, hsettled⟩ := cancelEach_ok h
  refine ⟨fun id => ?_, hsettled⟩
  have hmem : id ∈ (requestsOf connectionId s.outstanding.entries).map Prod.fst ↔
      ∃ request, s.outstanding.get id = some request ∧ request.connectionId = connectionId := by
    simp [requestsOf, InsertionMap.mem_entries_iff]
  rw [houtstanding, InsertionMap.get_foldl_erase]
  simp only [hmem]
  cases s.outstanding.get id with
  | none => simp
  | some request => by_cases hconnection : request.connectionId = connectionId <;>
      simp [hconnection, filter_some]

theorem removeDefinitions_ok {capability : JsString}
    (h : s.removeDefinitions hooks capability = (s', .ok ())) :
    s'.outstanding = s.outstanding ∧ s'.settled = s.settled := by
  unfold removeDefinitions at h
  split_ifs at h
  all_goals
    obtain ⟨rfl, -⟩ := Prod.mk.inj h
    exact ⟨rfl, rfl⟩

end

/-! ## Releasing -/

section
variable [Add N] [NatCast N] {s s' : ReverseLeaseRuntime N D V} {hooks : ReverseHooks}
  {connectionId leaseId : JsString}
variable {released : ProviderLease N D} {handoffTo : Option JsString}

theorem release_ok {now : N}
    (h : release s hooks connectionId leaseId handoffTo now = (s', .ok released)) :
    (∀ id, s'.outstanding.get id =
      (s.outstanding.get id).filter fun request => request.connectionId ≠ connectionId) ∧
    s'.settled = s.settled ++
      (requestsOf connectionId s.outstanding.entries).map fun e => (e.1, .cancelled) := by
  unfold release at h
  split at h
  · cases h
  · obtain ⟨s₁, _, hcancelled, h⟩ := andThen_ok h
    obtain ⟨s₂, _, hremoved, h⟩ := andThen_ok h
    obtain ⟨houtstanding, hsettled⟩ := removeDefinitions_ok hremoved
    have hlast : s'.outstanding = s₂.outstanding ∧ s'.settled = s₂.settled := by
      split at h
      all_goals
        obtain ⟨rfl, -⟩ := Prod.mk.inj h
        exact ⟨rfl, rfl⟩
    rw [hlast.1, hlast.2, houtstanding, hsettled]
    exact cancelForConnection_ok hcancelled

/-- The requests under the lease are cancelled, those under other leases stay outstanding, and
their connections can answer them. -/
structure ReleasesAlone (options : ReverseLeaseOptions N D V) (s s' : ReverseLeaseRuntime N D V)
    (leaseId : JsString) : Prop where
  outstanding : ∀ id, s'.outstanding.get id =
    (s.outstanding.get id).filter fun request => request.leaseId ≠ leaseId
  settled : s'.settled = s.settled ++ (s.outstanding.entries.filter fun e =>
    e.2.leaseId = leaseId).map fun e => (e.1, .cancelled)
  answered : ∀ id request, s.outstanding.get id = some request → request.leaseId ≠ leaseId →
    ∀ result error, assertPayload options result = .ok () →
      (respond options s' request.connectionId id request.leaseId result error).2 = .ok ()

/-- The outstanding requests of the connection are those under the lease. -/
def SoleLease (s : ReverseLeaseRuntime N D V) (connectionId leaseId : JsString) : Prop :=
  ∀ id request, s.outstanding.get id = some request →
    (request.connectionId = connectionId ↔ request.leaseId = leaseId)

omit [Add N] [NatCast N] in
/-- An outstanding request is answered under its lease by its connection. -/
theorem respond_ok {options : ReverseLeaseOptions N D V} {id : JsString} {request : Outstanding}
    {result : V} (hget : s.outstanding.get id = some request)
    (hpayload : assertPayload options result = .ok ()) (error : Option (JsString × JsString)) :
    (respond options s request.connectionId id request.leaseId result error).2 = .ok () := by
  unfold respond
  rw [hpayload, hget]
  simp

theorem releasesAlone_iff {options : ReverseLeaseOptions N D V} {now : N}
    (h : release s hooks connectionId leaseId handoffTo now = (s', .ok released)) :
    ReleasesAlone options s s' leaseId ↔ s.SoleLease connectionId leaseId := by
  obtain ⟨houtstanding, hsettled⟩ := release_ok h
  constructor
  · intro halone id request hget
    have heq := (houtstanding id).symm.trans (halone.outstanding id)
    rw [hget] at heq
    by_cases hconnection : request.connectionId = connectionId
    · by_cases hlease : request.leaseId = leaseId
      · exact iff_of_true hconnection hlease
      · simp [hconnection, hlease, filter_some] at heq
    · by_cases hlease : request.leaseId = leaseId
      · simp [hconnection, hlease, filter_some] at heq
      · exact iff_of_false hconnection hlease
  · intro hsole
    have hstay : ∀ id, s'.outstanding.get id =
        (s.outstanding.get id).filter fun request => request.leaseId ≠ leaseId := by
      intro id
      rw [houtstanding]
      cases hget : s.outstanding.get id with
      | none => rfl
      | some request => simp [hsole id request hget, filter_some]
    refine ⟨hstay, ?_, fun id request hget hlease result error hpayload => ?_⟩
    · rw [hsettled, requestsOf]
      congr 2
      refine List.filter_congr fun entry hentry => ?_
      exact decide_eq_decide.mpr (hsole _ _ (InsertionMap.get_of_mem_entries hentry))
    · refine respond_ok ?_ hpayload error
      rw [hstay, hget]
      simp [hlease, filter_some]

end

section
variable [LinearOrder N] [Add N] [NatCast N] (options : ReverseLeaseOptions N D V)

/-- A release that succeeds leaves the other leases alone. -/
def LeavesOthersAlone (s : ReverseLeaseRuntime N D V) : ReverseOperation N D V → Prop
  | .release connectionId leaseId handoffTo now hooks => ∀ s' released,
    release s hooks connectionId leaseId handoffTo now = (s', .ok released) →
    ReleasesAlone options s s' leaseId
  | _ => True

/-- The connection of a release that succeeds has requests under that lease only. -/
def ReleasesSole (s : ReverseLeaseRuntime N D V) : ReverseOperation N D V → Prop
  | .release connectionId leaseId handoffTo now hooks =>
    (release s hooks connectionId leaseId handoffTo now).2.isOk → s.SoleLease connectionId leaseId
  | _ => True

omit [LinearOrder N] in
theorem leavesOthersAlone_iff (s : ReverseLeaseRuntime N D V) (op : ReverseOperation N D V) :
    s.LeavesOthersAlone options op ↔ s.ReleasesSole op := by
  cases op with
  | release connectionId leaseId handoffTo now hooks =>
    rcases hresult : release s hooks connectionId leaseId handoffTo now with ⟨s', outcome⟩
    cases outcome with
    | error e =>
      refine iff_of_true (fun s'' released h => ?_) fun hok => ?_
      · rw [hresult] at h
        cases h
      · rw [hresult] at hok
        cases hok
    | ok released =>
      have halone : ReleasesAlone options s s' leaseId ↔ _ := releasesAlone_iff hresult
      constructor
      · exact fun h _ => halone.mp (h s' released hresult)
      · intro h s'' released' hresult'
        obtain ⟨rfl, -⟩ := Prod.mk.inj (hresult.symm.trans hresult')
        refine halone.mpr (h ?_)
        rw [hresult]
        rfl
  | _ => exact Iff.rfl

/-- **The releases of a run leave the other leases alone exactly if each is made while the
connection has requests under that lease only.** -/
theorem leavesOthersAlone_iff_releasesSole (s : ReverseLeaseRuntime N D V)
    (ops : List (ReverseOperation N D V)) :
    Runs.Meets (step options) (LeavesOthersAlone options) s ops ↔
      Runs.Meets (step options) ReleasesSole s ops :=
  Runs.meets_iff_meets_of_legal (L := fun _ _ => True) (J := fun _ => True)
    (fun _ _ _ _ => trivial) (fun s op _ _ => leavesOthersAlone_iff options s op) trivial
    Runs.meets_true

end

/-- One connection has leases for two capabilities, and releases the first one while a request
under the second one is outstanding. -/
def twoCapabilities : List (ReverseOperation Nat Unit Unit) :=
  [.registerProvider (js "c") (js "ui") () none none (js "u") 0 0 quietHooks,
    .registerProvider (js "c") (js "fs") () none none (js "v") 1 1 quietHooks,
    .request (js "fs") (js "read") () (js "r") 2 2 2 quietHooks,
    .release (js "c") (js "u") none 3 quietHooks]

theorem release_cancels_others :
    ¬ Runs.Meets (step plainOptions) (LeavesOthersAlone plainOptions) (create 0)
      twoCapabilities := by
  rintro ⟨-, -, -, hrelease, -⟩
  have hstays := congrArg Option.isSome ((hrelease _ _ rfl).outstanding (js "r"))
  exact absurd hstays (by decide)

end ReverseLeaseRuntime
end GajaeCode
