import NetboxRpc.BackendTransport
import NetboxRpc.FenceSafety
import NetboxRpc.RunnerResponse

/-!
# Conservative transport outcomes

Every way in which the exchange of a registration can end leaves the fence it reserved blocked,
except a connection that was never made and a closed envelope that proves the token gone or never
issued.
-/

namespace NetboxRpc

open JsonSchema

/-! ## Texts that a schema enumerates -/

theorem mem_of_valid_choice {search : String → String → Bool} {fuel : ℕ} {values : List String}
    {v : Json} (h : valid search fuel (Schema.textChoice values) v = true) :
    ∃ s ∈ values, v = .str s := by
  cases fuel with
  | zero => cases h
  | succ fuel =>
    have hkey : ((members (Schema.texts values)).any (fun w => equal w v)) = true :=
      @keyword_of_valid search fuel _ v h "enum" _ (by simp)
    obtain ⟨w, hw, hequal⟩ := List.any_eq_true.mp hkey
    obtain ⟨s, hs, rfl⟩ := List.mem_map.mp hw
    exact ⟨s, hs, eq_of_equal_str hequal⟩

/-- The stage of a valid registration result, when it is one at which no token can exist. -/
theorem stage_of_tokenless {P : Platform} (hP : P.Implements RunnerContract.giteaRunner.resultSchema)
    {result : Entries}
    (hvalid : P.schemaError RunnerContract.giteaRunner.resultSchema (.obj result) = none)
    (hstage : tokenlessStages.any (fun stage => valueOf result "stage" == .str stage) = true) :
    valueOf result "stage" = .str "generate_token" := by
  obtain ⟨stage, hmem, heq⟩ := List.any_eq_true.mp hstage
  have hvalue : valueOf result "stage" = .str stage := eq_of_beq heq
  have hfind : Json.find result "stage" = some (.str stage) := by
    unfold valueOf at hvalue
    cases hfind : Json.find result "stage" with
    | none => rw [hfind] at hvalue; cases hvalue
    | some v => rw [hfind] at hvalue; exact congrArg some hvalue
  have hproperty := valid_property ((hP _).mp hvalid)
    (List.mem_of_getElem? (i := 3) rfl : ("properties", Json.obj GiteaRunner.resultProperties) ∈ _)
    (List.mem_of_getElem? (i := 16) rfl :
      ("stage", Schema.textChoice GiteaRunner.stages) ∈ GiteaRunner.resultProperties) hfind
  obtain ⟨s, hs, hstr⟩ := mem_of_valid_choice hproperty
  cases hstr
  have hboth : ∀ t ∈ tokenlessStages, t ∈ GiteaRunner.stages → t = "generate_token" := by decide
  rw [hvalue, hboth stage hmem hs]

/-! ## Which exchanges can clear the fence -/

def Exchange.ConnectTimedOut (x : Exchange) : Prop := x.post = .requestException true false

structure ClosedEnvelope (P : Platform) (c : RunnerCall) (data : Json) (result : Entries) : Prop where
  names : ∃ entries, data = .obj entries ∧
    (∀ e ∈ entries, e.1 ∈ envelopeNames) ∧ ∀ name ∈ envelopeNames, (Json.find entries name).isSome
  carries : data.get? "result" = some (.obj result)
  valid : validates P.search RunnerContract.giteaRunner.resultSchema (.obj result) = true
  operation : (valueOf result "operation").PyEq (.str (c.operation P))
  scope : (valueOf result "scope").PyEq (.str (textOr P c.normalized "scope" ""))
  owner : (valueOf result "fence_execution_id").PyEq (valueOf c.normalized "fence_execution_id")
  generation : (valueOf result "fence_generation").PyEq (valueOf c.normalized "fence_generation")

/-- The result reports that the token is invalidated, or that none was ever generated. -/
def ReportsRelease (result : Entries) : Prop :=
  valueOf result "token_reset_required" = .bool false ∧
    (valueOf result "token_invalidated" = .bool true ∨
      valueOf result "stage" = .str "generate_token" ∧ valueOf result "token_sha256" = .null)

def Exchange.ProvesRelease (P : Platform) (loads : List UInt8 → Except ReadFailure Json)
    (c : RunnerCall) (x : Exchange) : Prop :=
  ∃ r data result, x.post = .response r ∧
    readBoundedJsonResponse loads backendResponseMaxBytes r = .ok data ∧
    ClosedEnvelope P c data result ∧ ReportsRelease result

section

variable {P : Platform} {p : TransportPolicy} {c : RunnerCall}

theorem reset_required_of_indeterminate (P : Platform) (p : TransportPolicy) :
    ∃ result, Json.find (giteaRunnerTransportFailureResponse P p "indeterminate") "result" =
        some (.obj result) ∧ valueOf result "token_reset_required" = .bool true := by
  refine ⟨_, rfl, ?_⟩
  by_cases hop : (if p.operation P ∈ GiteaRunner.operations then p.operation P else "register") =
      "reconcile"
  · simp only [hop]
    rfl
  · simp only [hop]
    rfl

/-- What `_normalize_gitea_runner_closed_response` keeps of a body. -/
theorem normalizeGiteaRunnerClosedResponse_cases {data : Json} {normalized : Entries}
    (h : normalizeGiteaRunnerClosedResponse P p data = some normalized) :
    ∃ entries ok result, data = .obj entries ∧ normalized = [("ok", .bool ok), ("result", .obj result)] ∧
      Json.find entries "result" = some (.obj result) ∧
      (∀ e ∈ entries, e.1 ∈ envelopeNames) ∧
      ∀ name ∈ envelopeNames, (Json.find entries name).isSome := by
  unfold normalizeGiteaRunnerClosedResponse at h
  split at h
  · rename_i entries
    split at h
    · rename_i ok result code message hok hresult hcode hmessage
      split_ifs at h with hall
      obtain ⟨hnames, -, -, -, -, -, hevents, -⟩ := hall
      cases h
      refine ⟨entries, ok, result, rfl, rfl, hresult, ?_, ?_⟩
      · intro e he
        simpa using List.all_eq_true.mp hnames e he
      · intro name hname
        simp only [envelopeNames, List.mem_cons, List.not_mem_nil, or_false] at hname
        rcases hname with rfl | rfl | rfl | rfl | rfl <;> simp [hok, hresult, hcode, hmessage, hevents]
    · cases h
  · cases h

variable {loads : List UInt8 → Except ReadFailure Json} {x : Exchange} {response : Entries}

theorem normalizeGiteaRunnerBackendResponse_cases (P : Platform) (p : TransportPolicy) (status : ℕ)
    (data : Json) :
    normalizeGiteaRunnerBackendResponse P p status data =
        giteaRunnerTransportFailureResponse P p "indeterminate" ∨
      normalizeGiteaRunnerClosedResponse P p data =
        some (normalizeGiteaRunnerBackendResponse P p status data) := by
  unfold normalizeGiteaRunnerBackendResponse
  cases normalizeGiteaRunnerClosedResponse P p data with
  | none => exact .inl rfl
  | some normalized =>
    dsimp only
    split_ifs
    · exact .inr rfl
    · exact .inl rfl

theorem callBackendWithPlan_cases {post : PostOutcome}
    (h : callBackendWithPlan P loads p post = .ok response) :
    response = giteaRunnerTransportFailureResponse P p "indeterminate" ∨
      post = .requestException true false ∨
      ∃ r data, post = .response r ∧
        readBoundedJsonResponse loads backendResponseMaxBytes r = .ok data ∧
        normalizeGiteaRunnerClosedResponse P p data = some response := by
  cases post with
  | requestException connectTimeout expired =>
    cases expired with
    | true => cases connectTimeout <;> cases h
    | false =>
      cases connectTimeout with
      | true => exact .inr (.inl rfl)
      | false => exact .inl (Except.ok.inj h).symm
  | expired => cases h
  | raised e => cases h
  | response r =>
    dsimp only [callBackendWithPlan] at h
    split_ifs at h with hredirect
    · exact .inl (Except.ok.inj h).symm
    · cases hread : readBoundedJsonResponse loads backendResponseMaxBytes r with
      | error f =>
        rw [hread] at h
        cases f with
        | rejected => exact .inl (Except.ok.inj h).symm
        | expired => cases h
        | raised e => cases h
      | ok data =>
        rw [hread] at h
        cases h
        rcases normalizeGiteaRunnerBackendResponse_cases P p r.status data with hclosed | hclosed
        · exact .inl hclosed
        · exact .inr (.inr ⟨r, data, rfl, hread, hclosed⟩)

/-- The response of a call is one of three: an indeterminate envelope, the envelope of a connection
that timed out, or what the closed normalizer kept of the body. -/
theorem callBackend_cases (h : callBackend P loads p x = .ok response) :
    response = giteaRunnerTransportFailureResponse P p "indeterminate" ∨ x.ConnectTimedOut ∨
      ∃ r data, x.post = .response r ∧
        readBoundedJsonResponse loads backendResponseMaxBytes r = .ok data ∧
        normalizeGiteaRunnerClosedResponse P p data = some response := by
  unfold callBackend at h
  dsimp only at h
  by_cases hrefused : (!x.admitted) = true
  · rw [if_pos hrefused] at h
    exact .inl (Except.ok.inj h).symm
  rw [if_neg hrefused] at h
  cases hplan : callBackendWithPlan P loads p x.post with
  | error e =>
    rw [hplan] at h
    cases e with
    | none => exact .inl (Except.ok.inj h).symm
    | some e => cases h
  | ok planned =>
    rw [hplan] at h
    have hresponse : response = _ := (Except.ok.inj h).symm
    by_cases hlate : x.late = true
    · rw [if_pos hlate] at hresponse
      exact .inl hresponse
    · rw [if_neg hlate] at hresponse
      rw [hresponse]
      exact callBackendWithPlan_cases hplan

/-- An accepted response that clears the fence reports a release, and came from a connection that
timed out or from a closed envelope. -/
theorem release_of_cleared (hP : P.Implements RunnerContract.giteaRunner.resultSchema)
    (hcontract : c.contract = .giteaRunner) {result : Entries}
    (hcall : callBackend P loads p x = .ok response)
    (haccepted : acceptedResult P c response = some result)
    (hclears : (clearWithoutToken P c result || resetProven result) = true) :
    x.ConnectTimedOut ∨ x.ProvesRelease P loads c := by
  have hresponse := Accepted.of_acceptedResult haccepted
  have hvalid := hresponse.valid
  rw [hcontract] at hvalid
  have hreports : ReportsRelease result := by
    simp only [Bool.or_eq_true, clearWithoutToken, resetProven, Bool.and_eq_true, beq_iff_eq]
      at hclears
    rcases hclears with ⟨⟨⟨-, hstage⟩, htoken⟩, hreset⟩ | ⟨hinvalidated, hreset⟩
    · exact ⟨hreset, .inr ⟨stage_of_tokenless hP hvalid hstage, htoken⟩⟩
    · exact ⟨hreset, .inl hinvalidated⟩
  rcases callBackend_cases hcall with rfl | htimeout | ⟨r, data, hpost, hread, hclosed⟩
  · obtain ⟨failed, hfailed, hrequired⟩ := reset_required_of_indeterminate P p
    rw [hresponse.carries] at hfailed
    cases hfailed
    have := hreports.1
    rw [hrequired] at this
    cases this
  · exact .inl htimeout
  · right
    obtain ⟨entries, ok, kept, rfl, rfl, hfind, hnames, hpresent⟩ :=
      normalizeGiteaRunnerClosedResponse_cases hclosed
    have hkept : kept = result := by
      have hcarries := hresponse.carries
      cases hcarries
      rfl
    subst hkept
    exact ⟨r, .obj entries, kept, hpost, hread,
      ⟨⟨entries, rfl, hnames, hpresent⟩, hfind, (hP _).mp hvalid, hresponse.operation,
        hresponse.scope, hresponse.owner, hresponse.generation⟩, hreports⟩

end

/-! ## The fence after the run -/

section

variable {P : Platform} {c : RunnerCall} {site : RunnerSite}

/-- A started call owns the fence that it reserved. -/
theorem Reserved.owned {now : DateTime} {before : RunnerSite} (h : Reserved P now before c site)
    (hop : c.operation P = c.contract.startOperation) :
    ∃ fence, site.fences (c.canonicalScope P) = some fence ∧ fence.OwnedBy P c := by
  cases h with
  | @started fence generation hfence hgeneration hstart hstate hblocking =>
    refine ⟨_, fences_setFence_self _ _ _, ?_, fun _ => ⟨rfl, rfl⟩, fun hreconcile => ?_⟩
    · unfold ScopeFence.approvedGeneration at hgeneration
      split at hgeneration
      · rename_i n hn
        split_ifs at hgeneration with hall
        cases hgeneration
        rw [hn]
        have hnat : ((n.toNat : ℕ) : ℤ) = n := by omega
        change Json.PyEq (.int ((n.toNat : ℕ) : ℤ)) (.int n)
        rw [hnat]
        rfl
      · cases hgeneration
    · rw [hstart] at hreconcile
      exact absurd hreconcile c.contract.startOperation_ne
  | takenOver hfence hgeneration hreconcile hstate hblocking hreconciliation hquiescent hlost =>
    rw [hop] at hreconcile
    exact absurd hreconcile c.contract.startOperation_ne

theorem fences_failExecution (now : DateTime) (site : RunnerSite) (copy : ProjectionState)
    (e : RPCExecutionError) : (failExecution P now site c copy e).fences = site.fences := by
  unfold failExecution
  split
  · split_ifs <;> rfl
  · rfl

/-- The fallback after any error blocks a fence that the call owns. -/
theorem blocked_after_failure {fence : ScopeFence} (now : DateTime)
    (hfence : site.fences (c.canonicalScope P) = some fence) (howned : fence.OwnedBy P c)
    (copy : ProjectionState) (e : RPCExecutionError) :
    ∃ fence', (failExecution P now (blockRunnerScopeAfterFailure P now site c) c copy e).fences
        (c.canonicalScope P) = some fence' ∧ fence'.state = .blocked := by
  have hblock : blockGiteaRunnerScope P now site c = .ok (site.setFence (c.canonicalScope P)
      (fence.block (c.operation P) now)) := blockGiteaRunnerScope_iff.mpr ⟨fence, hfence, howned, rfl⟩
  refine ⟨fence.block (c.operation P) now, ?_, rfl⟩
  rw [fences_failExecution, blockRunnerScopeAfterFailure, hblock]
  exact fences_setFence_self _ _ _

theorem state_settle (fence : ScopeFence) (result : Entries) (now : DateTime) :
    (fence.settle P c result now).state =
      if clearWithoutToken P c result || resetProven result then .clear else .blocked := by
  unfold ScopeFence.settle
  dsimp only
  split_ifs <;> rfl

/-- After a registration that reserved the fence, the fence is clear only if the connection timed
out or the body proves a release; otherwise it is blocked. -/
theorem fence_after_register_run (hP : P.Implements RunnerContract.giteaRunner.resultSchema)
    {now₀ : DateTime} {before : RunnerSite}
    (hprocedure : c.context.procedureName = giteaRunnerRegister) (hop : c.operation P = "register")
    (hreserved : reserveGiteaRunnerScope P now₀ before c = .ok site)
    (loads : List UInt8 → Except ReadFailure Json) (now : DateTime) (copy : ProjectionState)
    (x : Exchange) :
    ∃ fence, (finishReservedRun P loads now site c copy x).fences (c.canonicalScope P) = some fence ∧
      (fence.state = .clear → x.ConnectTimedOut ∨ x.ProvesRelease P loads c) ∧
      (¬ (x.ConnectTimedOut ∨ x.ProvesRelease P loads c) → fence.state = .blocked) := by
  have hcontract : c.contract = .giteaRunner := by
    rw [RunnerCall.contract, hprocedure]
    rfl
  have hstart : c.operation P = c.contract.startOperation := by rw [hop, hcontract]; rfl
  obtain ⟨fence, hfence, howned⟩ := (Reserved.of_reserve hreserved).owned hstart
  have hblocked : ∀ e, ∃ fence', (failExecution P now (blockRunnerScopeAfterFailure P now site c) c
      copy e).fences (c.canonicalScope P) = some fence' ∧
      (fence'.state = .clear → x.ConnectTimedOut ∨ x.ProvesRelease P loads c) ∧
      (¬ (x.ConnectTimedOut ∨ x.ProvesRelease P loads c) → fence'.state = .blocked) := fun e => by
    obtain ⟨fence', hfence', hstate⟩ := blocked_after_failure now hfence howned copy e
    refine ⟨fence', hfence', fun hclear => ?_, fun _ => hstate⟩
    rw [hstate] at hclear
    cases hclear
  unfold finishReservedRun
  cases hcall : callBackend P loads (resolveBackendTransportPolicy c copy) x with
  | error e => exact hblocked e
  | ok response =>
    cases hrecord : recordGiteaRunnerResponse P now site c copy response with
    | error e =>
      simp only [hrecord, bind, Except.bind]
      exact hblocked e
    | ok s =>
      obtain ⟨result, fence₀, haccepted, -, hfence₀, -, -, hrecorded⟩ :=
        recordGiteaRunnerResponse_iff.mp hrecord
      obtain ⟨-, e, events, -, -, hsite, -⟩ := recordBackendResponse_iff.mp hrecorded
      simp only [hrecord, bind, Except.bind]
      refine ⟨fence₀.settle P c result now, ?_, ?_⟩
      · rw [hsite]
        exact fences_setFence_self _ _ _
      · rw [state_settle]
        by_cases hclears : (clearWithoutToken P c result || resetProven result) = true
        · have hrelease := release_of_cleared hP hcontract hcall haccepted hclears
          exact ⟨fun _ => hrelease, fun hnot => absurd hrelease hnot⟩
        · rw [if_neg hclears]
          refine ⟨fun hclear => ?_, fun _ => rfl⟩
          cases hclear

end

def clearSite : RunnerSite :=
  { reservedSite with
    fences := fun scope => if scope = proxboxScope then some (ScopeFence.seed 0) else none }

theorem registerCall_reserves :
    reserveGiteaRunnerScope default 0 clearSite registerCall =
      .ok (clearSite.setFence proxboxScope ((ScopeFence.seed 0).acquire 1 1 0)) :=
  Reserved.reserve (@Reserved.started default 0 clearSite registerCall (ScopeFence.seed 0) 1 (by decide)
    (by decide) (by decide) rfl rfl)

def cutShort : Exchange := ⟨true, .response ⟨200, "", some "2", [.chunk [123]]⟩, false⟩

theorem fence_after_register_run_cut_short :
    ∃ fence, (finishReservedRun default (fun _ => .error .rejected) 0
        (clearSite.setFence proxboxScope ((ScopeFence.seed 0).acquire 1 1 0)) registerCall runningRow
        cutShort).fences proxboxScope = some fence ∧ fence.state = .blocked := by
  obtain ⟨fence, hfence, -, hblocked⟩ := fence_after_register_run (implements_default _) rfl
    (by decide) registerCall_reserves (fun _ => .error .rejected) 0 runningRow cutShort
  refine ⟨fence, hfence, hblocked ?_⟩
  rintro (htimeout | ⟨r, data, result, hpost, hread, -⟩)
  · cases htimeout
  · cases hpost
    cases hread

end NetboxRpc
