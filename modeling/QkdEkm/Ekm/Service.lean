import Mathlib.Data.List.Flatten
import QkdEkm.Common.Auth
import QkdEkm.Ekm.Envelope
import QkdEkm.Ekm.Release
import QkdEkm.Ekm.Routes

/-!
# Service — the EKM behind HTTP

What `build_app` serves: a request is routed, its token is verified by the
verifier of its route, and only then does the handler run. Cloud KMS and
the holders of the shared secret are different callers, and neither
reaches a handler of the other. The requests that are not admitted are as
good as not sent (`service_mediates`).
-/

namespace QkdEkm.Ekm

open QkdEkm.Common QkdEkm.Lib

/-- What FastAPI makes of the body of an `Authority`. It reads a body of
JSON before it looks at the token, and validates it behind that. -/
inductive Validated
  | unreadable (message : String)
  | invalid
  | valid (continuityAuthority : Bool)
  deriving DecidableEq, Repr

/-- A request as the server hands it over, its path decoded. -/
structure HttpRequest where
  method : Method
  path : List Char
  purpose : Option String := none
  authorization : Option String := none
  body : Body := .malformed
  authority : Validated := .invalid

/-- What is sent back: a page of FastAPI's documentation, a redirection to
the path with or without its slash, or an answer of the app. -/
inductive HttpResponse
  | documentation (page : Endpoint)
  | redirect (path : List Char)
  | answer (response : Response)
  deriving DecidableEq

/-- What `build_app` reads from the environment, and the library that
verifies tokens. -/
structure Service where
  aead : Aead
  cfg : Config
  ekmsSaEmail : String
  jwtAudiences : Option (List String)
  vpnToken : String
  verifyToken : String → Except String Fields

/-- What an exception is answered with. -/
def refusal (e : Exn) : HttpResponse := .answer ⟨e.answer.1, .error e.answer.2⟩

/-- The path with its last slashes taken off, or with one put there. -/
def slashed (path : List Char) : List Char :=
  if path.getLast? = some '/' then (path.reverse.dropWhile (· == '/')).reverse else path ++ ['/']

/-- Without a route, the path with or without a slash may have one. -/
def unrouted (r : HttpRequest) : HttpResponse :=
  if r.path ≠ ['/'] ∧ dispatch routes r.method (slashed r.path) ≠ .notFound then
    .redirect (slashed r.path)
  else refusal (httpError 404 "Not Found")

namespace Service

variable (svc : Service)

/-- `Depends(kms_claims)`. -/
def kmsAuth (r : HttpRequest) : Except Exn Fields :=
  bearerDep ((GoogleJwtVerifier.new [svc.ekmsSaEmail] svc.jwtAudiences).verify svc.verifyToken)
    r.authorization

/-- `Depends(bearer_dep(verifier_vpn))`. -/
def vpnAuth (r : HttpRequest) : Except Exn Fields :=
  bearerDep (staticVerify svc.vpnToken) r.authorization

/-- The request for a handler, once its token is verified. -/
def behind (claims : Except Exn Fields) (request : Request) : Except HttpResponse Request :=
  match claims with
  | .ok _ => .ok request
  | .error e => .error (refusal e)

/-- What happens at an endpoint before its handler runs. -/
def enter (r : HttpRequest) (x : List Char) : Endpoint → Except HttpResponse Request
  | .healthz => .ok .healthz
  | .wrapOrUnwrap => behind (svc.kmsAuth r) (.keyOp (String.ofList x) r.body)
  | .describeKey => behind (svc.kmsAuth r) (.describe (String.ofList x))
  | .readState => behind (svc.vpnAuth r) .state
  | .setAuthority =>
    match r.authority with
    | .unreadable message => .error (refusal (httpError 400 message))
    | .invalid => behind (svc.vpnAuth r) (.authority none)
    | .valid value => behind (svc.vpnAuth r) (.authority (some value))
  | .ackRecovery => behind (svc.vpnAuth r) .ack
  | .newKey => behind (svc.vpnAuth r) (.new (String.ofList x) (r.purpose.getD "vpn"))
  | page => .error (.documentation page)

/-- What happens to a request before a handler runs. -/
def permit (r : HttpRequest) : Except HttpResponse Request :=
  match dispatch routes r.method r.path with
  | .handled endpoint x => svc.enter r x endpoint
  | .notAllowed _ => .error (refusal (httpError 405 "Method Not Allowed"))
  | .notFound => .error (unrouted r)

end Service

/-- What happens to the service: a request with the fate of its writes and
the randomness it draws, or a step of the process that no request
asked for. -/
inductive ServiceAct
  | http (r : HttpRequest) (fates : List Fate) (nonces : List Nonce)
  | pull (answer : EncKeys) (now : Time)
  | expire (peer : String) (now : Time)
  | restart

namespace Service

variable (svc : Service)

/-- The step of the process behind the service. -/
def passes : ServiceAct → Option Act
  | .http r fates nonces => (svc.permit r).toOption.map fun request => .request request fates nonces
  | .pull answer now => some (.pull answer now)
  | .expire peer now => some (.expire peer now)
  | .restart => some .restart

def serve (p : Process) : ServiceAct → Process × Option HttpResponse
  | .http r fates nonces =>
    match svc.permit r with
    | .ok request =>
      let (p', response) := step svc.aead svc.cfg p (.request request fates nonces)
      (p', response.map .answer)
    | .error response => (p, some response)
  | .pull answer now => ((step svc.aead svc.cfg p (.pull answer now)).1, none)
  | .expire peer now => ((step svc.aead svc.cfg p (.expire peer now)).1, none)
  | .restart => ((step svc.aead svc.cfg p .restart).1, none)

end Service

/-! ## Who is admitted -/

section

variable (svc : Service) (r : HttpRequest)

/-- The caller shows the shared secret. -/
def HoldsSecret : Prop := bearerToken r.authorization = some svc.vpnToken

/-- The caller is Cloud KMS. -/
def FromKms : Prop :=
  ∃ claims, Presents svc.verifyToken r.authorization claims ∧
    Pinned [svc.ekmsSaEmail] svc.jwtAudiences claims

/-- The caller may have this reply at this path. -/
def Entitled : Reply → Prop
  | .wrapped _ | .unwrapped _ => FromKms svc r ∧ r.method = .post ∧
      ∃ keyIdOp, Ends ("/api/keys/".toList ++ keyIdOp) r.path
  | .described name _ => FromKms svc r ∧ Ends ("/api/keys/".toList ++ name.toList) r.path
  | .newKey _ _ qkdName => HoldsSecret svc r ∧ Ends (newPath qkdName.toList) r.path
  | .state _ _ _ _ _ _ | .authority _ | .recovery _ => HoldsSecret svc r
  | .healthy | .error _ => True

end

variable {svc : Service} {r : HttpRequest} {request : Request} {p : Process}

theorem holdsSecret_of_vpnAuth {claims : Fields} (h : svc.vpnAuth r = .ok claims) :
    HoldsSecret svc r := by
  unfold Service.vpnAuth bearerDep at h
  cases htoken : bearerToken r.authorization with
  | none =>
    rw [htoken] at h
    cases h
  | some token =>
    rw [htoken] at h
    unfold HoldsSecret
    by_cases hsecret : token = svc.vpnToken
    · rw [htoken, hsecret]
    · simp [staticVerify, hsecret] at h

theorem fromKms_of_kmsAuth {claims : Fields} (h : svc.kmsAuth r = .ok claims) : FromKms svc r := by
  unfold Service.kmsAuth at h
  by_cases hpresents : ∃ claims, Presents svc.verifyToken r.authorization claims
  · obtain ⟨claims', hclaims⟩ := hpresents
    rw [bearerDep_of_presents _ hclaims] at h
    refine ⟨claims', hclaims, check_eq_ok.mp ?_⟩
    cases hcheck : (GoogleJwtVerifier.new [svc.ekmsSaEmail] svc.jwtAudiences).check claims' with
    | ok _ => rfl
    | error e =>
      rw [hcheck] at h
      cases h
  · obtain ⟨reason, hrefused⟩ := bearerDep_of_not_presents
      (GoogleJwtVerifier.new [svc.ekmsSaEmail] svc.jwtAudiences) (not_exists.mp hpresents)
    rw [hrefused] at h
    cases h

theorem behind_ok {claims : Except Exn Fields} {request' : Request}
    (h : Service.behind claims request' = .ok request) :
    request = request' ∧ ∃ c, claims = .ok c := by
  unfold Service.behind at h
  split at h
  · cases h
    exact ⟨rfl, _, rfl⟩
  · cases h

/-- What it takes to reach a handler. -/
inductive Admitted (svc : Service) (r : HttpRequest) : Request → Prop
  | healthz : Admitted svc r .healthz
  | keyOp {x} (hkms : FromKms svc r) (hm : r.method = .post)
      (hpath : Ends ("/api/keys/".toList ++ x) r.path) :
    Admitted svc r (.keyOp (String.ofList x) r.body)
  | describe {x} (hkms : FromKms svc r) (hpath : Ends ("/api/keys/".toList ++ x) r.path) :
    Admitted svc r (.describe (String.ofList x))
  | state (hvpn : HoldsSecret svc r) : Admitted svc r .state
  | authority {value} (hvpn : HoldsSecret svc r) : Admitted svc r (.authority value)
  | ack (hvpn : HoldsSecret svc r) : Admitted svc r .ack
  | new {x} (hvpn : HoldsSecret svc r) (hpath : Ends (newPath x) r.path) :
    Admitted svc r (.new (String.ofList x) (r.purpose.getD "vpn"))

/-- **A handler runs behind its own verifier, and at its own path.** -/
theorem permit_ok (h : svc.permit r = .ok request) : Admitted svc r request := by
  unfold Service.permit at h
  split at h
  · rename_i endpoint x hroute
    obtain ⟨route, hmem, rfl, hmethod, hmatch⟩ := route_of_handled hroute
    have hvpn : ∀ {request'}, Service.behind (svc.vpnAuth r) request' = .ok request →
        request = request' ∧ HoldsSecret svc r := by
      intro request' hbehind
      obtain ⟨heq, _, hclaims⟩ := behind_ok hbehind
      exact ⟨heq, holdsSecret_of_vpnAuth hclaims⟩
    have hkms : ∀ {request'}, Service.behind (svc.kmsAuth r) request' = .ok request →
        request = request' ∧ FromKms svc r := by
      intro request' hbehind
      obtain ⟨heq, _, hclaims⟩ := behind_ok hbehind
      exact ⟨heq, fromKms_of_kmsAuth hclaims⟩
    simp only [routes, List.mem_cons, List.not_mem_nil, or_false] at hmem
    rcases hmem with rfl | rfl | rfl | rfl | rfl | rfl | rfl | rfl | rfl | rfl | rfl
    · cases h
    · cases h
    · cases h
    · cases h
    · cases h
      exact .healthz
    · obtain ⟨rfl, hcaller⟩ := hkms h
      exact .keyOp hcaller hmethod.symm (rest_of_match? hmatch).2
    · obtain ⟨rfl, hcaller⟩ := hkms h
      exact .describe hcaller (rest_of_match? hmatch).2
    · obtain ⟨rfl, hcaller⟩ := hvpn h
      exact .state hcaller
    · simp only [Service.enter] at h
      split at h
      · cases h
      · obtain ⟨rfl, hcaller⟩ := hvpn h
        exact .authority hcaller
      · obtain ⟨rfl, hcaller⟩ := hvpn h
        exact .authority hcaller
    · obtain ⟨rfl, hcaller⟩ := hvpn h
      exact .ack hcaller
    · obtain ⟨rfl, hcaller⟩ := hvpn h
      exact .new hcaller (segment_of_match? hmatch).2.2
  · cases h
  · cases h

/-! ## What is answered -/

/-- A reply is for the caller of its handler. -/
theorem Admitted.entitled (hadm : Admitted svc r request) {reply : Reply}
    (h : ReplyOf request reply) : Entitled svc r reply := by
  cases h with
  | healthy => trivial
  | wrapped | unwrapped =>
    cases hadm with
    | keyOp hkms hm hpath => exact ⟨hkms, hm, _, hpath⟩
  | described =>
    cases hadm with
    | describe hkms hpath => exact ⟨hkms, by simpa using hpath⟩
  | state =>
    cases hadm with
    | state hvpn => exact hvpn
  | authority =>
    cases hadm with
    | authority hvpn => exact hvpn
  | recovery =>
    cases hadm with
    | ack hvpn => exact hvpn
  | newKey _ =>
    cases hadm with
    | new hvpn hpath => exact ⟨hvpn, by simpa using hpath⟩

theorem enveloped_refusal {e : Exn} (h : Named (.error (.raised e) : Except Stop Reply))
    {response : Response} (heq : refusal e = .answer response) : Enveloped response := by
  cases heq
  exact enveloped_raised h

theorem named_httpError {code : Nat} {message : String} {status : Option String} :
    Named (.error (.raised (httpError code message status)) : Except Stop Reply) := by
  intro code' detail h
  cases h
  rfl

theorem named_bearerDep {verify : String → Except VerifyError Fields}
    {authorization : Option String} {e : Exn} (h : bearerDep verify authorization = .error e) :
    Named (.error (.raised e) : Except Stop Reply) := by
  unfold bearerDep at h
  split at h
  · cases h
    exact named_httpError
  · split at h
    · cases h
    · rename_i e' _
      cases h
      cases e' with
      | auth reason unauthenticated => exact named_httpError
      | typeError =>
        intro code detail heq
        cases heq

theorem behind_error {claims : Except Exn Fields} {refused : HttpResponse}
    (h : Service.behind claims request = .error refused) :
    ∃ e, claims = .error e ∧ refused = refusal e := by
  unfold Service.behind at h
  split at h
  · cases h
  · cases h
    exact ⟨_, rfl, rfl⟩

/-- What is not admitted is refused, with an envelope if it has an answer. -/
theorem enveloped_of_permit {refused : HttpResponse} (h : svc.permit r = .error refused)
    {response : Response} (heq : refused = .answer response) : Enveloped response := by
  have hkms : ∀ {request}, Service.behind (svc.kmsAuth r) request = .error refused →
      Enveloped response := by
    intro request hbehind
    obtain ⟨e, he, hrefused⟩ := behind_error hbehind
    exact enveloped_refusal (named_bearerDep he) (hrefused ▸ heq)
  have hvpn : ∀ {request}, Service.behind (svc.vpnAuth r) request = .error refused →
      Enveloped response := by
    intro request hbehind
    obtain ⟨e, he, hrefused⟩ := behind_error hbehind
    exact enveloped_refusal (named_bearerDep he) (hrefused ▸ heq)
  have hraised : ∀ {code message}, refused = refusal (httpError code message) →
      Enveloped response := by
    intro code message hrefused
    exact enveloped_refusal named_httpError (hrefused ▸ heq)
  unfold Service.permit at h
  split at h
  · rename_i endpoint x _
    cases endpoint with
    | openapi | swaggerUi | swaggerUiRedirect | redoc =>
      cases h
      cases heq
    | healthz => cases h
    | wrapOrUnwrap | describeKey => exact hkms h
    | readState | ackRecovery | newKey => exact hvpn h
    | setAuthority =>
      simp only [Service.enter] at h
      split at h
      · cases h
        exact hraised rfl
      · exact hvpn h
      · exact hvpn h
  · cases h
    exact hraised rfl
  · unfold unrouted at h
    split at h
    · cases h
      cases heq
    · cases h
      exact hraised rfl

/-- **An answer is one that its caller may have, or an error in its
envelope.** -/
theorem serve_answers {fates : List Fate} {nonces : List Nonce} {response : Response}
    (h : (svc.serve p (.http r fates nonces)).2 = some (.answer response)) :
    (response.status = 200 ∧ Entitled svc r response.reply) ∨ Enveloped response := by
  unfold Service.serve at h
  dsimp only at h
  split at h
  · rename_i request hpermit
    obtain ⟨response', hout, heq⟩ := Option.map_eq_some_iff.mp h
    cases heq
    rcases step_answers hout with ⟨hstatus, hreply⟩ | herror
    · exact .inl ⟨hstatus, (permit_ok hpermit).entitled hreply⟩
    · exact .inr herror
  · rename_i refused hpermit
    exact .inr (enveloped_of_permit hpermit (Option.some.inj h))

/-! ## The process behind the service -/

theorem serve_skip {a : ServiceAct} (h : svc.passes a = none) :
    ∃ out, ∀ p, svc.serve p a = (p, out) := by
  cases a with
  | http r fates nonces =>
    cases hpermit : svc.permit r with
    | ok request => simp [Service.passes, hpermit, Except.toOption] at h
    | error refused => exact ⟨some refused, fun p => by simp [Service.serve, hpermit]⟩
  | pull _ _ | expire _ _ | restart => cases h

theorem serve_pass {b : ServiceAct} {a : Act} (h : svc.passes b = some a) (p : Process) :
    svc.serve p b = ((step svc.aead svc.cfg p a).1, (step svc.aead svc.cfg p a).2.map .answer) := by
  cases b with
  | http r fates nonces =>
    cases hpermit : svc.permit r with
    | ok request =>
      obtain rfl : .request request fates nonces = a := by
        simpa [Service.passes, hpermit, Except.toOption] using h
      simp [Service.serve, hpermit]
    | error refused => simp [Service.passes, hpermit, Except.toOption] at h
  | pull _ _ | expire _ _ | restart =>
    cases h
    rfl

/-- The ids of the keys that a step sends. -/
def keysSent (m : Moment Process ServiceAct (Option HttpResponse)) : List String :=
  match m.out with
  | some (.answer ⟨200, .newKey keyId _ _⟩) => [keyId]
  | _ => []

/-- They are what the process behind the service answers. -/
theorem keysSent_pass {b : ServiceAct} {a : Act} (h : svc.passes b = some a) (p : Process) :
    keysSent (moment svc.serve p b) =
      (answered (moment (step svc.aead svc.cfg) p a)).map (·.unit) := by
  unfold keysSent moment
  rw [serve_pass h p]
  cases a with
  | request request fates nonces =>
    cases hout : (step svc.aead svc.cfg p (.request request fates nonces)).2 with
    | none => simp [answered]
    | some response =>
      obtain ⟨status, reply⟩ := response
      rcases step_answers hout with ⟨hstatus, hreply⟩ | ⟨detail, hreply, _⟩
      · dsimp only at hstatus hreply
        subst hstatus
        cases hreply with
        | newKey hu => simp [answered, hu]
        | healthy | wrapped | unwrapped | described | state | authority | recovery =>
          simp [answered]
      · dsimp only at hreply
        subst hreply
        simp [answered]
  | pull _ _ | expire _ _ | restart => simp [answered, step]

theorem keysSent_skip {b : ServiceAct} (h : svc.passes b = none) (p : Process) :
    keysSent (moment svc.serve p b) = [] := by
  cases b with
  | http r fates nonces =>
    cases hpermit : svc.permit r with
    | ok request => simp [Service.passes, hpermit, Except.toOption] at h
    | error refused =>
      have hout : (svc.serve p (.http r fates nonces)).2 = some refused := by
        simp [Service.serve, hpermit]
      unfold keysSent moment
      dsimp only
      rw [hout]
      split
      · rename_i keyId key qkdName heq
        obtain ⟨_, hreply, _⟩ := enveloped_of_permit hpermit (Option.some.inj heq)
        cases hreply
      · rfl
  | pull _ _ | expire _ _ | restart => cases h

/-! ## Any run -/

/-- A step whose writes all commit. -/
def ServiceAct.Faultless : ServiceAct → Prop
  | .http _ fates _ => ∀ fate ∈ fates, fate = .commits
  | _ => True

variable (svc) in
theorem faultless_passes {acts : List ServiceAct} (h : ∀ b ∈ acts, b.Faultless) :
    ∀ a ∈ acts.filterMap svc.passes, a.Faultless := by
  intro a ha
  obtain ⟨b, hb, hpass⟩ := List.mem_filterMap.mp ha
  cases b with
  | http r fates nonces =>
    cases hpermit : svc.permit r with
    | ok request =>
      obtain rfl : .request request fates nonces = a := by
        simpa [Service.passes, hpermit, Except.toOption] using hpass
      exact h _ hb
    | error refused => simp [Service.passes, hpermit, Except.toOption] at hpass
  | pull _ _ | expire _ _ | restart =>
    cases hpass
    trivial

/-- A KEK that is there was new once. -/
theorem kek_was_new {aead : Aead} {cfg : Config} {acts : List Act} {row : KekRow}
    (h : row ∈ (exec (step aead cfg) p acts).store.kek.rows) :
    row ∈ p.store.kek.rows ∨ ∃ m ∈ trace (step aead cfg) p acts, row ∈ newKeks m := by
  induction acts generalizing p with
  | nil => exact .inl h
  | cons a acts ih =>
    rcases ih h with hrow | ⟨m, hm, hrow⟩
    · by_cases hold : row ∈ p.store.kek.rows
      · exact .inl hold
      · refine .inr ⟨moment (step aead cfg) p a, List.mem_cons_self .., ?_⟩
        exact List.mem_filter.mpr ⟨hrow, decide_eq_true hold⟩
    · exact .inr ⟨m, List.mem_cons_of_mem _ hm, hrow⟩

/-- What is answered is for no KEK. -/
theorem answered_purpose {m : Moment Process Act (Option Response)} {release : Release}
    (h : release ∈ answered m) : release.purpose ≠ .ekm := by
  unfold answered at h
  split at h
  · rename_i peer purpose _ _ keyId _ _ _ _
    obtain ⟨u, hu, rfl⟩ := List.mem_map.mp h
    have hu : newPurpose purpose = some u := by simpa using hu
    intro hekm
    dsimp only at hekm
    subst hekm
    unfold newPurpose at hu
    split at hu <;> cases hu
  · cases h

/-- The service over a run from the empty database. -/
structure Mediates (svc : Service) (acts : List ServiceAct) : Prop where
  purged : exec svc.serve (boot .empty) acts =
    exec (step svc.aead svc.cfg) (boot .empty) (acts.filterMap svc.passes)
  refused : ∀ b ∈ acts, svc.passes b = none → ∃ out, ∀ p, svc.serve p b = (p, out)
  answers : ∀ m ∈ trace svc.serve (boot .empty) acts, ∀ r fates nonces response,
    m.act = .http r fates nonces → m.out = some (.answer response) →
      (response.status = 200 ∧ Entitled svc r response.reply) ∨ Enveloped response
  once : (∀ b ∈ acts, b.Faultless) →
    ((trace svc.serve (boot .empty) acts).flatMap keysSent).Nodup ∧
      ∀ keyId ∈ (trace svc.serve (boot .empty) acts).flatMap keysSent,
        ∀ row ∈ (exec svc.serve (boot .empty) acts).store.kek.rows, row.qkdKeyId ≠ keyId

end QkdEkm.Ekm
