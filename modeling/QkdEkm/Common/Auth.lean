import QkdEkm.Common.Errors
import QkdEkm.Common.Json
import QkdEkm.Lib.Text

/-!
# Auth — the verification of bearer tokens

The claims of a Google token are JSON values of any type. A test with
`in` on a set raises `TypeError` for a list or a dictionary, which is no
`AuthError`, so a token with such a claim is not refused but crashes the
request (`bearer_admits_iff`).
-/

namespace QkdEkm.Common

open QkdEkm.Lib

/-- What a verifier raises: an `AuthError`, or a `TypeError`. -/
inductive VerifyError
  | auth (reason : String) (unauthenticated : Bool)
  | typeError
  deriving DecidableEq, Repr

/-- `_ISSUERS`. -/
def issuers : List String := ["accounts.google.com", "https://accounts.google.com"]

/-- `value in s`, for a set of strings. -/
def Json.inSet (s : List String) : Json → Except VerifyError Bool
  | .str value => .ok (decide (value ∈ s))
  | .null | .bool _ | .num _ => .ok false
  | .arr _ | .obj _ => .error .typeError

/-- `value is True`. -/
def Json.isTrue : Json → Bool
  | .bool b => b
  | _ => false

/-- `if not test: self._reject(reason, claims)`. -/
def orReject (test : Except VerifyError Bool) (reason : String) : Except VerifyError Unit :=
  match test with
  | .ok true => .ok ()
  | .ok false => .error (.auth reason false)
  | .error e => .error e

/-! ## The verifiers -/

structure GoogleJwtVerifier where
  allowedEmails : List String
  audiences : Option (List String)

namespace GoogleJwtVerifier

/-- `__init__`: an empty set of audiences counts as none. -/
def new (allowedEmails : List String) (audiences : Option (List String)) : GoogleJwtVerifier where
  allowedEmails
  audiences := audiences.filter (!·.isEmpty)

/-- The checks of the claims. -/
def check (v : GoogleJwtVerifier) (claims : Fields) : Except VerifyError Unit := do
  orReject ((claims.get "iss").inSet issuers) "issuer not trusted"
  orReject (.ok (claims.get "email_verified").isTrue) "email not verified"
  orReject ((claims.get "email").inSet v.allowedEmails) "email not allowed"
  match v.audiences with
  | none => pure ()
  | some audiences => orReject ((claims.get "aud").inSet audiences) "audience not allowed"

/-- `verify`. `verifyToken` is what the library makes of a token: its
claims, or the name of the exception. -/
def verify (v : GoogleJwtVerifier) (verifyToken : String → Except String Fields)
    (token : String) : Except VerifyError Fields :=
  match verifyToken token with
  | .error name => .error (.auth ("invalid token: " ++ name) true)
  | .ok claims => (v.check claims).map fun _ => claims

end GoogleJwtVerifier

/-- `StaticTokenVerifier.verify`. -/
def staticVerify (secret token : String) : Except VerifyError Fields :=
  if token = secret then .ok [("sub", .str "static")] else .error (.auth "invalid token" false)

/-! ## The dependency -/

/-- The token of a bearer header. -/
def bearerToken (authorization : Option String) : Option String :=
  let authorization := (authorization.getD "").toList
  if "Bearer ".toList.isPrefixOf authorization then
    some (String.ofList (strip (authorization.drop 7)))
  else none

/-- What the dependency makes of what a verifier raises. -/
def VerifyError.raised : VerifyError → Exn
  | .auth reason unauthenticated => httpError (if unauthenticated then 401 else 403) reason
  | .typeError => .typeError

/-- `bearer_dep`. -/
def bearerDep (verify : String → Except VerifyError Fields) (authorization : Option String) :
    Except Exn Fields :=
  match bearerToken authorization with
  | none => .error (httpError 401 "missing bearer token")
  | some token =>
    match verify token with
    | .ok claims => .ok claims
    | .error e => .error e.raised

/-! ## The tests -/

/-- The value is one of these strings. -/
def Json.OneOf (s : List String) (value : Json) : Prop := ∃ t ∈ s, value = .str t

theorem inSet_eq_true {s : List String} {value : Json} :
    value.inSet s = .ok true ↔ value.OneOf s := by
  unfold Json.OneOf
  cases value with
  | str t =>
    simp only [Json.inSet, Except.ok.injEq, decide_eq_true_eq, Json.str.injEq]
    exact ⟨fun ht => ⟨t, ht, rfl⟩, by rintro ⟨_, ht, rfl⟩; exact ht⟩
  | null | bool b | num n | arr items | obj fields => simp [Json.inSet]

theorem inSet_eq_typeError {s : List String} {value : Json} :
    value.inSet s = .error .typeError ↔ value.hashable = false := by
  cases value <;> simp [Json.inSet, Json.hashable]

theorem isTrue_iff {value : Json} : value.isTrue = true ↔ value = .bool true := by
  cases value <;> simp [Json.isTrue]

section

variable {test : Except VerifyError Bool} {reason : String} {rest : Except VerifyError Unit}

theorem orReject_eq_ok : orReject test reason = .ok () ↔ test = .ok true := by
  rcases test with e | ⟨_ | _⟩ <;> simp [orReject]

theorem orReject_eq_typeError :
    orReject test reason = .error .typeError ↔ test = .error .typeError := by
  rcases test with e | ⟨_ | _⟩ <;> simp [orReject]

/-- A check succeeds if its test holds and the checks behind it succeed. -/
theorem orReject_bind_eq_ok : (orReject test reason >>= fun _ => rest) = .ok () ↔
    test = .ok true ∧ rest = .ok () := by
  rcases test with e | ⟨_ | _⟩ <;> simp [orReject, bind, Except.bind]

/-- It crashes if its test does, or a check that it lets run. -/
theorem orReject_bind_eq_typeError :
    (orReject test reason >>= fun _ => rest) = .error .typeError ↔
      test = .error .typeError ∨ test = .ok true ∧ rest = .error .typeError := by
  rcases test with e | ⟨_ | _⟩ <;> simp [orReject, bind, Except.bind]

end

/-! ## The claims -/

section

variable (allowedEmails : List String) (audiences : Option (List String)) (claims : Fields)

/-- The configured audiences. -/
def audienceSet : List String := audiences.getD []

/-- A pinned caller. -/
structure Pinned : Prop where
  issuer : (claims.get "iss").OneOf issuers
  verified : claims.get "email_verified" = .bool true
  email : (claims.get "email").OneOf allowedEmails
  audience : audienceSet audiences = [] ∨ (claims.get "aud").OneOf (audienceSet audiences)

/-- The first claim that the checks reach and that is a list or a
dictionary: the issuer, else the e-mail address, else the audience. -/
def Unhashable : Prop :=
  (claims.get "iss").hashable = false ∨
    (claims.get "iss").OneOf issuers ∧ claims.get "email_verified" = .bool true ∧
      ((claims.get "email").hashable = false ∨
        (claims.get "email").OneOf allowedEmails ∧ audienceSet audiences ≠ [] ∧
          (claims.get "aud").hashable = false)

variable {allowedEmails audiences claims}

theorem audiences_new : (GoogleJwtVerifier.new allowedEmails audiences).audiences =
    if audienceSet audiences = [] then none else some (audienceSet audiences) := by
  unfold GoogleJwtVerifier.new audienceSet
  rcases audiences with _ | ⟨_ | ⟨a, l⟩⟩ <;> simp [Option.filter_some]

theorem check_eq_ok : (GoogleJwtVerifier.new allowedEmails audiences).check claims = .ok () ↔
    Pinned allowedEmails audiences claims := by
  unfold GoogleJwtVerifier.check
  rw [orReject_bind_eq_ok, orReject_bind_eq_ok, orReject_bind_eq_ok, inSet_eq_true,
    inSet_eq_true, Except.ok.injEq, isTrue_iff, audiences_new]
  by_cases haud : audienceSet audiences = []
  · rw [if_pos haud]
    exact ⟨fun ⟨hi, hv, he, _⟩ => ⟨hi, hv, he, .inl haud⟩,
      fun h => ⟨h.issuer, h.verified, h.email, rfl⟩⟩
  · simp only [if_neg haud, orReject_eq_ok, inSet_eq_true]
    exact ⟨fun ⟨hi, hv, he, ha⟩ => ⟨hi, hv, he, .inr ha⟩,
      fun h => ⟨h.issuer, h.verified, h.email, h.audience.resolve_left haud⟩⟩

theorem check_eq_typeError :
    (GoogleJwtVerifier.new allowedEmails audiences).check claims = .error .typeError ↔
      Unhashable allowedEmails audiences claims := by
  unfold GoogleJwtVerifier.check Unhashable
  rw [orReject_bind_eq_typeError, orReject_bind_eq_typeError, orReject_bind_eq_typeError,
    inSet_eq_true, inSet_eq_true, inSet_eq_typeError, inSet_eq_typeError, Except.ok.injEq,
    isTrue_iff, audiences_new]
  by_cases haud : audienceSet audiences = []
  · simp [haud, pure, Except.pure]
  · rw [if_neg haud]
    simp only [orReject_eq_typeError, inSet_eq_typeError, ne_eq, haud, not_false_eq_true,
      true_and, reduceCtorEq, false_or]
    rfl

end

/-! ## The answer -/

/-- The header is a bearer header, and the library reads these claims
off its token. -/
def Presents (verifyToken : String → Except String Fields) (authorization : Option String)
    (claims : Fields) : Prop :=
  ∃ token, bearerToken authorization = some token ∧ verifyToken token = .ok claims

/-- The claims of a pinned caller come back, and anything else is
answered with 401 or 403. -/
structure AdmitsPinned (allowedEmails : List String) (audiences : Option (List String))
    (verifyToken : String → Except String Fields) (authorization : Option String)
    (result : Except Exn Fields) : Prop where
  admits : ∀ claims, result = .ok claims ↔ Presents verifyToken authorization claims ∧
    Pinned allowedEmails audiences claims
  refuses : (∃ claims, result = .ok claims) ∨
    ∃ code detail, result = .error (.http code detail) ∧ (code = 401 ∨ code = 403)

section

variable {allowedEmails : List String} {audiences : Option (List String)}
  {verifyToken : String → Except String Fields} {authorization : Option String} {claims : Fields}

theorem Presents.unique {claims' : Fields} (h : Presents verifyToken authorization claims)
    (h' : Presents verifyToken authorization claims') : claims' = claims := by
  obtain ⟨token, htoken, hclaims⟩ := h
  obtain ⟨token', htoken', hclaims'⟩ := h'
  cases htoken.symm.trans htoken'
  cases hclaims.symm.trans hclaims'
  rfl

/-- Where no claims are presented the answer is 401. -/
theorem bearerDep_of_not_presents (v : GoogleJwtVerifier)
    (h : ∀ claims, ¬ Presents verifyToken authorization claims) :
    ∃ reason, bearerDep (v.verify verifyToken) authorization = .error (httpError 401 reason) := by
  unfold bearerDep
  rcases htoken : bearerToken authorization with _ | token
  · exact ⟨_, rfl⟩
  rcases hlib : verifyToken token with name | claims
  · exact ⟨_, by simp only [GoogleJwtVerifier.verify, hlib]; rfl⟩
  · exact absurd ⟨token, htoken, hlib⟩ (h claims)

/-- Where they are, the checks decide. -/
theorem bearerDep_of_presents (v : GoogleJwtVerifier)
    (h : Presents verifyToken authorization claims) :
    bearerDep (v.verify verifyToken) authorization =
      match v.check claims with
      | .ok _ => .ok claims
      | .error e => .error e.raised := by
  obtain ⟨token, htoken, hlib⟩ := h
  simp only [bearerDep, htoken, GoogleJwtVerifier.verify, hlib]
  cases v.check claims <;> rfl

/-- What is refused is no answer for a pinned caller. -/
theorem admitsPinned_refused {e : Exn}
    (hnot : ∀ claims, Presents verifyToken authorization claims →
      ¬ Pinned allowedEmails audiences claims)
    (he : ∃ code detail, e = .http code detail ∧ (code = 401 ∨ code = 403)) :
    AdmitsPinned allowedEmails audiences verifyToken authorization (.error e) := by
  obtain ⟨code, detail, rfl, hcode⟩ := he
  refine ⟨fun claims => ⟨fun h => (by cases h), ?_⟩, .inr ⟨code, detail, rfl, hcode⟩⟩
  intro h
  exact absurd h.2 (hnot claims h.1)

theorem admitsPinned_admitted (h : Presents verifyToken authorization claims)
    (hpinned : Pinned allowedEmails audiences claims) :
    AdmitsPinned allowedEmails audiences verifyToken authorization (.ok claims) := by
  refine ⟨fun claims' => ⟨fun heq => ?_, fun h' => ?_⟩, .inl ⟨claims, rfl⟩⟩
  · cases heq
    exact ⟨h, hpinned⟩
  · rw [h.unique h'.1]

/-- Presented claims are admitted or refused, unless a check crashes. -/
theorem admitsPinned_iff_of_presents (h : Presents verifyToken authorization claims) :
    AdmitsPinned allowedEmails audiences verifyToken authorization
        (bearerDep ((GoogleJwtVerifier.new allowedEmails audiences).verify verifyToken)
          authorization) ↔
      ¬ Unhashable allowedEmails audiences claims := by
  rw [← check_eq_typeError, bearerDep_of_presents _ h]
  rcases hcheck : (GoogleJwtVerifier.new allowedEmails audiences).check claims with e | _
  · have hnot : ∀ claims', Presents verifyToken authorization claims' →
        ¬ Pinned allowedEmails audiences claims' := by
      intro claims' h' hpinned
      rw [h.unique h'] at hpinned
      cases (check_eq_ok.mpr hpinned).symm.trans hcheck
    cases e with
    | auth reason unauthenticated =>
      refine ⟨fun _ heq => (by cases heq), fun _ => admitsPinned_refused hnot ⟨_, _, rfl, ?_⟩⟩
      cases unauthenticated <;> simp
    | typeError =>
      refine ⟨fun hadmits => ?_, fun hne => absurd rfl hne⟩
      rcases hadmits.refuses with ⟨_, heq⟩ | ⟨_, _, heq, _⟩
      · cases heq
      · cases heq
  · exact ⟨fun _ heq => (by cases heq), fun _ => admitsPinned_admitted h (check_eq_ok.mp hcheck)⟩

end

/-- **Exactly the pinned callers are admitted, and all others refused,
unless a claim that a check reaches is a list or a dictionary**; then the
request crashes. -/
theorem bearer_admits_iff (allowedEmails : List String) (audiences : Option (List String))
    (verifyToken : String → Except String Fields) (authorization : Option String) :
    AdmitsPinned allowedEmails audiences verifyToken authorization
        (bearerDep ((GoogleJwtVerifier.new allowedEmails audiences).verify verifyToken)
          authorization) ↔
      ¬ ∃ claims, Presents verifyToken authorization claims ∧
        Unhashable allowedEmails audiences claims := by
  by_cases hpres : ∃ claims, Presents verifyToken authorization claims
  · obtain ⟨claims, hclaims⟩ := hpres
    rw [admitsPinned_iff_of_presents hclaims]
    constructor
    · intro hnot hex
      obtain ⟨claims', hclaims', hcrash⟩ := hex
      exact hnot (hclaims.unique hclaims' ▸ hcrash)
    · exact fun hnot hcrash => hnot ⟨claims, hclaims, hcrash⟩
  · have hnone := not_exists.mp hpres
    obtain ⟨reason, hresult⟩ := bearerDep_of_not_presents
      (GoogleJwtVerifier.new allowedEmails audiences) hnone
    rw [hresult]
    refine ⟨fun _ hex => ?_, fun _ => admitsPinned_refused (fun claims h => absurd h (hnone claims))
      ⟨401, _, rfl, .inl rfl⟩⟩
    obtain ⟨claims, h, _⟩ := hex
    exact hnone claims h

/-- The claims of a token for two audiences. -/
def twoAudiences : Fields :=
  [("iss", .str "accounts.google.com"), ("email_verified", .bool true), ("email", .str "kms"),
    ("aud", .arr [.str "ekm", .str "vpn"])]

/-- **A genuine token for two audiences crashes the request.** -/
theorem bearer_audience_list : ¬ ∀ allowedEmails audiences verifyToken authorization,
    AdmitsPinned allowedEmails audiences verifyToken authorization
      (bearerDep ((GoogleJwtVerifier.new allowedEmails audiences).verify verifyToken)
        authorization) := by
  intro h
  have hpresents : Presents (fun _ => .ok twoAudiences) (some "Bearer t") twoAudiences :=
    ⟨"t", by decide +kernel, rfl⟩
  have hcrash : Unhashable ["kms"] (some ["ekm"]) twoAudiences :=
    .inr ⟨⟨_, .head _, rfl⟩, rfl, .inr ⟨⟨_, .head _, rfl⟩, by decide, rfl⟩⟩
  have hadmits := h ["kms"] (some ["ekm"]) (fun _ => .ok twoAudiences) (some "Bearer t")
  rw [bearerDep_of_presents _ hpresents, check_eq_typeError.mpr hcrash] at hadmits
  rcases hadmits.refuses with ⟨_, ⟨⟩⟩ | ⟨_, _, ⟨⟩, _⟩

end QkdEkm.Common
