/-!
# Errors — the error envelope and the exceptions of the services
-/

namespace QkdEkm.Common

/-- `ERROR_STATUS`: the API error status for each HTTP code. -/
def errorStatus : Nat → Option String
  | 400 => some "INVALID_ARGUMENT"
  | 401 => some "UNAUTHENTICATED"
  | 403 => some "PERMISSION_DENIED"
  | 404 => some "NOT_FOUND"
  | 500 => some "INTERNAL"
  | 503 => some "UNAVAILABLE"
  | _ => none

/-- The content of the error envelope. -/
structure ErrorBody where
  code : Nat
  message : String
  status : String
  deriving DecidableEq, Repr

def errorBody (code : Nat) (message : String) (status : Option String := none) : ErrorBody where
  code := code
  message := message
  status := status.getD ((errorStatus code).getD "UNKNOWN")

/-- What a handler raises. -/
inductive Exn
  | http (statusCode : Nat) (detail : ErrorBody)
  | keyError
  | poolEmpty
  | assertionError
  | alreadyBound
  | valueError
  | typeError
  | recursionError
  | sqliteError
  deriving DecidableEq, Repr

/-- An `HTTPException` whose detail carries its own code. -/
def httpError (code : Nat) (message : String) (status : Option String := none) : Exn :=
  .http code (errorBody code message status)

/-- The status and body answered to a request that raised; only an
`HTTPException` shows its own. -/
def Exn.answer : Exn → Nat × ErrorBody
  | .http statusCode detail => (statusCode, detail)
  | _ => (500, errorBody 500 "internal error")

end QkdEkm.Common
