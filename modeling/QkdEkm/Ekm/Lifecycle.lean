import Mathlib.Data.Finset.Card

/-!
# Lifecycle — the mode derivation

`derive` is shared: the running EKM and the reference model both read
their mode off it.
-/

namespace QkdEkm.Ekm

/-- The six lifecycle modes. -/
inductive Mode
  | ready
  | buffered
  | bindingHoldover
  | exhausted
  | suspended
  | recovery
  deriving DecidableEq, Repr

/-- The mode together with the consequences that depend on it. -/
structure Derived where
  mode : Mode
  storage : Bool
  freshAllocation : Bool
  establishedVpn : String
  deriving DecidableEq

def deriveMode (sourceAvailable ekmReachable : Bool) (poolSize : Nat)
    (hasAuthoritativeBinding continuityAuthority recoveryPending policySuspended : Bool) :
    Mode :=
  if recoveryPending then .recovery
  else if policySuspended then .suspended
  else if sourceAvailable && ekmReachable then .ready
  else if ekmReachable && decide (0 < poolSize) then .buffered
  else if !continuityAuthority then .suspended
  else if hasAuthoritativeBinding then .bindingHoldover
  else .exhausted

def derive (sourceAvailable ekmReachable : Bool) (poolSize : Nat)
    (hasAuthoritativeBinding continuityAuthority recoveryPending : Bool)
    (policySuspended : Bool := false) : Derived :=
  let mode := deriveMode sourceAvailable ekmReachable poolSize hasAuthoritativeBinding
    continuityAuthority recoveryPending policySuspended
  { mode
    storage := ekmReachable
    freshAllocation := ekmReachable && decide (0 < poolSize) &&
      !([Mode.suspended, .recovery].contains mode)
    establishedVpn := "distinct" }

end QkdEkm.Ekm
