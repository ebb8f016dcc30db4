import QkdEkm.Ekm.Lifecycle

/-!
# State — the lifecycle control state

The declared domain (`IDS`, `VERSIONS`, `MAX_EPOCH`) is a parameter
`Domain` of everything below.
-/

namespace QkdEkm.Model

open QkdEkm.Ekm (Mode Derived derive)

/-- The declared identifiers, external key versions and last epoch. -/
structure Domain where
  ids : List String
  versions : List String
  maxEpoch : Nat

/-- The domain the source declares. -/
def declared : Domain where
  ids := ["k1", "k2", "k3", "k4"]
  versions := ["v1", "v2"]
  maxEpoch := 3

/-- The purpose and object of a binding: an EKM purpose binds an
external key version, a VPN purpose an activation epoch (kept as the
number whose decimal form the source stores). -/
inductive Target
  | ekm (version : String)
  | vpn (epoch : Nat)
  deriving DecidableEq

/-- A persistent `(identifier, (purpose, object))` binding. -/
abbrev Binding := String × Target

structure State where
  sq : Bool := true
  se : Bool := true
  pool : Finset String := ∅
  bindings : Finset Binding := ∅
  ke : Option String := none
  kp : Option (String × Nat) := none
  kv : Option (String × Nat) := none
  epoch : Nat := 0
  authority : Bool := true
  recovery : Bool := false
  -- calibration-only extensions, inert at their defaults
  expired : Finset String := ∅
  suspended : Bool := false
  detected : Bool := false
  order : List String := []
  deriving DecidableEq

def initial : State := {}

/-- Identifiers that carry a persistent binding. -/
def consumed (s : State) : Finset String := s.bindings.image Prod.fst

def derived (s : State) : Derived :=
  derive s.sq s.se s.pool.card (s.ke.isSome || s.kv.isSome) s.authority
    (s.recovery || s.detected) s.suspended

/-- `L = f(X)`. -/
def mode (s : State) : Mode := (derived s).mode

/-- `Y = g(X, gamma)`: managed storage, fresh allocation, established VPN. -/
structure Consequences where
  storage : Bool
  freshAllocation : Bool
  establishedVpn : String
  deriving DecidableEq

def consequences (s : State) : Consequences where
  storage := (derived s).storage
  freshAllocation := (derived s).freshAllocation
  establishedVpn := (derived s).establishedVpn

theorem mem_consumed {s : State} {k : String} :
    k ∈ consumed s ↔ ∃ t, (k, t) ∈ s.bindings := by
  simp [consumed]

end QkdEkm.Model
