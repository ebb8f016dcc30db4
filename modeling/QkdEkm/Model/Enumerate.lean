import QkdEkm.Lib.ExploreExact
import QkdEkm.Model.Checks
import QkdEkm.Model.Events

/-!
# Enumerate — exhaustive enumeration of the reachable closure

`run` is the generic breadth-first search of `Lib.Explore` at the
lifecycle model.
-/

namespace QkdEkm.Model

open QkdEkm.Lib

variable (dom : Domain) (rules : Rules)

/-- The relaxation of I7 that `run` computes from the reading. -/
def retainedEpoch : Bool :=
  rules.sessionEnd || rules.recoverClearsActive || rules.abandonConsumesEpoch

/-- The lifecycle model as an explored system. -/
def lifecycle : System State String Check where
  start := initial
  succs := fun s => enabled dom s rules
  invariants := invariants dom (retainedEpoch rules)
  guards := guards

/-- Enumerate every reachable state, checking I1-I9 and G1-G4. -/
def run (maxStates : Option Int) (fuel : Nat) : Option (Found State String Check) :=
  (lifecycle dom rules).explore maxStates fuel

/-- One labelled transition of the model. -/
def Fires (s : State) (label : String) (s2 : State) : Prop :=
  (label, s2) ∈ enabled dom s rules

/-- Reachable from `initial()` through `enabled`. -/
def Reached (s : State) : Prop := Reachable (Fires dom rules) initial s

/-- The search of the model returns `r`, given enough fuel. -/
def RunReturns (maxStates : Option Int) (r : Found State String Check) : Prop :=
  ∃ n, ∀ fuel, n ≤ fuel → run dom rules maxStates fuel = some r

end QkdEkm.Model
