import Mathlib.Data.Finset.Basic
import QkdEkm.Lib.Text
import QkdEkm.Model.State

/-!
# Checks — state properties I1-I9 and transition guards G1-G4

Written against the state fields and the label text only, never against
the transition generator.
-/

namespace QkdEkm.Model

open QkdEkm.Lib (partition)
open QkdEkm.Ekm (Mode)

/-- The names of the checks. -/
inductive Check
  | i1 | i2 | i3 | i4 | i5 | i6 | i7 | i8 | i9
  | g1 | g2 | g3 | g4
  deriving DecidableEq, Repr

def modes : List Mode :=
  [.ready, .buffered, .bindingHoldover, .exhausted, .recovery, .suspended]

/-- `name` if the check fails. -/
def failing (name : Check) (bad : Bool) : List Check := if bad then [name] else []

@[simp] theorem failing_eq_nil {name : Check} {bad : Bool} :
    failing name bad = [] ↔ bad = false := by
  cases bad <;> simp [failing]

/-- I6 of a pending activation, if there is one. -/
def badPending (dom : Domain) (s : State) : Bool :=
  match s.kp with
  | some (k, e) =>
    decide ((k, Target.vpn e) ∉ s.bindings) || !(decide (s.epoch < e) && decide (e ≤ dom.maxEpoch))
  | none => false

/-- I7 of the active session, or of its absence. -/
def badActive (s : State) (retainedEpoch : Bool) : Bool :=
  match s.kv with
  | some (k, e) => decide ((k, Target.vpn e) ∉ s.bindings) || decide (e ≠ s.epoch)
  | none => decide (s.epoch ≠ 0) && !retainedEpoch

/-- Names of the state properties `s` violates. Two sorted sequences are
compared as multisets; `len(xs) != len(set(xs))` compares a multiset
with its set. -/
def invariants (dom : Domain) (retainedEpoch : Bool) (s : State) : List Check :=
  let pool := s.pool.val
  let boundIds := s.bindings.val.map Prod.fst
  let pairs := s.bindings.val.map Prod.snd
  let c := consequences s
  failing .i1 (decide (pool.card ≠ pool.toFinset.card) ||
      (decide (s.order ≠ []) && decide ((s.order : Multiset String) ≠ pool.toFinset.val))) ++
    failing .i2 (decide (boundIds.card ≠ boundIds.toFinset.card)) ++
    failing .i3 (decide ((pool.toFinset ∩ boundIds.toFinset).Nonempty) ||
      decide ((s.expired ∩ (pool.toFinset ∪ boundIds.toFinset)).Nonempty)) ++
    failing .i4 (decide (pairs.card ≠ pairs.toFinset.card)) ++
    failing .i5 (s.ke.any fun v => decide (¬ ∃ b ∈ s.bindings, b.2 = .ekm v)) ++
    failing .i6 (badPending dom s) ++
    failing .i7 (badActive s retainedEpoch) ++
    failing .i8 (decide (mode s ∉ modes)) ++
    failing .i9 (!(decide (c.establishedVpn = "distinct") && decide (c.storage = s.se)))

/-- Names of the transition guards `s --label--> s2` violates. -/
def guards (label : String) (s s2 : State) : List Check :=
  let family := (partition label ':').1
  let arg := (partition label ':').2
  let identifier := (partition arg ':').1
  failing .g1 (decide (family = "ingest") && !s.sq) ++
    failing .g2 (decide (family = "alloc_ekm" ∨ family = "alloc_vpn") &&
      (!s.se || decide (s.pool = ∅) || decide (identifier ∉ s.pool))) ++
    failing .g3 (decide (family = "reject_stale") && decide (s2 ≠ s)) ++
    failing .g4 (decide (family = "recover") && !(s.sq && s.se && s.recovery))

end QkdEkm.Model
