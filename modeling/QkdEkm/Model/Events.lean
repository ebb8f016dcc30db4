import Mathlib.Data.Finset.Option
import Mathlib.Data.Finset.Sort
import Mathlib.Data.String.Basic
import Mathlib.Order.Lattice.Nat
import QkdEkm.Model.State

/-!
# Events — the labelled lifecycle events

`enabled` returns every `(label, next state)` pair of a state, under a
reading `Rules` of the paper's prose. Each family of events is one list,
in the order the source appends them.
-/

namespace QkdEkm.Model

open QkdEkm.Ekm (Mode)

/-- The semantic knobs; the defaults are the base reading. -/
structure Rules where
  rejectStaleNeedsActive : Bool := true
  ingestNeedsEkm : Bool := false
  expireNeedsSourceDown : Bool := false
  allocEkmNeedsSource : Bool := false
  restoreSetsRecovery : Bool := true
  restoreRecoveryNeedsFull : Bool := false
  authorityOnlyWhenDegraded : Bool := false
  allocVpnNeedsNoActive : Bool := false
  vpnPendingReplaceable : Bool := false
  recoverClearsPending : Bool := false
  recoverNeedsAuthority : Bool := false
  depTogglesUnconditional : Bool := false
  activateMerged : Bool := false
  ekmDownClearsActive : Bool := false
  expireMarksUsed : Bool := false
  suspendState : Bool := false
  restorationDetected : Bool := false
  abandonPending : Bool := false
  abandonConsumesEpoch : Bool := false
  downClearsPending : Bool := false
  sessionEnd : Bool := false
  recoverClearsActive : Bool := false
  fifoPool : Bool := false
  allocVpnAnyFutureEpoch : Bool := false
  rejectStalePerEpoch : Bool := false

/-- The calibrated reading. -/
def defaultRules : Rules :=
  { allocVpnAnyFutureEpoch := true, rejectStalePerEpoch := true }

def Target.epoch? : Target → Option Nat
  | .ekm _ => none
  | .vpn e => some e

def Target.version? : Target → Option String
  | .ekm v => some v
  | .vpn _ => none

def vpnObjects (s : State) : Finset Nat :=
  (s.bindings.image fun b => b.2.epoch?).eraseNone

def ekmObjects (s : State) : Finset String :=
  (s.bindings.image fun b => b.2.version?).eraseNone

def poolAdd (s : State) (k : String) (rules : Rules) : State :=
  if rules.fifoPool then { s with pool := insert k s.pool, order := s.order ++ [k] }
  else { s with pool := insert k s.pool }

def poolTake (s : State) (k : String) (rules : Rules) : State :=
  if rules.fifoPool then
    { s with pool := s.pool.erase k, order := s.order.filter (· ≠ k) }
  else { s with pool := s.pool.erase k }

/-- Identifiers eligible for expiry or allocation, oldest first under
FIFO. -/
def retained (s : State) (rules : Rules) : List String :=
  if rules.fifoPool then s.order.take 1 else s.pool.sort (· ≤ ·)

def interrupt (s : State) (rules : Rules) (sq se : Option Bool) : State :=
  let down := { s with sq := sq.getD s.sq, se := se.getD s.se }
  if rules.downClearsPending then { down with kp := none } else down

def restore (s : State) (rules : Rules) (sq se : Option Bool) : State :=
  let up := { s with sq := sq.getD s.sq, se := se.getD s.se }
  if rules.restoreSetsRecovery && (!rules.restoreRecoveryNeedsFull || (up.sq && up.se)) then
    if rules.restorationDetected then { up with detected := true }
    else { up with recovery := true }
  else up

/-! ## The event families -/

variable (dom : Domain) (s : State) (rules : Rules)

/-- Ingestion: available source plus a previously unused identifier. -/
def ingestEvents : List (String × State) :=
  if s.sq && (s.se || !rules.ingestNeedsEkm) then
    (dom.ids.filter fun k => k ∉ s.pool ∧ k ∉ consumed s ∧ k ∉ s.expired).map fun k =>
      ("ingest:" ++ k, poolAdd s k rules)
  else []

/-- The state after the expiry of `k`. -/
def expireOne (k : String) : State :=
  let dropped := poolTake s k rules
  if rules.expireMarksUsed then { dropped with expired := insert k s.expired } else dropped

/-- TTL expiry of unused inventory. -/
def expireEvents : List (String × State) :=
  if !rules.expireNeedsSourceDown || !s.sq then
    (retained s rules).map fun k => ("expire:" ++ k, expireOne s rules k)
  else []

/-- Fresh EKM allocation. -/
def allocEkmEvents : List (String × State) :=
  if s.se && (s.sq || !rules.allocEkmNeedsSource) then
    (retained s rules).flatMap fun k =>
      (dom.versions.filter fun v => some v ≠ s.ke ∧ v ∉ ekmObjects s).map fun v =>
        ("alloc_ekm:" ++ k ++ ":" ++ v,
          { poolTake s k rules with
            bindings := insert (k, .ekm v) s.bindings
            ke := some v })
  else []

/-- The next ordered activation epoch. -/
def nextEpoch : Nat := max ((vpnObjects s).sup id) s.epoch + 1

/-- The epochs a VPN allocation may bind. -/
def allocEpochs : List Nat :=
  if rules.allocVpnAnyFutureEpoch then
    List.range' (nextEpoch s) (dom.maxEpoch + 1 - nextEpoch s)
  else [nextEpoch s]

/-- The state after the VPN allocation of `k` to epoch `e`. -/
def allocVpnOne (k : String) (e : Nat) : State :=
  let bound := insert (k, .vpn e) s.bindings
  if rules.activateMerged then
    { poolTake s k rules with bindings := bound, kp := none, kv := some (k, e), epoch := e }
  else { poolTake s k rules with bindings := bound, kp := some (k, e) }

/-- Fresh VPN allocation, bounded by the last epoch. -/
def allocVpnEvents : List (String × State) :=
  if s.se && decide (nextEpoch s ≤ dom.maxEpoch) && (s.kp.isNone || rules.vpnPendingReplaceable)
      && (s.kv.isNone || !rules.allocVpnNeedsNoActive) then
    (retained s rules).flatMap fun k =>
      (allocEpochs dom s rules).map fun e =>
        ("alloc_vpn:" ++ k ++ (if rules.allocVpnAnyFutureEpoch then ":" ++ toString e else ""),
          allocVpnOne s rules k e)
  else []

/-- Coordinated activation of a pending binding. -/
def activateEvents : List (String × State) :=
  match s.kp with
  | some (k, e) =>
    if !rules.activateMerged && decide (s.epoch < e) then
      [("activate_vpn", { s with kv := some (k, e), epoch := e, kp := none })]
    else []
  | none => []

/-- A pending activation is abandoned; its binding persists. -/
def abandonEvents : List (String × State) :=
  match s.kp with
  | some (_, e) =>
    if rules.abandonPending then
      [("abandon_pending",
        if rules.abandonConsumesEpoch then { s with kp := none, epoch := e, kv := none }
        else { s with kp := none })]
    else []
  | none => []

/-- An established session ends; the authoritative epoch is retained. -/
def sessionEndEvents : List (String × State) :=
  if rules.sessionEnd && s.kv.isSome then [("session_end", { s with kv := none })] else []

/-- Stale or replayed activations are rejected. -/
def rejectStaleEvents : List (String × State) :=
  let stale := if rules.rejectStaleNeedsActive then s.kv.isSome else decide (0 < s.epoch)
  if stale && rules.rejectStalePerEpoch then
    (List.range' 1 s.epoch).map fun e => ("reject_stale:" ++ toString e, s)
  else if stale then [("reject_stale", s)]
  else []

/-- Dependency interruption and restoration. -/
def dependencyEvents : List (String × State) :=
  (if s.sq || rules.depTogglesUnconditional then
    [("src_down", interrupt s rules (some false) none)] else []) ++
  (if !s.sq || rules.depTogglesUnconditional then
    [("src_up", restore s rules (some true) none)] else []) ++
  (if s.se || rules.depTogglesUnconditional then
    [("ekm_down",
      let down := interrupt s rules none (some false)
      if rules.ekmDownClearsActive then { down with ke := none } else down)] else []) ++
  (if !s.se || rules.depTogglesUnconditional then
    [("ekm_up", restore s rules none (some true))] else [])

/-- The state after continuity authority is withdrawn. -/
def withdrawn : State :=
  if rules.suspendState && [Mode.bindingHoldover, .exhausted].contains (mode s) then
    { s with authority := false, suspended := true }
  else { s with authority := false }

/-- Continuity authority changes. -/
def authorityEvents : List (String × State) :=
  if !rules.authorityOnlyWhenDegraded || decide (mode s ≠ .ready) then
    (if s.authority || rules.depTogglesUnconditional then
      [("authority_withdraw", withdrawn s rules)] else []) ++
    (if !s.authority || rules.depTogglesUnconditional then
      [("authority_grant", { s with authority := true })] else [])
  else []

/-- Detection promoted to reconciliation once both dependencies hold. -/
def reconcileEvents : List (String × State) :=
  if rules.restorationDetected && s.detected && s.sq && s.se then
    [("reconcile", { s with detected := false, recovery := true })]
  else []

/-- The state after recovery reconciliation. -/
def recovered : State :=
  let done := { s with recovery := false, suspended := false }
  let done := if rules.recoverClearsPending then { done with kp := none } else done
  if rules.recoverClearsActive then { done with kv := none } else done

/-- Recovery reconciliation. -/
def recoverEvents : List (String × State) :=
  if s.sq && s.se && s.recovery && (s.authority || !rules.recoverNeedsAuthority) then
    [("recover", recovered s rules)]
  else []

/-- Every labelled transition enabled in `s`. -/
def enabled : List (String × State) :=
  ingestEvents dom s rules ++ expireEvents s rules ++ allocEkmEvents dom s rules ++
    allocVpnEvents dom s rules ++ activateEvents s rules ++ abandonEvents s rules ++
    sessionEndEvents s rules ++ rejectStaleEvents s rules ++ dependencyEvents s rules ++
    authorityEvents s rules ++ reconcileEvents s rules ++ recoverEvents s rules

end QkdEkm.Model
