import QkdEkm.Model.Events

/-!
# Knobs — a reading by the names of its knobs

The sweep and the report address the fields of `Rules` by name.
-/

namespace QkdEkm.Model

/-- The fields of `Rules`, in the order of their declaration. -/
inductive Knob
  | rejectStaleNeedsActive
  | ingestNeedsEkm
  | expireNeedsSourceDown
  | allocEkmNeedsSource
  | restoreSetsRecovery
  | restoreRecoveryNeedsFull
  | authorityOnlyWhenDegraded
  | allocVpnNeedsNoActive
  | vpnPendingReplaceable
  | recoverClearsPending
  | recoverNeedsAuthority
  | depTogglesUnconditional
  | activateMerged
  | ekmDownClearsActive
  | expireMarksUsed
  | suspendState
  | restorationDetected
  | abandonPending
  | abandonConsumesEpoch
  | downClearsPending
  | sessionEnd
  | recoverClearsActive
  | fifoPool
  | allocVpnAnyFutureEpoch
  | rejectStalePerEpoch
  deriving DecidableEq

/-- The name of a field. -/
def Knob.name : Knob → String
  | .rejectStaleNeedsActive => "reject_stale_needs_active"
  | .ingestNeedsEkm => "ingest_needs_ekm"
  | .expireNeedsSourceDown => "expire_needs_source_down"
  | .allocEkmNeedsSource => "alloc_ekm_needs_source"
  | .restoreSetsRecovery => "restore_sets_recovery"
  | .restoreRecoveryNeedsFull => "restore_recovery_needs_full"
  | .authorityOnlyWhenDegraded => "authority_only_when_degraded"
  | .allocVpnNeedsNoActive => "alloc_vpn_needs_no_active"
  | .vpnPendingReplaceable => "vpn_pending_replaceable"
  | .recoverClearsPending => "recover_clears_pending"
  | .recoverNeedsAuthority => "recover_needs_authority"
  | .depTogglesUnconditional => "dep_toggles_unconditional"
  | .activateMerged => "activate_merged"
  | .ekmDownClearsActive => "ekm_down_clears_active"
  | .expireMarksUsed => "expire_marks_used"
  | .suspendState => "suspend_state"
  | .restorationDetected => "restoration_detected"
  | .abandonPending => "abandon_pending"
  | .abandonConsumesEpoch => "abandon_consumes_epoch"
  | .downClearsPending => "down_clears_pending"
  | .sessionEnd => "session_end"
  | .recoverClearsActive => "recover_clears_active"
  | .fifoPool => "fifo_pool"
  | .allocVpnAnyFutureEpoch => "alloc_vpn_any_future_epoch"
  | .rejectStalePerEpoch => "reject_stale_per_epoch"

/-- `getattr(rules, f)`. -/
def Rules.get (rules : Rules) : Knob → Bool
  | .rejectStaleNeedsActive => rules.rejectStaleNeedsActive
  | .ingestNeedsEkm => rules.ingestNeedsEkm
  | .expireNeedsSourceDown => rules.expireNeedsSourceDown
  | .allocEkmNeedsSource => rules.allocEkmNeedsSource
  | .restoreSetsRecovery => rules.restoreSetsRecovery
  | .restoreRecoveryNeedsFull => rules.restoreRecoveryNeedsFull
  | .authorityOnlyWhenDegraded => rules.authorityOnlyWhenDegraded
  | .allocVpnNeedsNoActive => rules.allocVpnNeedsNoActive
  | .vpnPendingReplaceable => rules.vpnPendingReplaceable
  | .recoverClearsPending => rules.recoverClearsPending
  | .recoverNeedsAuthority => rules.recoverNeedsAuthority
  | .depTogglesUnconditional => rules.depTogglesUnconditional
  | .activateMerged => rules.activateMerged
  | .ekmDownClearsActive => rules.ekmDownClearsActive
  | .expireMarksUsed => rules.expireMarksUsed
  | .suspendState => rules.suspendState
  | .restorationDetected => rules.restorationDetected
  | .abandonPending => rules.abandonPending
  | .abandonConsumesEpoch => rules.abandonConsumesEpoch
  | .downClearsPending => rules.downClearsPending
  | .sessionEnd => rules.sessionEnd
  | .recoverClearsActive => rules.recoverClearsActive
  | .fifoPool => rules.fifoPool
  | .allocVpnAnyFutureEpoch => rules.allocVpnAnyFutureEpoch
  | .rejectStalePerEpoch => rules.rejectStalePerEpoch

/-- `replace(rules, **{f: v})`. -/
def Rules.set (rules : Rules) (f : Knob) (v : Bool) : Rules :=
  match f with
  | .rejectStaleNeedsActive => { rules with rejectStaleNeedsActive := v }
  | .ingestNeedsEkm => { rules with ingestNeedsEkm := v }
  | .expireNeedsSourceDown => { rules with expireNeedsSourceDown := v }
  | .allocEkmNeedsSource => { rules with allocEkmNeedsSource := v }
  | .restoreSetsRecovery => { rules with restoreSetsRecovery := v }
  | .restoreRecoveryNeedsFull => { rules with restoreRecoveryNeedsFull := v }
  | .authorityOnlyWhenDegraded => { rules with authorityOnlyWhenDegraded := v }
  | .allocVpnNeedsNoActive => { rules with allocVpnNeedsNoActive := v }
  | .vpnPendingReplaceable => { rules with vpnPendingReplaceable := v }
  | .recoverClearsPending => { rules with recoverClearsPending := v }
  | .recoverNeedsAuthority => { rules with recoverNeedsAuthority := v }
  | .depTogglesUnconditional => { rules with depTogglesUnconditional := v }
  | .activateMerged => { rules with activateMerged := v }
  | .ekmDownClearsActive => { rules with ekmDownClearsActive := v }
  | .expireMarksUsed => { rules with expireMarksUsed := v }
  | .suspendState => { rules with suspendState := v }
  | .restorationDetected => { rules with restorationDetected := v }
  | .abandonPending => { rules with abandonPending := v }
  | .abandonConsumesEpoch => { rules with abandonConsumesEpoch := v }
  | .downClearsPending => { rules with downClearsPending := v }
  | .sessionEnd => { rules with sessionEnd := v }
  | .recoverClearsActive => { rules with recoverClearsActive := v }
  | .fifoPool => { rules with fifoPool := v }
  | .allocVpnAnyFutureEpoch => { rules with allocVpnAnyFutureEpoch := v }
  | .rejectStalePerEpoch => { rules with rejectStalePerEpoch := v }

/-- `Rules.__slots__`. -/
def slots : List Knob :=
  [.rejectStaleNeedsActive, .ingestNeedsEkm, .expireNeedsSourceDown, .allocEkmNeedsSource,
    .restoreSetsRecovery, .restoreRecoveryNeedsFull, .authorityOnlyWhenDegraded,
    .allocVpnNeedsNoActive, .vpnPendingReplaceable, .recoverClearsPending, .recoverNeedsAuthority,
    .depTogglesUnconditional, .activateMerged, .ekmDownClearsActive, .expireMarksUsed,
    .suspendState, .restorationDetected, .abandonPending, .abandonConsumesEpoch,
    .downClearsPending, .sessionEnd, .recoverClearsActive, .fifoPool, .allocVpnAnyFutureEpoch,
    .rejectStalePerEpoch]

theorem mem_slots (f : Knob) : f ∈ slots := by
  cases f <;> decide

/-- A reading is the values of its knobs. -/
theorem Rules.ext_get {rules rules' : Rules} (h : ∀ f, rules.get f = rules'.get f) :
    rules = rules' := by
  cases rules
  cases rules'
  rw [Rules.mk.injEq]
  exact ⟨h .rejectStaleNeedsActive, h .ingestNeedsEkm, h .expireNeedsSourceDown,
    h .allocEkmNeedsSource, h .restoreSetsRecovery, h .restoreRecoveryNeedsFull,
    h .authorityOnlyWhenDegraded, h .allocVpnNeedsNoActive, h .vpnPendingReplaceable,
    h .recoverClearsPending, h .recoverNeedsAuthority, h .depTogglesUnconditional,
    h .activateMerged, h .ekmDownClearsActive, h .expireMarksUsed, h .suspendState,
    h .restorationDetected, h .abandonPending, h .abandonConsumesEpoch, h .downClearsPending,
    h .sessionEnd, h .recoverClearsActive, h .fifoPool, h .allocVpnAnyFutureEpoch,
    h .rejectStalePerEpoch⟩

theorem Knob.name_inj {f g : Knob} (h : f.name = g.name) : f = g := by
  have hnodup : (slots.map Knob.name).Nodup := by decide
  exact List.inj_on_of_nodup_map hnodup (mem_slots f) (mem_slots g) h

end QkdEkm.Model
