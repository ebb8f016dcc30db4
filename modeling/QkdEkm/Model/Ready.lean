import QkdEkm.Model.Edges

/-!
# Ready — normal operation is always within reach

From every reachable state a few events lead back to `READY`: the
dependencies come up, the restoration is reconciled, authority is
granted and recovery is completed. The one reading that does not allow
it records a policy suspension and never a recovery, which alone would
clear it.
-/

namespace QkdEkm.Model

open QkdEkm.Lib
open QkdEkm.Ekm (Mode derive deriveMode)

section

variable {dom : Domain} {rules : Rules} {s t : State}

/-- The records of a reading are made only under their knobs. -/
structure Recorded (rules : Rules) (s : State) : Prop where
  detected : s.detected = true → rules.restorationDetected = true
  suspended : s.suspended = true → rules.suspendState = true

theorem recorded_initial : Recorded rules initial :=
  ⟨fun h => Bool.noConfusion h, fun h => Bool.noConfusion h⟩

theorem Recorded.restore (h : Recorded rules s) (sq se : Option Bool) :
    Recorded rules (restore s rules sq se) := by
  unfold Model.restore
  dsimp only
  split
  · split
    · rename_i hd
      exact ⟨fun _ => hd, h.suspended⟩
    · exact ⟨h.detected, h.suspended⟩
  · exact ⟨h.detected, h.suspended⟩

theorem Recorded.congr (h : Recorded rules s) (hd : t.detected = s.detected)
    (hs : t.suspended = s.suspended) : Recorded rules t :=
  ⟨fun h' => h.detected (hd ▸ h'), fun h' => h.suspended (hs ▸ h')⟩

theorem recovered_detected : (recovered s rules).detected = s.detected := by
  unfold recovered
  dsimp only
  split <;> split <;> rfl

theorem recovered_suspended : (recovered s rules).suspended = false := by
  unfold recovered
  dsimp only
  split <;> split <;> rfl

theorem recorded_apply {ev : Event} (h : Recorded rules s) (he : ev.Enabled dom rules s) :
    Recorded rules (ev.apply rules s) := by
  cases ev with
  | ingest k | expire k | allocEkm k v | allocVpn k e | activateVpn | abandonPending
  | srcDown | ekmDown =>
    refine h.congr ?_ ?_ <;>
      simp only [Event.apply, poolAdd, expireOne, poolTake, allocVpnOne, interrupt] <;>
      repeat' split
    all_goals rfl
  | sessionEnd | authorityGrant => exact h.congr rfl rfl
  | rejectStale e => exact h
  | srcUp | ekmUp => exact h.restore _ _
  | authorityWithdraw =>
    simp only [Event.apply, withdrawn]
    split
    · rename_i hc
      exact ⟨h.detected, fun _ => (Bool.and_eq_true_iff.mp hc).1⟩
    · exact h.congr rfl rfl
  | reconcile => exact ⟨fun h' => Bool.noConfusion h', h.suspended⟩
  | recover =>
    refine ⟨fun h' => h.detected (recovered_detected ▸ h'), fun h' => ?_⟩
    exact absurd (recovered_suspended.symm.trans h') (by decide)

theorem recorded_reached (h : Reached dom rules s) : Recorded rules s := by
  refine h.invariant recorded_initial fun _ _ _ hi hf => ?_
  obtain ⟨ev, he, _, rfl⟩ := fires_iff.mp hf
  exact recorded_apply hi he

/-! ## The way back -/

/-- Both dependencies hold. -/
def State.Up (s : State) : Prop := s.sq = true ∧ s.se = true

/-- Something says that the suspension, if there is one, will be cleared. -/
def State.Pending (s : State) : Prop :=
  s.recovery = true ∨ s.detected = true ∨ s.suspended = false

variable (dom rules) in
/-- Within `n` events the lifecycle is ready. -/
def ReadyWithin (n : Nat) (s : State) : Prop :=
  ∃ t, Within (Fires dom rules) n s t ∧ mode t = .ready

theorem ReadyWithin.step {n : Nat} (ev : Event) (he : ev.Enabled dom rules s)
    (h : ReadyWithin dom rules n (ev.apply rules s)) : ReadyWithin dom rules (n + 1) s := by
  obtain ⟨t, hw, hm⟩ := h
  exact ⟨t, Nat.add_comm n 1 ▸ (Within.one he.fires).trans hw, hm⟩

theorem ReadyWithin.mono {m n : Nat} (h : ReadyWithin dom rules m s) (hle : m ≤ n) :
    ReadyWithin dom rules n s :=
  h.imp fun _ hw => ⟨hw.1.mono hle, hw.2⟩

theorem ready_recover (hup : s.Up) (hd : s.detected = false) (hr : s.recovery = true)
    (ha : s.authority = true) : ReadyWithin dom rules 1 s := by
  refine .step .recover ⟨hup.1, hup.2, hr, .inl ha⟩ ⟨_, Within.refl _, ?_⟩
  refine (mode_ready recovered_suspended (recovered_detected.trans hd)).mpr ?_
  simp only [recovered]
  split <;> split <;> exact ⟨hup.1, hup.2, rfl⟩

/-- Recovery is completed, once authority is there. -/
theorem ready_of_recovery (hup : s.Up) (hd : s.detected = false) (hr : s.recovery = true) :
    ReadyWithin dom rules 2 s := by
  cases ha : s.authority with
  | true => exact (ready_recover hup hd hr ha).mono (by decide)
  | false =>
    refine .step .authorityGrant ⟨.inr ?_, .inl ha⟩ (ready_recover hup hd hr rfl)
    simp [mode, derived, derive, deriveMode, hr]

theorem ready_of_pending (h : Recorded rules s) (hup : s.Up) (hp : s.Pending) :
    ReadyWithin dom rules 3 s := by
  cases hd : s.detected with
  | true =>
    exact .step .reconcile ⟨h.detected hd, hd, hup.1, hup.2⟩ (ready_of_recovery hup rfl rfl)
  | false =>
    cases hr : s.recovery with
    | true => exact (ready_of_recovery hup hd hr).mono (by decide)
    | false =>
      have hs : s.suspended = false := by
        simpa [State.Pending, hd, hr] using hp
      exact ⟨s, (Within.refl s).mono (by decide), (mode_ready hs hd).mpr ⟨hup.1, hup.2, hr⟩⟩

/-- The readings that clear what they record. -/
def Rules.Clears (rules : Rules) : Prop :=
  rules.suspendState = false ∨ rules.restoreSetsRecovery = true

/-- The last dependency to come up is detected, unless nothing needs to be. -/
theorem restore_up (hc : rules.Clears) (h : Recorded rules s) (sq se : Option Bool)
    (hsq : sq.getD s.sq = true) (hse : se.getD s.se = true) :
    (restore s rules sq se).Up ∧ (restore s rules sq se).Pending := by
  have hfull : (!rules.restoreRecoveryNeedsFull || (sq.getD s.sq && se.getD s.se)) = true := by
    simp [hsq, hse]
  simp only [restore, hfull, Bool.and_true]
  split
  · split
    · exact ⟨⟨hsq, hse⟩, .inr (.inl rfl)⟩
    · exact ⟨⟨hsq, hse⟩, .inl rfl⟩
  · rename_i hset
    have hoff := hc.resolve_right hset
    refine ⟨⟨hsq, hse⟩, .inr (.inr ?_)⟩
    by_contra hs
    have hon := h.suspended (Bool.eq_true_of_not_eq_false hs)
    simp [hoff] at hon

theorem ready_of_srcUp (hc : rules.Clears) (h : Recorded rules s) (hsq : s.sq = false)
    (hse : s.se = true) : ReadyWithin dom rules 4 s := by
  obtain ⟨hup, hp⟩ := restore_up hc h (some true) none rfl hse
  exact .step .srcUp (.inl hsq) (ready_of_pending (h.restore _ _) hup hp)

theorem ready_of_ekmUp (hc : rules.Clears) (h : Recorded rules s) (hsq : s.sq = true)
    (hse : s.se = false) : ReadyWithin dom rules 4 s := by
  obtain ⟨hup, hp⟩ := restore_up hc h none (some true) hsq rfl
  exact .step .ekmUp (.inl hse) (ready_of_pending (h.restore _ _) hup hp)

theorem restore_sq : (restore s rules (some true) none).sq = true := by
  unfold restore
  dsimp only
  split
  · split <;> rfl
  · rfl

theorem restore_se : (restore s rules (some true) none).se = s.se := by
  unfold restore
  dsimp only
  split
  · split <;> rfl
  · rfl

/-- A suspension without a recovery is cleared by way of an interruption. -/
theorem ready_of_srcDown (hc : rules.Clears) (h : Recorded rules s) (hup : s.Up) :
    ReadyWithin dom rules 5 s := by
  have he : Event.srcDown.Enabled dom rules s := .inl hup.1
  have hdown : (interrupt s rules (some false) none).sq = false ∧
      (interrupt s rules (some false) none).se = s.se := by
    unfold interrupt
    dsimp only
    split <;> exact ⟨rfl, rfl⟩
  exact .step .srcDown he
    (ready_of_srcUp hc (recorded_apply h he) hdown.1 (hdown.2.trans hup.2))

theorem ready_of_clears (hc : rules.Clears) (h : Recorded rules s) :
    ReadyWithin dom rules 5 s := by
  cases hsq : s.sq with
  | true =>
    cases hse : s.se with
    | true => exact ready_of_srcDown hc h ⟨hsq, hse⟩
    | false => exact (ready_of_ekmUp hc h hsq hse).mono (by decide)
  | false =>
    cases hse : s.se with
    | true => exact (ready_of_srcUp hc h hsq hse).mono (by decide)
    | false =>
      exact .step .srcUp (.inl hsq)
        (ready_of_ekmUp hc (h.restore _ _) restore_sq (restore_se.trans hse))

/-! ## The reading without a way back -/

/-- Suspended for good. -/
structure Locked (s : State) : Prop where
  suspended : s.suspended = true
  recovery : s.recovery = false
  detected : s.detected = false

theorem locked_apply (hset : rules.restoreSetsRecovery = false) {ev : Event} (h : Locked s)
    (he : ev.Enabled dom rules s) : Locked (ev.apply rules s) := by
  have hkeep : ∀ {t : State}, t.suspended = s.suspended → t.recovery = s.recovery →
      t.detected = s.detected → Locked t := fun hs hr hd =>
    ⟨hs.trans h.suspended, hr.trans h.recovery, hd.trans h.detected⟩
  cases ev with
  | ingest k | expire k | allocEkm k v | allocVpn k e | activateVpn | abandonPending
  | srcDown | ekmDown =>
    refine hkeep ?_ ?_ ?_ <;>
      simp only [Event.apply, poolAdd, expireOne, poolTake, allocVpnOne, interrupt] <;>
      repeat' split
    all_goals rfl
  | sessionEnd | authorityGrant => exact hkeep rfl rfl rfl
  | rejectStale e => exact h
  | srcUp | ekmUp =>
    simp only [Event.apply, restore, hset, Bool.false_and, Bool.false_eq_true, if_false]
    exact hkeep rfl rfl rfl
  | authorityWithdraw =>
    simp only [Event.apply, withdrawn]
    split
    · exact ⟨rfl, h.recovery, h.detected⟩
    · exact hkeep rfl rfl rfl
  | reconcile =>
    have hd := he.2.1
    simp [h.detected] at hd
  | recover =>
    have hr := he.2.2.1
    simp [h.recovery] at hr

theorem Locked.mode_eq (h : Locked s) : mode s = .suspended := by
  simp [mode, derived, derive, deriveMode, h.suspended, h.recovery, h.detected]

/-- The manager is lost and continuity withdrawn. -/
theorem exists_locked (hs : rules.suspendState = true) :
    ∃ s, Reached dom rules s ∧ Locked s := by
  have hdown : Event.ekmDown.Enabled dom rules initial := .inl rfl
  have happly : Event.ekmDown.apply rules initial = { initial with se := false } := by
    simp only [Event.apply, interrupt]
    repeat' split
    all_goals rfl
  have hreach : Reached dom rules { initial with se := false } :=
    happly ▸ (Reachable.refl initial).tail hdown.fires
  have hw : Event.authorityWithdraw.Enabled dom rules { initial with se := false } :=
    ⟨.inr (by decide), .inl rfl⟩
  refine ⟨_, hreach.tail hw.fires, ?_⟩
  have hmode : [Mode.bindingHoldover, .exhausted].contains
      (mode { initial with se := false }) = true := by decide
  simp only [Event.apply, withdrawn, hs, hmode, Bool.and_self, if_true]
  exact ⟨rfl, rfl, rfl⟩

end

/-- **Normal operation is always within reach.** Under every reading but
one kind, from every reachable state some five events at most lead to
`READY`. The exception records policy suspensions and no recovery: there
some reachable state is suspended for good. -/
theorem ready_within_five (dom : Domain) (rules : Rules) :
    (¬ (rules.suspendState = true ∧ rules.restoreSetsRecovery = false) → ∀ s, Reached dom rules s →
      ∃ ls t, Run (Fires dom rules) s ls t ∧ ls.length ≤ 5 ∧ mode t = .ready) ∧
    (rules.suspendState = true ∧ rules.restoreSetsRecovery = false → ∃ s, Reached dom rules s ∧
      ∀ t, Reachable (Fires dom rules) s t → mode t = .suspended) := by
  constructor
  · intro hn s hs
    have hc : rules.Clears := by
      unfold Rules.Clears
      cases hsus : rules.suspendState with
      | false => exact .inl rfl
      | true => exact .inr (by simpa [hsus] using hn)
    obtain ⟨t, ⟨ls, hr, hlen⟩, hm⟩ := ready_of_clears hc (recorded_reached hs)
    exact ⟨ls, t, hr, hlen, hm⟩
  · rintro ⟨hsus, hset⟩
    obtain ⟨s, hs, hl⟩ := exists_locked hsus
    refine ⟨s, hs, fun t ht => Locked.mode_eq (ht.invariant hl fun _ _ _ hi hf => ?_)⟩
    obtain ⟨ev, he, _, rfl⟩ := fires_iff.mp hf
    exact locked_apply hset hi he

end QkdEkm.Model
