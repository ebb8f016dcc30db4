import QkdEkm.Model.Steps

/-!
# Edges — the knobs that only add and remove transitions

Seven knobs change which transitions join the reachable states of the
base reading, and not, with one exception, which states these are. The
flags `sq`, `se`, `authority` and `recovery` are set and cleared by
events that touch nothing else, so a state is compared through `calm`,
its copy with the flags of the initial state: what is reached is the
calm copy, and from it the flags. The exception is a pair of knobs that
between them close both ways into one combination of the flags.
-/

namespace QkdEkm.Model

open QkdEkm.Lib
open QkdEkm.Ekm (Mode derive deriveMode)

/-- The base reading. -/
def baseRules : Rules := {}

/-- `EDGES`. -/
inductive Edge
  | rejectStaleNeedsActive
  | depTogglesUnconditional
  | ingestNeedsEkm
  | expireNeedsSourceDown
  | allocEkmNeedsSource
  | authorityOnlyWhenDegraded
  | recoverNeedsAuthority
  deriving DecidableEq

/-- The base reading with some knobs flipped. -/
def edgeRules (flipped : Edge → Bool) : Rules :=
  { baseRules with
    rejectStaleNeedsActive := baseRules.rejectStaleNeedsActive ^^ flipped .rejectStaleNeedsActive
    depTogglesUnconditional := baseRules.depTogglesUnconditional ^^ flipped .depTogglesUnconditional
    ingestNeedsEkm := baseRules.ingestNeedsEkm ^^ flipped .ingestNeedsEkm
    expireNeedsSourceDown := baseRules.expireNeedsSourceDown ^^ flipped .expireNeedsSourceDown
    allocEkmNeedsSource := baseRules.allocEkmNeedsSource ^^ flipped .allocEkmNeedsSource
    authorityOnlyWhenDegraded :=
      baseRules.authorityOnlyWhenDegraded ^^ flipped .authorityOnlyWhenDegraded
    recoverNeedsAuthority := baseRules.recoverNeedsAuthority ^^ flipped .recoverNeedsAuthority }

/-- `s` with the four flags as given. -/
def State.flags (s : State) (sq se authority recovery : Bool) : State :=
  { s with sq, se, authority, recovery }

/-- `s` with the flags of the initial state. -/
def State.calm (s : State) : State := s.flags true true true false

/-- Both knobs of the exception are flipped. -/
def Edge.locks (flipped : Edge → Bool) : Prop :=
  flipped .authorityOnlyWhenDegraded = true ∧ flipped .recoverNeedsAuthority = true

/-- In operation without continuity authority. -/
def State.Unauthorized (s : State) : Prop :=
  s.sq = true ∧ s.se = true ∧ s.authority = false ∧ s.recovery = false

section

variable {dom : Domain} {flipped : Edge → Bool} {s : State}

theorem edgeRules_none : edgeRules (fun _ => false) = baseRules := rfl

/-! ## What a transition keeps -/

/-- The calibration-only fields stay inert, and the exception stays out. -/
structure Inert (flipped : Edge → Bool) (s : State) : Prop where
  suspended : s.suspended = false
  detected : s.detected = false
  unlocked : Edge.locks flipped → ¬ s.Unauthorized

theorem mode_ready (hs : s.suspended = false) (hd : s.detected = false) :
    mode s = .ready ↔ s.sq = true ∧ s.se = true ∧ s.recovery = false := by
  unfold mode derived derive deriveMode
  simp only [hs, hd, Bool.or_false]
  generalize s.recovery = recovery, s.sq = sq, s.se = se, s.authority = authority,
    decide (0 < s.pool.card) = stocked, (s.ke.isSome || s.kv.isSome) = bound
  revert recovery sq se authority stocked bound
  decide

theorem inert_apply {ev : Event} (h : Inert flipped s)
    (he : ev.Enabled dom (edgeRules flipped) s) :
    Inert flipped (ev.apply (edgeRules flipped) s) := by
  cases ev with
  | ingest k | expire k | allocEkm k v | allocVpn k e =>
    exact ⟨h.suspended, h.detected, h.unlocked⟩
  | activateVpn =>
    obtain ⟨_, k, e, hp, _⟩ := he
    simp only [Event.apply, hp]
    exact ⟨h.suspended, h.detected, h.unlocked⟩
  | abandonPending | sessionEnd | reconcile => exact absurd he.1 Bool.false_ne_true
  | rejectStale e => exact h
  | srcDown => exact ⟨h.suspended, h.detected, fun _ hu => Bool.false_ne_true hu.1⟩
  | ekmDown => exact ⟨h.suspended, h.detected, fun _ hu => Bool.false_ne_true hu.2.1⟩
  | srcUp | ekmUp => exact ⟨h.suspended, h.detected, fun _ hu => Bool.noConfusion hu.2.2.2⟩
  | authorityGrant => exact ⟨h.suspended, h.detected, fun _ hu => Bool.noConfusion hu.2.2.1⟩
  | authorityWithdraw =>
    refine ⟨h.suspended, h.detected, fun hl hu => ?_⟩
    -- authority is not withdrawn in ready operation
    have hpolicy : flipped .authorityOnlyWhenDegraded = false ∨ mode s ≠ .ready := by
      simpa [policyOk, edgeRules, baseRules] using he.1
    rw [hl.1] at hpolicy
    exact hpolicy.resolve_left (by decide) ((mode_ready h.suspended h.detected).mpr
      ⟨hu.1, hu.2.1, hu.2.2.2⟩)
  | recover =>
    refine ⟨rfl, h.detected, fun hl hu => ?_⟩
    -- without authority nothing is recovered
    have hauthority : s.authority = true ∨ flipped .recoverNeedsAuthority = false := by
      simpa [edgeRules, baseRules] using he.2.2.2
    rw [hl.2] at hauthority
    have : s.authority = false := hu.2.2.1
    simp [this] at hauthority

theorem inert_reached (h : Reached dom (edgeRules flipped) s) : Inert flipped s := by
  refine h.invariant ⟨rfl, rfl, fun _ hu => Bool.noConfusion hu.2.2.1⟩ ?_
  intro t l u hi hf
  obtain ⟨ev, he, _, rfl⟩ := fires_iff.mp hf
  exact inert_apply hi he

/-! ## The flags -/

variable (ev : Event) in
theorem reached_event {t : State} (hr : Reached dom (edgeRules flipped) s)
    (he : ev.Enabled dom (edgeRules flipped) s) (ht : ev.apply (edgeRules flipped) s = t) :
    Reached dom (edgeRules flipped) t :=
  ht ▸ hr.tail he.fires

variable {sq se authority recovery : Bool}

theorem reached_srcDown (h : Reached dom (edgeRules flipped) (s.flags true se authority recovery)) :
    Reached dom (edgeRules flipped) (s.flags false se authority recovery) :=
  reached_event .srcDown h (.inl rfl) rfl

theorem reached_ekmDown (h : Reached dom (edgeRules flipped) (s.flags sq true authority recovery)) :
    Reached dom (edgeRules flipped) (s.flags sq false authority recovery) :=
  reached_event .ekmDown h (.inl rfl) rfl

theorem reached_srcUp (h : Reached dom (edgeRules flipped) (s.flags false se authority recovery)) :
    Reached dom (edgeRules flipped) (s.flags true se authority true) :=
  reached_event .srcUp h (.inl rfl) rfl

/-- Authority is withdrawn outside ready operation. -/
theorem reached_withdraw (h : Reached dom (edgeRules flipped) (s.flags sq se true recovery))
    (hp : flipped .authorityOnlyWhenDegraded = false ∨
      ¬ (sq = true ∧ se = true ∧ recovery = false)) :
    Reached dom (edgeRules flipped) (s.flags sq se false recovery) := by
  have hi := inert_reached h
  refine reached_event .authorityWithdraw h ⟨?_, .inl rfl⟩ rfl
  rcases hp with hp | hp
  · exact .inl (by simp [edgeRules, baseRules, hp])
  · exact .inr fun hm => hp ((mode_ready hi.suspended hi.detected).mp hm)

theorem reached_recover (h : Reached dom (edgeRules flipped) (s.flags true true authority true))
    (ha : authority = true ∨ flipped .recoverNeedsAuthority = false) :
    Reached dom (edgeRules flipped) (s.flags true true authority false) := by
  have hi := inert_reached h
  have hs : s.suspended = false := hi.suspended
  refine reached_event .recover h ⟨rfl, rfl, rfl, ?_⟩ ?_
  · exact ha.imp id fun ha => by simp [edgeRules, baseRules, ha]
  · simp [Event.apply, recovered, edgeRules, baseRules, State.flags, hs]

/-- Both dependencies of an operating state go down as wanted. -/
theorem reached_down (h : Reached dom (edgeRules flipped) (s.flags true true authority recovery))
    (sq se : Bool) : Reached dom (edgeRules flipped) (s.flags sq se authority recovery) := by
  have hse : Reached dom (edgeRules flipped) (s.flags true se authority recovery) := by
    cases se with
    | true => exact h
    | false => exact reached_ekmDown h
  cases sq with
  | true => exact hse
  | false => exact reached_srcDown hse

/-- **Every flag from the calm copy**, but for the exception. -/
theorem reached_flags (h : Reached dom (edgeRules flipped) s.calm)
    (hx : Edge.locks flipped → ¬ s.Unauthorized) : Reached dom (edgeRules flipped) s := by
  have hrecovery : Reached dom (edgeRules flipped) (s.flags true true true true) :=
    reached_srcUp (reached_srcDown h)
  show Reached dom (edgeRules flipped) (s.flags s.sq s.se s.authority s.recovery)
  cases ha : s.authority with
  | true =>
    cases s.recovery with
    | true => exact reached_down hrecovery _ _
    | false => exact reached_down h _ _
  | false =>
    cases hr : s.recovery with
    | true => exact reached_withdraw (reached_down hrecovery _ _) (.inr (by simp))
    | false =>
      by_cases hup : s.sq = true ∧ s.se = true
      · -- operating: withdraw in ready operation, or recover without authority
        rw [hup.1, hup.2]
        by_cases hw : flipped .authorityOnlyWhenDegraded = true
        · have hrec : ¬ flipped .recoverNeedsAuthority = true :=
            fun hrec => hx ⟨hw, hrec⟩ ⟨hup.1, hup.2, ha, hr⟩
          have hgone := reached_withdraw hrecovery (.inr (by simp))
          exact reached_recover hgone (.inr (by simpa using hrec))
        · exact reached_withdraw h (.inl (by simpa using hw))
      · refine reached_withdraw (reached_down h _ _) (.inr ?_)
        rintro ⟨hsq, hse, _⟩
        exact hup ⟨hsq, hse⟩

/-! ## The calm copy -/

theorem mem_retained_base {k : String} : k ∈ retained s (edgeRules flipped) ↔ k ∈ s.pool :=
  Finset.mem_sort _

/-- Expiry, when it needs the source to be down. -/
theorem reached_expire (h : Reached dom (edgeRules flipped) s.calm) {k : String}
    (hk : k ∈ s.pool) : Reached dom (edgeRules flipped)
      ({ s with pool := s.pool.erase k } : State).calm := by
  -- down, expire, up again, recover
  have hdown : Reached dom (edgeRules flipped)
      (({ s with pool := s.pool.erase k } : State).flags false true true false) :=
    reached_event (.expire k) (reached_srcDown h)
      ⟨.inr rfl, mem_retained_base.mpr hk⟩ rfl
  exact reached_recover (reached_srcUp hdown) (.inl rfl)

/-- **One event of a reading, on the calm copies**, under any other. -/
theorem reached_calm_apply {other : Edge → Bool} {ev : Event}
    (h : Reached dom (edgeRules flipped) s.calm) (he : ev.Enabled dom (edgeRules other) s) :
    Reached dom (edgeRules flipped) (ev.apply (edgeRules other) s).calm := by
  cases ev with
  | ingest k =>
    obtain ⟨_, _, hk⟩ := he
    exact reached_event (.ingest k) h ⟨rfl, .inl rfl, hk⟩ rfl
  | expire k => exact reached_expire h (mem_retained_base.mp he.2)
  | allocEkm k v =>
    obtain ⟨_, _, hk⟩ := he
    exact reached_event (.allocEkm k v) h ⟨rfl, .inl rfl, hk⟩ rfl
  | allocVpn k e =>
    obtain ⟨_, hn, hp, _, hk, hep⟩ := he
    exact reached_event (.allocVpn k e) h ⟨rfl, hn, hp, .inr rfl, hk, hep⟩ rfl
  | activateVpn =>
    obtain ⟨_, k, e, hp, hlt⟩ := he
    refine reached_event .activateVpn h ⟨rfl, k, e, hp, hlt⟩ ?_
    have hp' : s.calm.kp = some (k, e) := hp
    simp only [Event.apply, hp, hp']
    rfl
  | abandonPending | sessionEnd | reconcile => exact absurd he.1 Bool.false_ne_true
  | rejectStale e | srcDown | srcUp | ekmDown | ekmUp | authorityWithdraw | authorityGrant =>
    exact h
  | recover =>
    have hs : s.suspended = false := (inert_reached h).suspended
    have hcalm : (recovered s (edgeRules other)).calm = s.calm := by
      simp [recovered, edgeRules, baseRules, State.calm, State.flags, hs]
    exact hcalm ▸ h

/-- **What one reading reaches, every other reaches calm.** -/
theorem reached_calm {other : Edge → Bool} (h : Reached dom (edgeRules other) s) :
    Reached dom (edgeRules flipped) s.calm := by
  obtain ⟨ls, hr⟩ := h
  induction hr with
  | nil => exact Reachable.refl initial
  | snoc _ hf ih =>
    obtain ⟨ev, he, _, rfl⟩ := fires_iff.mp hf
    exact reached_calm_apply ih he

end

/-- **Which knobs change the reachable set.** Whichever of the seven
knobs are flipped, the reachable states are those of the base reading,
except that with `authority_only_when_degraded` and
`recover_needs_authority` both on the states in operation without
authority are gone. -/
theorem edges_reached (dom : Domain) (flipped : Edge → Bool) (s : State) :
    Reached dom (edgeRules flipped) s ↔ Reached dom baseRules s ∧
      (flipped .authorityOnlyWhenDegraded = true ∧ flipped .recoverNeedsAuthority = true →
        ¬ (s.sq = true ∧ s.se = true ∧ s.authority = false ∧ s.recovery = false)) := by
  rw [← edgeRules_none]
  constructor
  · intro h
    refine ⟨reached_flags (reached_calm h) fun hl => absurd hl.1 Bool.false_ne_true, ?_⟩
    exact (inert_reached h).unlocked
  · rintro ⟨h, hx⟩
    exact reached_flags (reached_calm h) hx

end QkdEkm.Model
