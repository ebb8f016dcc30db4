import QkdEkm.Model.Census

/-!
# Transitions — the closed form of the number of transitions

The events that a calibrated state offers are written out as a list
(`offered`) whose length is a formula in the choices of its code. Since a
labelled transition is made by one event (`event_unique`), the number of
transitions is the sum of these lengths over the codes.
-/

namespace QkdEkm.Model

open QkdEkm.Lib

/-! ## The closed form -/

/-- Over the sets of `nv` epochs that can be left pending: one activation
each, and the replays that are rejected. -/
def replays (E nv : Nat) : Nat :=
  if nv = 0 then 0 else E.choose nv + (2 * nv - 1) * (E + 1).choose (nv + 1)

/-- The transitions over `ne` bound versions, `nv` bound epochs and `left`
unbound identifiers, up to their choice. -/
def transitionsOver (V E ne nv left : Nat) : Nat :=
  epochVariants E nv * (50 + 4 * left * (3 + (V - ne))) + 4 * left * E.choose (nv + 1)
    + 16 * replays E nv

def transitionCount (n V E : Nat) : Nat :=
  ∑ p ∈ (Finset.range (V + 1) ×ˢ Finset.range (E + 1)).filter (fun p => p.1 + p.2 ≤ n),
    versionVariants V p.1 * n.descFactorial (p.1 + p.2) *
      (2 ^ (n - p.1 - p.2) * transitionsOver V E p.1 p.2 (n - p.1 - p.2))

/-! ## The events a state offers -/

section

variable (dom : Domain) (s : State)

/-- Identifiers that can be ingested. -/
def fresh : List String :=
  dom.ids.filter fun k => k ∉ s.pool ∧ k ∉ consumed s ∧ k ∉ s.expired

/-- Versions that can be bound. -/
def unbound : List String :=
  dom.versions.filter fun v => some v ≠ s.ke ∧ v ∉ ekmObjects s

/-- `events`, provided that `c`. -/
def offer (c : Prop) [Decidable c] (events : List Event) : List Event := if c then events else []

/-- The enabled events of the calibrated reading, by their families. -/
def families : List (String × List Event) :=
  [("ingest", offer s.sq ((fresh dom s).map .ingest)),
    ("expire", (retained s defaultRules).map .expire),
    ("alloc_ekm", offer s.se
      ((retained s defaultRules ×ˢ unbound dom s).map fun p => .allocEkm p.1 p.2)),
    ("alloc_vpn", offer (s.se ∧ s.kp = none)
      ((retained s defaultRules ×ˢ allocEpochs dom s defaultRules).map
        fun p => .allocVpn p.1 p.2)),
    ("activate_vpn", offer (s.kp.any fun p => s.epoch < p.2) [.activateVpn]),
    ("reject_stale", offer s.kv.isSome
      ((List.range' 1 s.epoch).map fun e => .rejectStale (some e))),
    ("src_down", offer s.sq [.srcDown]),
    ("src_up", offer (!s.sq) [.srcUp]),
    ("ekm_down", offer s.se [.ekmDown]),
    ("ekm_up", offer (!s.se) [.ekmUp]),
    ("authority_withdraw", offer s.authority [.authorityWithdraw]),
    ("authority_grant", offer (!s.authority) [.authorityGrant]),
    ("recover", offer (s.sq ∧ s.se ∧ s.recovery) [.recover])]

def offered : List Event := (families dom s).flatMap Prod.snd

variable {dom s}

@[simp] theorem mem_offer {c : Prop} [Decidable c] {events : List Event} {ev : Event} :
    ev ∈ offer c events ↔ c ∧ ev ∈ events := by
  simp [offer]

@[simp] theorem length_offer {c : Prop} [Decidable c] {events : List Event} :
    (offer c events).length = if c then events.length else 0 := by
  unfold offer
  split <;> rfl

theorem nodup_offer {c : Prop} [Decidable c] {events : List Event} (h : events.Nodup) :
    (offer c events).Nodup := by
  unfold offer
  split
  · exact h
  · exact List.nodup_nil

theorem mem_offered {ev : Event} :
    ev ∈ offered dom s ↔ ev.Enabled dom defaultRules s := by
  cases ev with
  | ingest k => simp [offered, families, fresh, Event.Enabled, defaultRules]
  | expire k => simp [offered, families, Event.Enabled, defaultRules]
  | allocEkm k v => simp [offered, families, Event.Enabled, defaultRules, unbound]
  | allocVpn k e =>
    -- an epoch to allocate is the next one or a later one
    have hle : e ∈ allocEpochs dom s defaultRules → nextEpoch s ≤ dom.maxEpoch := fun he =>
      have h := mem_allocEpochs_default.mp he
      Nat.le_trans h.1 h.2
    simp only [defaultRules] at hle
    simp [offered, families, Event.Enabled, defaultRules]
    tauto
  | activateVpn =>
    rcases hkp : s.kp with _ | ⟨k, e⟩ <;>
      simp [offered, families, Event.Enabled, defaultRules, hkp]
  | rejectStale e => cases e <;> simp [offered, families, Event.Enabled, defaultRules, stale]
  | srcDown | srcUp | ekmDown | ekmUp | authorityWithdraw | authorityGrant =>
    simp [offered, families, Event.Enabled, defaultRules, policyOk]
  | recover => simp [offered, families, Event.Enabled, defaultRules]
  | abandonPending | sessionEnd | reconcile =>
    simp [offered, families, Event.Enabled, defaultRules]

theorem family_of_mem {p : String × List Event} (hp : p ∈ families dom s) :
    ∀ ev ∈ p.2, ev.family = p.1 := by
  revert p
  simp only [families, List.forall_mem_cons, mem_offer, List.mem_map,
    List.not_mem_nil, IsEmpty.forall_iff, implies_true, and_true]
  and_intros <;> grind [Event.family]

theorem nodup_family (hids : dom.ids.Nodup) (hver : dom.versions.Nodup)
    {p : String × List Event} (hp : p ∈ families dom s) : p.2.Nodup := by
  have hret : (retained s defaultRules).Nodup := Finset.sort_nodup _ _
  have hepochs : (allocEpochs dom s defaultRules).Nodup := List.nodup_range'
  have hingest := (hids.filter fun k => k ∉ s.pool ∧ k ∉ consumed s ∧ k ∉ s.expired).map
    (f := Event.ingest) fun _ _ h => Event.ingest.inj h
  have hexpire := hret.map (f := Event.expire) fun _ _ h => Event.expire.inj h
  have hekm := (hret.product (hver.filter fun v => some v ≠ s.ke ∧ v ∉ ekmObjects s)).map
    (f := fun p => Event.allocEkm p.1 p.2) fun _ _ h => Prod.ext_iff.mpr (Event.allocEkm.inj h)
  have hvpn := (hret.product hepochs).map
    (f := fun p => Event.allocVpn p.1 p.2) fun _ _ h => Prod.ext_iff.mpr (Event.allocVpn.inj h)
  have hstale := (List.nodup_range' (s := 1) (n := s.epoch)).map
    (f := fun e => Event.rejectStale (some e))
    fun _ _ h => Option.some.inj (Event.rejectStale.inj h)
  have hone : ∀ ev : Event, [ev].Nodup := List.nodup_singleton
  revert p
  simp only [families, List.forall_mem_cons, List.not_mem_nil, IsEmpty.forall_iff, implies_true,
    and_true]
  exact ⟨nodup_offer hingest, hexpire, nodup_offer hekm, nodup_offer hvpn, nodup_offer (hone _),
    nodup_offer hstale, nodup_offer (hone _), nodup_offer (hone _), nodup_offer (hone _),
    nodup_offer (hone _), nodup_offer (hone _), nodup_offer (hone _), nodup_offer (hone _)⟩

theorem nodup_offered (hids : dom.ids.Nodup) (hver : dom.versions.Nodup) :
    (offered dom s).Nodup := by
  have hkeys : (families dom s).Pairwise fun p q => p.1 ≠ q.1 := by
    rw [← List.pairwise_map (f := Prod.fst) (R := (· ≠ ·))]
    simp [families]
  rw [offered, List.nodup_flatMap]
  refine ⟨fun p hp => nodup_family hids hver hp, hkeys.imp_of_mem fun {p q} hp hq hne => ?_⟩
  intro ev hev hev'
  exact hne ((family_of_mem hp ev hev).symm.trans (family_of_mem hq ev hev'))

/-! ## How many they are -/

theorem length_fresh (h : Shape dom s) (hids : dom.ids.Nodup) :
    (fresh dom s).length = dom.ids.length - s.bindings.card - s.pool.card := by
  obtain ⟨hm, hpool⟩ := inventory_iff.mp h.toInventory
  have hset : (fresh dom s).toFinset =
      (dom.ids.toFinset \ s.bindings.image Prod.fst) \ s.pool := by
    ext k
    have hexp : s.expired = ∅ := h.expired
    simp only [fresh, hexp, List.mem_toFinset, List.mem_filter, Finset.mem_sdiff,
      decide_eq_true_eq, consumed, Finset.notMem_empty, not_false_eq_true, and_true]
    tauto
  have hnodup : (fresh dom s).Nodup := hids.filter _
  rw [← List.toFinset_card_of_nodup hnodup, hset, Finset.card_sdiff_of_subset hpool,
    (card_left hids hm).2]

theorem length_unbound (h : Shape dom s) (hver : dom.versions.Nodup) :
    (unbound dom s).length = dom.versions.length - (versions s.bindings).card := by
  have hsub : versions s.bindings ⊆ dom.versions.toFinset := by
    intro v hv
    obtain ⟨k, hk⟩ := mem_versions.mp hv
    exact List.mem_toFinset.mpr (h.bound_versions k v hk)
  have hset : (unbound dom s).toFinset = dom.versions.toFinset \ versions s.bindings := by
    ext v
    have hke : some v = s.ke → v ∈ versions s.bindings := by
      intro heq
      have hact := h.version
      rw [← heq] at hact
      exact mem_versions.mpr hact
    have hobj : v ∈ ekmObjects s ↔ v ∈ versions s.bindings := Iff.rfl
    simp only [unbound, List.mem_toFinset, List.mem_filter, Finset.mem_sdiff, hobj,
      decide_eq_true_eq, ne_eq]
    tauto
  have hnodup : (unbound dom s).Nodup := hver.filter _
  rw [← List.toFinset_card_of_nodup hnodup, hset, Finset.card_sdiff_of_subset hsub,
    List.toFinset_card_of_nodup hver]

theorem length_allocEpochs (h : Shape dom s) :
    (allocEpochs dom s defaultRules).length = dom.maxEpoch - top (epochs s.bindings) := by
  have hsup : (vpnObjects s).sup id = top (epochs s.bindings) := rfl
  have hle := h.sessions.epoch_le
  simp only [allocEpochs, defaultRules, if_true, List.length_range', nextEpoch, hsup]
  omega

/-- The events that are enabled, from the bindings and the choices. -/
def degree (dom : Domain) (bound : Finset Binding) (pool : Finset String) (pending : Bool)
    (flags : Bool × Bool × Bool × Bool) : Nat :=
  let (sq, se, _, recovery) := flags
  (if sq then dom.ids.length - bound.card - pool.card else 0) + pool.card +
    (if se then pool.card * (dom.versions.length - (versions bound).card) else 0) +
    (if se ∧ pending = false then pool.card * (dom.maxEpoch - top (epochs bound)) else 0) +
    (if pending then 1 else 0) + activeEpoch pending (epochs bound) + 3 +
    (if sq ∧ se ∧ recovery then 1 else 0)

theorem length_offered (h : Shape dom s) (hids : dom.ids.Nodup) (hver : dom.versions.Nodup) :
    (offered dom s).length =
      degree dom s.bindings s.pool s.kp.isSome (s.sq, s.se, s.authority, s.recovery) := by
  have hret : (retained s defaultRules).length = s.pool.card := Finset.length_sort _
  have hctl := (inv_reached (reached_iff.mpr h)).control
  have hactivate : (s.kp.any fun p => s.epoch < p.2) = s.kp.isSome := by
    rcases hkp : s.kp with _ | ⟨k, e⟩
    · rfl
    · simpa using (hctl.kp_bound k e hkp).2
  have hstale : (if s.kv.isSome then s.epoch else 0) =
      activeEpoch s.kp.isSome (epochs s.bindings) := by
    rw [← h.sessions.epoch_eq]
    rcases hkv : s.kv with _ | p
    · exact ((hctl.no_session hkv).resolve_right (by decide)).symm
    · rfl
  have hnone : s.kp = none ↔ s.kp.isSome = false := by simp
  simp only [offered, families, List.length_flatMap, List.map_cons, List.map_nil, List.sum_cons,
    List.sum_nil, length_offer, List.length_map, List.length_product, List.length_singleton,
    List.length_range', hret, hactivate, hstale, length_fresh h hids, length_unbound h hver,
    length_allocEpochs h, degree, hnone]
  cases s.sq <;> cases s.se <;> cases s.authority <;> simp <;> omega

/-! ## Their sum -/

/-- What a pending or an activated epoch contributes to the choices. -/
def pendingShare (E left : Nat) (pending : Bool) (T : Finset Nat) : Nat :=
  if pending then 16 + 16 * second T else 4 * left * (E - top T) + 16 * top T

theorem sum_flags (bound : Finset Binding) (pool : Finset String) (pending : Bool) :
    ∑ flags, degree dom bound pool pending flags =
      8 * (dom.ids.length - bound.card - pool.card) + 16 * pool.card +
        8 * (pool.card * (dom.versions.length - (versions bound).card)) +
        (if pending then 0 else 8 * (pool.card * (dom.maxEpoch - top (epochs bound)))) +
        (if pending then 16 else 0) + 16 * activeEpoch pending (epochs bound) + 50 := by
  simp only [degree, Fintype.sum_prod_type, Fintype.sum_bool]
  cases pending <;> simp <;> omega

theorem sum_pools (A : Finset String) (a b : Nat) :
    ∑ pool ∈ A.powerset, (a + 2 * (b * pool.card)) = 2 ^ A.card * (a + b * A.card) := by
  have hsum := two_mul_sum_card A
  rw [Finset.sum_add_distrib, Finset.sum_const, Finset.card_powerset, ← Finset.mul_sum,
    ← Finset.mul_sum, nsmul_eq_mul, Nat.cast_id, Nat.mul_left_comm, hsum]
  ring

theorem sum_pool_degrees (bound : Finset Binding) {A : Finset String}
    (hA : A.card = dom.ids.length - bound.card) (pending : Bool) :
    ∑ pool ∈ A.powerset, ∑ flags, degree dom bound pool pending flags =
      2 ^ A.card * (50 + 4 * A.card * (3 + (dom.versions.length - (versions bound).card)) +
        pendingShare dom.maxEpoch A.card pending (epochs bound)) := by
  have hterm : ∀ pool ∈ A.powerset, ∑ flags, degree dom bound pool pending flags =
      (8 * A.card + (if pending then 16 else 0) + 16 * activeEpoch pending (epochs bound) + 50) +
        2 * ((4 + 4 * (dom.versions.length - (versions bound).card) +
          (if pending then 0 else 4 * (dom.maxEpoch - top (epochs bound)))) * pool.card) := by
    intro pool hpool
    obtain ⟨d, hd⟩ := Nat.exists_eq_add_of_le (Finset.card_le_card (Finset.mem_powerset.mp hpool))
    rw [sum_flags, ← hA, hd, Nat.add_sub_cancel_left]
    cases pending <;> simp only [Bool.false_eq_true, if_true, if_false] <;> ring
  rw [Finset.sum_congr rfl hterm, sum_pools]
  cases pending <;> simp only [pendingShare, activeEpoch, Bool.false_eq_true, if_true, if_false] <;>
    ring

/-- The events over the choices that `ne` bound versions and the bound
epochs `T` leave, for one active version. -/
def degreesOver (dom : Domain) (ne : Nat) (T : Finset Nat) : Nat :=
  let left := dom.ids.length - ne - T.card
  2 ^ left * ((if T.card = 0 then 1 else 2) *
      (50 + 4 * left * (3 + (dom.versions.length - ne))) +
    (4 * left * (dom.maxEpoch - top T) +
      if T.card = 0 then 0 else 16 + 16 * second T + 16 * top T))

theorem sum_choice_degrees (hids : dom.ids.Nodup) {S : Finset String} {T : Finset Nat}
    {bound : Finset Binding} (hm : bound ∈ covering dom.ids.toFinset (targetsOf S T)) :
    ∑ x ∈ choices dom bound, degree dom bound x.1 x.2.2.1 x.2.2.2 =
      (if S.card = 0 then 1 else S.card) * degreesOver dom S.card T := by
  obtain ⟨hv, he⟩ := covering_objects hm
  have hleft := (card_left hids (covering_subset (Finset.Subset.refl _) hm)).2
  have hcard := card_covering_bound hm
  rw [sum_choices bound (degree dom bound), hv]
  simp only [sum_pool_degrees bound hleft, hv, he, hleft, hcard, ← Nat.sub_sub, degreesOver]
  refine congrArg _ ?_
  rw [pendings, he]
  split
  · rename_i hT
    subst hT
    simp [pendingShare]
  · rename_i hT
    have hT' : T.card ≠ 0 := fun h => hT (Finset.card_eq_zero.mp h)
    simp [pendingShare, hT']
    ring

theorem sum_replays (E nv : Nat) :
    ∑ T ∈ (Finset.Icc 1 E).powersetCard nv,
      (if nv = 0 then 0 else 16 + 16 * second T + 16 * top T) = 16 * replays E nv := by
  cases nv with
  | zero => simp [replays]
  | succ k =>
    simp only [Nat.succ_ne_zero, if_false, replays, Finset.sum_add_distrib, ← Finset.mul_sum,
      sum_second, sum_top, Finset.sum_const, Finset.card_powersetCard, Nat.card_Icc,
      Nat.add_sub_cancel, nsmul_eq_mul, Nat.cast_id]
    rw [show 2 * (k + 1) - 1 = 2 * k + 1 by omega]
    ring

theorem sum_degreesOver (ne nv : Nat) :
    ∑ T ∈ (Finset.Icc 1 dom.maxEpoch).powersetCard nv, degreesOver dom ne T =
      2 ^ (dom.ids.length - ne - nv) *
        transitionsOver dom.versions.length dom.maxEpoch ne nv (dom.ids.length - ne - nv) := by
  have hsize : ∀ T ∈ (Finset.Icc 1 dom.maxEpoch).powersetCard nv, degreesOver dom ne T =
      2 ^ (dom.ids.length - ne - nv) * ((if nv = 0 then 1 else 2) *
          (50 + 4 * (dom.ids.length - ne - nv) * (3 + (dom.versions.length - ne))) +
        (4 * (dom.ids.length - ne - nv) * (dom.maxEpoch - top T) +
          if nv = 0 then 0 else 16 + 16 * second T + 16 * top T)) := by
    intro T hT
    rw [degreesOver, (Finset.mem_powersetCard.mp hT).2]
  rw [Finset.sum_congr rfl hsize]
  simp only [Finset.sum_add_distrib, ← Finset.mul_sum, sum_room, sum_replays, Finset.sum_const,
    Finset.card_powersetCard, Nat.card_Icc, Nat.add_sub_cancel, nsmul_eq_mul, Nat.cast_id,
    transitionsOver, epochVariants]
  by_cases hnv : nv = 0
  · simp [hnv, Nat.add_assoc]
  · simp only [hnv, if_false]
    ring

/-- **The events offered over all the codes.** -/
theorem sum_degrees (hids : dom.ids.Nodup) (hver : dom.versions.Nodup) :
    ∑ c ∈ codes dom, degree dom c.1 c.2.1 c.2.2.2.1 c.2.2.2.2 =
      transitionCount dom.ids.length dom.versions.length dom.maxEpoch :=
  sum_codes hids hver (fun _ _ _ hm => sum_choice_degrees hids hm) sum_degreesOver

end

/-! ## The transitions -/

section

variable {dom : Domain}

/-- The labelled transitions between reachable states. -/
noncomputable def transitionSet (dom : Domain) (rules : Rules) :
    Finset (Σ _ : State, String × State) :=
  (finite_reached dom rules).toFinset.sigma fun s => (enabled dom s rules).toFinset

theorem mem_transitionSet {rules : Rules} {e : Σ _ : State, String × State} :
    e ∈ transitionSet dom rules ↔ Reached dom rules e.1 ∧ Fires dom rules e.1 e.2.1 e.2.2 := by
  simp [transitionSet, Fires]

theorem ncard_transitions (rules : Rules) :
    {e : State × String × State | Reached dom rules e.1 ∧ Fires dom rules e.1 e.2.1 e.2.2}.ncard =
      (transitionSet dom rules).card := by
  have hinj : Function.Injective fun e : Σ _ : State, String × State => (e.1, e.2) := by
    rintro ⟨s, e⟩ ⟨s', e'⟩ heq
    cases heq
    rfl
  rw [← Set.ncard_coe_finset, ← Set.ncard_image_of_injective _ hinj]
  congr 1
  ext ⟨s, e⟩
  constructor
  · intro h
    exact ⟨⟨s, e⟩, mem_transitionSet.mpr h, rfl⟩
  · rintro ⟨e', he', heq⟩
    cases heq
    exact mem_transitionSet.mp he'

/-- In any reading the listed transitions are those of the reachable
states. -/
theorem ExactResult.length_transitions {rules : Rules} {r : Found State String Check}
    (h : ExactResult dom rules r) : r.transitions.length = (transitionSet dom rules).card := by
  have hnodup : r.transitions.Nodup := h.sorted.imp fun hlt => ne_of_lt hlt
  rw [← List.toFinset_card_of_nodup hnodup]
  symm
  refine Finset.card_nbij
    (fun e => edge (Dict.at r.index e.1) e.2.1 (Dict.at r.index e.2.2)) ?_ ?_ ?_
  · intro e he
    obtain ⟨hs, hf⟩ := mem_transitionSet.mp he
    exact List.mem_toFinset.mpr ((h.transitions _).mpr ⟨_, _, _, hs, hf, rfl⟩)
  · intro e he e' he' heq
    obtain ⟨hs, hf⟩ := mem_transitionSet.mp he
    obtain ⟨hs', hf'⟩ := mem_transitionSet.mp he'
    obtain ⟨s, l, t⟩ := e
    obtain ⟨s', l', t'⟩ := e'
    simp only [edge, toLex_inj, Prod.mk.injEq] at heq
    obtain ⟨hsrc, rfl, hdst⟩ := heq
    obtain rfl := h.index.injOn hs hs' hsrc
    obtain rfl := h.index.injOn (hs.tail hf) (hs'.tail hf') hdst
    rfl
  · intro e he
    obtain ⟨s, l, t, hs, hf, rfl⟩ := (h.transitions e).mp (List.mem_toFinset.mp he)
    exact ⟨⟨s, l, t⟩, mem_transitionSet.mpr ⟨hs, hf⟩, rfl⟩

/-- The labelled transitions of a calibrated state are its events. -/
theorem card_enabled (hids : dom.ids.Nodup) (hver : dom.versions.Nodup) {s : State}
    (h : Shape dom s) : (enabled dom s defaultRules).toFinset.card =
      degree dom s.bindings s.pool s.kp.isSome (s.sq, s.se, s.authority, s.recovery) := by
  have hinv := inv_reached (reached_iff.mpr h)
  rw [← length_offered h hids hver, ← List.toFinset_card_of_nodup (nodup_offered hids hver)]
  symm
  refine Finset.card_nbij (fun ev => (ev.label defaultRules, ev.apply defaultRules s)) ?_ ?_ ?_
  · intro ev hev
    exact List.mem_toFinset.mpr (mem_offered.mp (List.mem_toFinset.mp hev)).fires
  · intro ev hev ev' hev' heq
    obtain ⟨hl, ha⟩ := Prod.mk.inj heq
    exact event_unique hinv (mem_offered.mp (List.mem_toFinset.mp hev))
      (mem_offered.mp (List.mem_toFinset.mp hev')) hl ha
  · rintro ⟨l, t⟩ he
    obtain ⟨ev, hev, rfl, rfl⟩ := fires_iff.mp (List.mem_toFinset.mp he)
    exact ⟨ev, List.mem_toFinset.mpr (mem_offered.mpr hev), rfl⟩

theorem card_transitionSet (hids : dom.ids.Nodup) (hver : dom.versions.Nodup) :
    (transitionSet dom defaultRules).card =
      transitionCount dom.ids.length dom.versions.length dom.maxEpoch := by
  rw [transitionSet, Finset.card_sigma, ← sum_degrees hids hver, ← sum_reached]
  refine Finset.sum_congr rfl fun s hs => ?_
  have hreach := (finite_reached dom defaultRules).mem_toFinset.mp hs
  exact card_enabled hids hver (reached_iff.mp hreach)

end

/-- **The number of labelled transitions of the calibrated model**, as
what the enumeration lists and as what the reachable states offer; for
the declared domain it is 307,680. -/
theorem calibrated_transition_count (dom : Domain) (hids : dom.ids.Nodup)
    (hver : dom.versions.Nodup) :
    (∃ r, RunReturns dom defaultRules none r ∧ r.transitions.length =
        transitionCount dom.ids.length dom.versions.length dom.maxEpoch) ∧
    {e : State × String × State | Reached dom defaultRules e.1 ∧
        Fires dom defaultRules e.1 e.2.1 e.2.2}.ncard =
        transitionCount dom.ids.length dom.versions.length dom.maxEpoch ∧
    transitionCount 4 2 3 = 307680 := by
  obtain ⟨r, hr⟩ := run_returns dom defaultRules none
  have hcount := card_transitionSet hids hver
  have hlist := (exact_of_returns hr).length_transitions
  exact ⟨⟨r, hr, hlist.trans hcount⟩, (ncard_transitions defaultRules).trans hcount, by decide⟩

theorem calibrated_transition_count_declared :
    ∃ r, RunReturns declared defaultRules none r ∧ r.transitions.length = 307680 :=
  have h := calibrated_transition_count declared (by decide) (by decide)
  h.1.imp fun _ hr => ⟨hr.1, hr.2.trans h.2.2⟩

end QkdEkm.Model
