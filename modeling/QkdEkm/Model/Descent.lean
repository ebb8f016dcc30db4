import QkdEkm.Model.Shape

/-!
# Descent — every state of the calibrated shape is reached

`cost` is the length of a run to a state: one ingestion for each
identifier, one allocation for each binding, one activation for each
bound epoch that is no longer pending, and what the flags take. The
heart of the module is `Shape.descent`: a state of the shape other than
`initial` is entered by an event from a state of the shape that costs
one less. The events are undone in a fixed order: flags first, then the
sessions from the newest epoch down, then the external key versions,
and the pool last.
-/

namespace QkdEkm.Model

open QkdEkm.Lib

def Target.isEkm : Target → Bool
  | .ekm _ => true
  | .vpn _ => false

def Target.isVpn : Target → Bool
  | .ekm _ => false
  | .vpn _ => true

/-- The bindings of external key versions. -/
def ekmBindings (bound : Finset Binding) : Finset Binding := bound.filter fun b => b.2.isEkm

/-- The bindings of activation epochs. -/
def vpnBindings (bound : Finset Binding) : Finset Binding := bound.filter fun b => b.2.isVpn

/-- One ingestion for each identifier in use, one allocation for each
binding, one activation for each bound epoch no longer pending. -/
def coreCost (pool : Finset String) (bound : Finset Binding) (pending : Bool) : Nat :=
  pool.card + bound.card + (ekmBindings bound).card + 2 * (vpnBindings bound).card
    - (if pending then 1 else 0)

/-- One event for each dependency that is down, two for the recovery
flag: an interruption and a restoration. -/
def flagCost (sq se recovery : Bool) : Nat :=
  (if sq then 0 else 1) + (if se then 0 else 1) + (if recovery then 2 else 0)

/-- The length of a shortest run to `s`. -/
def cost (s : State) : Nat :=
  coreCost s.pool s.bindings s.kp.isSome + (if s.authority then 0 else 1)
    + flagCost s.sq s.se s.recovery

/-! ## Counting bindings -/

section Counting

variable {bound : Finset Binding} {k : String}

theorem ekmBindings_insert_ekm {v : String} :
    ekmBindings (insert (k, .ekm v) bound) = insert (k, .ekm v) (ekmBindings bound) := by
  rw [ekmBindings, Finset.filter_insert, if_pos (by rfl)]
  rfl

theorem ekmBindings_insert_vpn {e : Nat} :
    ekmBindings (insert (k, .vpn e) bound) = ekmBindings bound := by
  rw [ekmBindings, Finset.filter_insert, if_neg (by simp [Target.isEkm])]
  rfl

theorem vpnBindings_insert_ekm {v : String} :
    vpnBindings (insert (k, .ekm v) bound) = vpnBindings bound := by
  rw [vpnBindings, Finset.filter_insert, if_neg (by simp [Target.isVpn])]
  rfl

theorem vpnBindings_insert_vpn {e : Nat} :
    vpnBindings (insert (k, .vpn e) bound) = insert (k, .vpn e) (vpnBindings bound) := by
  rw [vpnBindings, Finset.filter_insert, if_pos (by rfl)]
  rfl

theorem card_ekmBindings_insert {v : String} (h : (k, Target.ekm v) ∉ bound) :
    (ekmBindings (insert (k, .ekm v) bound)).card = (ekmBindings bound).card + 1 := by
  rw [ekmBindings_insert_ekm, Finset.card_insert_of_notMem]
  exact fun hm => h (Finset.mem_of_mem_filter _ hm)

theorem card_vpnBindings_insert {e : Nat} (h : (k, Target.vpn e) ∉ bound) :
    (vpnBindings (insert (k, .vpn e) bound)).card = (vpnBindings bound).card + 1 := by
  rw [vpnBindings_insert_vpn, Finset.card_insert_of_notMem]
  exact fun hm => h (Finset.mem_of_mem_filter _ hm)

theorem vpnBindings_pos {e : Nat} (h : (k, Target.vpn e) ∈ bound) :
    0 < (vpnBindings bound).card :=
  Finset.card_pos.mpr ⟨_, Finset.mem_filter.mpr ⟨h, rfl⟩⟩

end Counting

section

variable {dom : Domain} {s : State}

/-- A pending activation is of a bound epoch, so it is not subtracted
from zero. -/
theorem Shape.pending_le (h : Shape dom s) :
    (if s.kp.isSome then 1 else 0) ≤ (vpnBindings s.bindings).card := by
  have hs := h.sessions
  rcases hp : s.kp with _ | ⟨k, m⟩
  · exact Nat.zero_le _
  · rw [hp] at hs
    exact vpnBindings_pos hs.2.1

/-! ## One event costs at most one -/

/-- Binding a version takes one event: the identifier stays in use. -/
theorem coreCost_ekm {pool : Finset String} {bound : Finset Binding} {pending : Bool}
    {k v : String} (hp : (if pending then 1 else 0) ≤ (vpnBindings bound).card)
    (hk : k ∈ pool) (hb : (k, Target.ekm v) ∉ bound) :
    coreCost (pool.erase k) (insert (k, .ekm v) bound) pending
      = coreCost pool bound pending + 1 := by
  have hc := Finset.card_erase_add_one hk
  simp only [coreCost, card_ekmBindings_insert hb, vpnBindings_insert_ekm,
    Finset.card_insert_of_notMem hb]
  omega

/-- Binding an epoch takes one event and leaves it pending. -/
theorem coreCost_vpn {pool : Finset String} {bound : Finset Binding} {k : String} {e : Nat}
    (hk : k ∈ pool) (hb : (k, Target.vpn e) ∉ bound) :
    coreCost (pool.erase k) (insert (k, .vpn e) bound) true = coreCost pool bound false + 1 := by
  have hc := Finset.card_erase_add_one hk
  simp only [coreCost, card_vpnBindings_insert hb, ekmBindings_insert_vpn,
    Finset.card_insert_of_notMem hb, if_true, Bool.false_eq_true, if_false]
  omega

/-- Activating it takes one more. -/
theorem coreCost_activate (pool : Finset String) {bound : Finset Binding}
    (hp : 0 < (vpnBindings bound).card) :
    coreCost pool bound false = coreCost pool bound true + 1 := by
  simp only [coreCost, if_true, Bool.false_eq_true, if_false]
  omega

/-- Ingesting takes one event. -/
theorem coreCost_ingest {pool : Finset String} {bound : Finset Binding} {pending : Bool}
    {k : String} (hp : (if pending then 1 else 0) ≤ (vpnBindings bound).card) (hk : k ∉ pool) :
    coreCost (insert k pool) bound pending = coreCost pool bound pending + 1 := by
  simp only [coreCost, Finset.card_insert_of_notMem hk]
  omega

theorem coreCost_expire_le {pool : Finset String} {bound : Finset Binding} {pending : Bool}
    (k : String) : coreCost (pool.erase k) bound pending ≤ coreCost pool bound pending := by
  have := Finset.card_erase_le (s := pool) (a := k)
  simp only [coreCost]
  omega

theorem cost_apply_le (h : Shape dom s) {ev : Event} (he : ev.Enabled dom defaultRules s) :
    cost (ev.apply defaultRules s) ≤ cost s + 1 := by
  have hp := h.pending_le
  have hcore : ∀ n, n ≤ coreCost s.pool s.bindings s.kp.isSome + 1 →
      n + (if s.authority then 0 else 1) + flagCost s.sq s.se s.recovery ≤ cost s + 1 := by
    intro n hn
    unfold cost
    omega
  cases ev with
  | ingest k => exact hcore _ (coreCost_ingest hp he.2.2.2.1).le
  | expire k => exact hcore _ ((coreCost_expire_le k).trans (Nat.le_succ _))
  | allocEkm k v =>
    refine hcore _ (coreCost_ekm hp (mem_retained.mp he.2.2.1) ?_).le
    exact fun hb => he.2.2.2.2.2 (mem_ekmObjects.mpr ⟨k, hb⟩)
  | allocVpn k e =>
    have hkp : s.kp = none := he.2.2.1.resolve_right (by decide)
    refine hcore _ ?_
    rw [hkp]
    refine (coreCost_vpn (mem_retained.mp he.2.2.2.2.1) ?_).le
    intro hb
    have := lt_nextEpoch.1 k e hb
    have := (mem_allocEpochs_default.mp he.2.2.2.2.2).1
    omega
  | activateVpn =>
    obtain ⟨_, k, e, hkp, _⟩ := he
    have hs := h.sessions
    rw [hkp] at hs
    have hact : (Event.activateVpn).apply defaultRules s
        = { s with kv := some (k, e), epoch := e, kp := none } := by
      simp [Event.apply, hkp]
    rw [hact]
    refine hcore _ ?_
    rw [hkp]
    exact (coreCost_activate _ (vpnBindings_pos hs.2.1)).le
  | abandonPending | sessionEnd | reconcile => exact absurd he.1 (by decide)
  | rejectStale e => exact Nat.le_succ _
  | srcDown | srcUp | ekmDown | ekmUp =>
    have hf := he.resolve_right (by decide)
    simp only [cost, flagCost, hf, Event.apply, interrupt, restore, defaultRules]
    simp
    try split
    all_goals omega
  | authorityWithdraw | authorityGrant =>
    have hf := he.2.resolve_right (by decide)
    simp only [cost, hf, Event.apply, withdrawn, defaultRules]
    simp
    omega
  | recover =>
    have hle : flagCost s.sq s.se false ≤ flagCost s.sq s.se s.recovery := by
      simp [flagCost]
    change coreCost s.pool s.bindings s.kp.isSome + (if s.authority then 0 else 1)
      + flagCost s.sq s.se false ≤ cost s + 1
    unfold cost
    omega

/-! ## Undoing one event -/

/-- `t` is entered by an event from a state of the shape that costs one
less. -/
def Entered (dom : Domain) (t : State) : Prop :=
  ∃ (p : State) (ev : Event), Shape dom p ∧ ev.Enabled dom defaultRules p ∧
    t = ev.apply defaultRules p ∧
    cost t = cost p + 1

theorem Shape.flags (h : Shape dom s) (sq se authority recovery : Bool) :
    Shape dom { s with sq, se, authority, recovery } :=
  { h with }

theorem entered_authority (h : Shape dom s) (ha : s.authority = false) : Entered dom s := by
  refine ⟨{ s with authority := true }, .authorityWithdraw, h.flags s.sq s.se true s.recovery,
    ⟨.inl rfl, .inl rfl⟩, ?_, ?_⟩
  · cases s
    cases ha
    rfl
  · simp [cost, ha]
    omega

theorem entered_sq (h : Shape dom s) (hq : s.sq = false) : Entered dom s := by
  refine ⟨{ s with sq := true }, .srcDown, h.flags true s.se s.authority s.recovery,
    .inl rfl, ?_, ?_⟩
  · cases s
    cases hq
    rfl
  · simp [cost, flagCost, hq]
    omega

theorem entered_se (h : Shape dom s) (he : s.se = false) : Entered dom s := by
  refine ⟨{ s with se := true }, .ekmDown, h.flags s.sq true s.authority s.recovery,
    .inl rfl, ?_, ?_⟩
  · cases s
    cases he
    rfl
  · simp [cost, flagCost, he]
    omega

/-- Recovery is raised by a restoration, here of the source. -/
theorem entered_recovery (h : Shape dom s) (hq : s.sq = true) (hr : s.recovery = true) :
    Entered dom s := by
  refine ⟨{ s with sq := false, recovery := false }, .srcUp, h.flags false s.se s.authority false,
    .inl rfl, ?_, ?_⟩
  · cases s
    cases hq
    cases hr
    rfl
  · simp [cost, flagCost, hq, hr]
    omega

/-- The active epoch, the greatest bound one, was pending before. -/
theorem entered_activate (h : Shape dom s) (hkp : s.kp = none)
    (hne : (epochs s.bindings).Nonempty) : Entered dom s := by
  have hs := h.sessions
  rw [hkp] at hs
  obtain ⟨he, _⟩ | ⟨hg, k, hb, hkv⟩ := hs
  · simp [he] at hne
  obtain ⟨kv, epoch, hl⟩ :=
    exists_latest s.bindings (Finset.erase_subset s.epoch (epochs s.bindings))
  have hlt : epoch < s.epoch := by
    refine hl.lt (h.bound_epochs k _ hb).1 fun e he => ?_
    obtain ⟨hne, he⟩ := Finset.mem_erase.mp he
    exact lt_of_le_of_ne (hg.2 he) hne
  refine ⟨{ s with kp := some (k, s.epoch), kv, epoch }, .activateVpn, ?_,
    ⟨rfl, k, s.epoch, rfl, hlt⟩, ?_, ?_⟩
  · exact { h with sessions := ⟨hg, hb, hl⟩ }
  · cases s
    cases hkp
    simp only at hkv
    subst hkv
    rfl
  · have := coreCost_activate s.pool (vpnBindings_pos hb)
    simp only [cost, hkp, Option.isSome_none, Option.isSome_some]
    omega

/-- The inventory before `k` was taken and bound to `t`. -/
theorem Inventory.unbind {pool : Finset String} {bindings : Finset Binding} {k : String}
    {t : Target} (h : Inventory dom pool bindings) (hb : (k, t) ∈ bindings) :
    Inventory dom (insert k pool) (bindings.erase (k, t)) where
  pool_ids := by
    intro j hj
    rcases Finset.mem_insert.mp hj with rfl | hj
    · exact h.bound_ids _ t hb
    · exact h.pool_ids j hj
  bound_ids := fun j u hj => h.bound_ids j u (Finset.mem_of_mem_erase hj)
  bound_versions := fun j v hj => h.bound_versions j v (Finset.mem_of_mem_erase hj)
  bound_epochs := fun j e hj => h.bound_epochs j e (Finset.mem_of_mem_erase hj)
  id_unique := fun j u u' hj hj' =>
    h.id_unique j u u' (Finset.mem_of_mem_erase hj) (Finset.mem_of_mem_erase hj')
  target_unique := fun j j' u hj hj' =>
    h.target_unique j j' u (Finset.mem_of_mem_erase hj) (Finset.mem_of_mem_erase hj')
  bound_not_pooled := by
    intro j u hj hm
    obtain ⟨hne, hj⟩ := Finset.mem_erase.mp hj
    rcases Finset.mem_insert.mp hm with hjk | hm
    · rw [hjk] at hj hne
      exact hne (by rw [h.id_unique k u t hj hb])
    · exact h.bound_not_pooled j u hj hm

/-- Another inventory, version and pending session for a state of the
shape. -/
theorem Inventory.restock (h : Shape dom s) {pool : Finset String} {bindings : Finset Binding}
    {ke : Option String} {kp : Option (String × Nat)} (hi : Inventory dom pool bindings)
    (hv : ActiveVersion bindings ke) (hs : Sessions bindings kp s.kv s.epoch) :
    Shape dom { s with pool, bindings, ke, kp } :=
  { h with toInventory := hi, version := hv, sessions := hs }

/-- Without the binding of `m`, `m` is not bound. -/
theorem Inventory.epochs_erase {pool : Finset String} {bindings : Finset Binding} {k : String}
    {m : Nat} (h : Inventory dom pool bindings) (hb : (k, Target.vpn m) ∈ bindings) :
    epochs (bindings.erase (k, .vpn m)) = (epochs bindings).erase m := by
  ext e
  simp only [Finset.mem_erase, mem_epochs]
  constructor
  · rintro ⟨j, hne, hj⟩
    refine ⟨?_, j, hj⟩
    rintro rfl
    exact hne (by rw [h.target_unique j k _ hj hb])
  · rintro ⟨hne, j, hj⟩
    exact ⟨j, by simp [hne], hj⟩

theorem nextEpoch_le {m : Nat} (hb : ∀ k e, (k, Target.vpn e) ∈ s.bindings → e < m)
    (he : s.epoch < m) : nextEpoch s ≤ m := by
  have hsup : (vpnObjects s).sup id ≤ m - 1 := by
    refine Finset.sup_le fun e hm => ?_
    obtain ⟨k, hk⟩ := mem_vpnObjects.mp hm
    exact Nat.le_sub_one_of_lt (hb k e hk)
  unfold nextEpoch
  omega

/-- The pending epoch was allocated last, from the pool. -/
theorem entered_allocVpn (h : Shape dom s) (hse : s.se = true) {k : String} {m : Nat}
    (hkp : s.kp = some (k, m)) : Entered dom s := by
  have hs := h.sessions
  rw [hkp] at hs
  obtain ⟨hg, hb, hl⟩ := hs
  have hk := h.bound_not_pooled k _ hb
  have hm := h.bound_epochs k m hb
  have hes := h.epochs_erase hb
  have hlt : ∀ e ∈ (epochs s.bindings).erase m, e < m := fun e he =>
    lt_of_le_of_ne (hg.2 (Finset.mem_of_mem_erase he)) (Finset.ne_of_mem_erase he)
  have hv : ActiveVersion (s.bindings.erase (k, .vpn m)) s.ke := h.version.congr (by simp)
  have hl' : Latest (s.bindings.erase (k, .vpn m)) ((epochs s.bindings).erase m)
      s.kv s.epoch := by
    refine hl.mono fun j e he hj => Finset.mem_erase.mpr ⟨?_, hj⟩
    rintro ⟨⟩
    exact Nat.lt_irrefl _ (hlt _ he)
  let p : State :=
    { s with pool := insert k s.pool, bindings := s.bindings.erase (k, .vpn m), kp := none }
  have hp : Shape dom p := by
    refine (h.toInventory.unbind hb).restock h hv ?_
    change Latest _ _ _ _
    rw [hes]
    exact hl'
  have hnext : nextEpoch p ≤ m := by
    refine nextEpoch_le (fun j e hj => ?_) (hl.lt hm.1 hlt)
    exact hlt e (hes ▸ mem_epochs.mpr ⟨j, hj⟩)
  refine ⟨p, .allocVpn k m, hp, ⟨hse, hnext.trans hm.2, .inl rfl, .inr rfl,
    mem_retained.mpr (Finset.mem_insert_self ..), mem_allocEpochs_default.mpr ⟨hnext, hm.2⟩⟩,
    ?_, ?_⟩
  · rw [apply_allocVpn]
    simp only [p, Finset.erase_insert hk, Finset.insert_erase hb, ← hkp]
  · have := coreCost_vpn (e := m) (Finset.mem_insert_self k s.pool)
      (Finset.notMem_erase (k, Target.vpn m) s.bindings)
    rw [Finset.erase_insert hk, Finset.insert_erase hb] at this
    simp only [cost, p, hkp, Option.isSome_some, Option.isSome_none, this]
    omega

/-- The active version was allocated last, if no epoch is bound. -/
theorem entered_allocEkm (h : Shape dom s) (hse : s.se = true) {k v : String}
    (hke : s.ke = some v) (hb : (k, Target.ekm v) ∈ s.bindings) : Entered dom s := by
  have hk := h.bound_not_pooled k _ hb
  obtain ⟨ke, hv⟩ := exists_activeVersion (s.bindings.erase (k, .ekm v))
  have hfree : ∀ j, (j, Target.ekm v) ∉ s.bindings.erase (k, .ekm v) := by
    intro j hj
    obtain ⟨hne, hj⟩ := Finset.mem_erase.mp hj
    exact hne (by rw [h.target_unique j k _ hj hb])
  let p : State :=
    { s with pool := insert k s.pool, bindings := s.bindings.erase (k, .ekm v), ke }
  have hp : Shape dom p :=
    (h.toInventory.unbind hb).restock h hv (h.sessions.congr (by simp))
  refine ⟨p, .allocEkm k v, hp, ⟨hse, .inr rfl, mem_retained.mpr (Finset.mem_insert_self ..),
    h.bound_versions k v hb, ?_, ?_⟩, ?_, ?_⟩
  · rintro rfl
    obtain ⟨j, hj⟩ := hv
    exact hfree j hj
  · intro hm
    obtain ⟨j, hj⟩ := mem_ekmObjects.mp hm
    exact hfree j hj
  · rw [apply_allocEkm]
    simp only [p, Finset.erase_insert hk, Finset.insert_erase hb, ← hke]
  · have := coreCost_ekm hp.pending_le (Finset.mem_insert_self k s.pool) (hfree k)
    simp only [p] at this
    rw [Finset.erase_insert hk, Finset.insert_erase hb] at this
    simp only [cost, p, this]
    omega

/-- With nothing bound, the pool was ingested. -/
theorem entered_ingest (h : Shape dom s) (hsq : s.sq = true) (hb : s.bindings = ∅)
    {k : String} (hk : k ∈ s.pool) : Entered dom s := by
  let p : State := { s with pool := s.pool.erase k }
  have hi : Inventory dom (s.pool.erase k) s.bindings :=
    { h.toInventory with
      pool_ids := fun j hj => h.pool_ids j (Finset.mem_of_mem_erase hj)
      bound_not_pooled := fun j t hj hm =>
        h.bound_not_pooled j t hj (Finset.mem_of_mem_erase hm) }
  have hp : Shape dom p := hi.restock h h.version h.sessions
  refine ⟨p, .ingest k, hp, ⟨hsq, .inr rfl, h.pool_ids k hk, Finset.notMem_erase k _, ?_, ?_⟩,
    ?_, ?_⟩
  · simp [consumed, p, hb]
  · simp [p, h.expired, initial]
  · change s = { s with pool := insert k (s.pool.erase k) }
    rw [Finset.insert_erase hk]
  · have := coreCost_ingest hp.pending_le (Finset.notMem_erase k s.pool)
    simp only [p] at this
    rw [Finset.insert_erase hk] at this
    simp only [cost, p, this]
    omega

theorem Shape.eq_initial (h : Shape dom s) (hsq : s.sq = true) (hse : s.se = true)
    (ha : s.authority = true) (hr : s.recovery = false) (hpool : s.pool = ∅)
    (hb : s.bindings = ∅) (hke : s.ke = none) (hkp : s.kp = none) (hkv : s.kv = none)
    (hep : s.epoch = 0) : s = initial := by
  have hx := h.expired
  have hsu := h.suspended
  have hd := h.detected
  have ho := h.order
  cases s
  simp only at *
  subst_vars
  rfl

/-- **Descent**: a state of the shape is `initial` or is entered from a
state of the shape that costs one less. -/
theorem Shape.descent (h : Shape dom s) : s = initial ∨ Entered dom s := by
  cases ha : s.authority with
  | false => exact .inr (entered_authority h ha)
  | true => ?_
  cases hsq : s.sq with
  | false => exact .inr (entered_sq h hsq)
  | true => ?_
  cases hse : s.se with
  | false => exact .inr (entered_se h hse)
  | true => ?_
  cases hr : s.recovery with
  | true => exact .inr (entered_recovery h hsq hr)
  | false => ?_
  rcases hkp : s.kp with _ | ⟨k, m⟩
  swap
  · exact .inr (entered_allocVpn h hse hkp)
  rcases (epochs s.bindings).eq_empty_or_nonempty with hes | hne
  swap
  · exact .inr (entered_activate h hkp hne)
  have hv := h.version
  rcases hke : s.ke with _ | v
  swap
  · rw [hke] at hv
    obtain ⟨k, hb⟩ := hv
    exact .inr (entered_allocEkm h hse hke hb)
  have hb : s.bindings = ∅ := by
    rw [hke] at hv
    refine Finset.eq_empty_of_forall_notMem ?_
    rintro ⟨k, v | e⟩ hm
    · exact hv k v hm
    · simpa [hes] using mem_epochs.mpr ⟨k, hm⟩
  rcases s.pool.eq_empty_or_nonempty with hpool | ⟨k, hk⟩
  swap
  · exact .inr (entered_ingest h hsq hb hk)
  have hs := h.sessions
  rw [hkp] at hs
  obtain ⟨_, hkv, hep⟩ | ⟨hg, _⟩ := hs
  · exact .inl (h.eq_initial hsq hse ha hr hpool hb hke hkp hkv hep)
  · exact absurd hg.1 (by simp [hes])

/-! ## The reachable states -/

/-- **The cost of a state of the shape is its distance.** -/
theorem Shape.dist (h : Shape dom s) : Dist (Fires dom defaultRules) initial (cost s) s := by
  refine dist_of_potential (Reached dom defaultRules) (Reachable.refl initial) rfl ?_ ?_ h
  · intro t l u ht hf
    refine ⟨ht.tail hf, ?_⟩
    obtain ⟨ev, he, rfl, rfl⟩ := fires_iff.mp hf
    exact cost_apply_le (shape_reached ht) he
  · intro t ht
    rcases ht.descent with rfl | ⟨p, ev, hp, he, rfl, hc⟩
    · exact .inl rfl
    · exact .inr ⟨p, _, hp, he.fires, hc⟩

theorem reached_iff : Reached dom defaultRules s ↔ Shape dom s :=
  ⟨shape_reached, fun h => h.dist.reachable⟩

/-- **The reachable set of the calibrated model**: a state is reachable
exactly if it has the shape, and the four flags take all sixteen
combinations over every core. -/
theorem calibrated_reachable_set (dom : Domain) (s : State) :
    (Reached dom defaultRules s ↔ Shape dom s) ∧
    (Reached dom defaultRules s → ∀ sq se authority recovery,
      Reached dom defaultRules { s with sq, se, authority, recovery }) := by
  refine ⟨reached_iff, fun hs sq se authority recovery => ?_⟩
  exact reached_iff.mpr ((reached_iff.mp hs).flags sq se authority recovery)

end

end QkdEkm.Model
