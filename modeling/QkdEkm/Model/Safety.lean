import QkdEkm.Model.Steps

/-!
# Safety — every state property and every guard, under every reading

One inductive invariant serves all readings. It has two halves, each a
statement about the fields it names and about no others, so that an
event that leaves those fields alone preserves it for free:

* `Stock`: pool, bindings, expired identifiers and the FIFO order;
* `Control`: the active version, the pending and the active session and
  the authoritative epoch, against the bindings.
-/

namespace QkdEkm.Model

open QkdEkm.Lib

/-- Pool and bindings are consistent: identifiers and targets come from
the declared domain, each identifier is in the pool or bound once, and
no target is bound twice. -/
structure Inventory (dom : Domain) (pool : Finset String) (bindings : Finset Binding) :
    Prop where
  pool_ids : ∀ k ∈ pool, k ∈ dom.ids
  bound_ids : ∀ k t, (k, t) ∈ bindings → k ∈ dom.ids
  bound_versions : ∀ k v, (k, Target.ekm v) ∈ bindings → v ∈ dom.versions
  bound_epochs : ∀ k e, (k, Target.vpn e) ∈ bindings → 1 ≤ e ∧ e ≤ dom.maxEpoch
  id_unique : ∀ k t t', (k, t) ∈ bindings → (k, t') ∈ bindings → t = t'
  target_unique : ∀ k k' t, (k, t) ∈ bindings → (k', t) ∈ bindings → k = k'
  bound_not_pooled : ∀ k t, (k, t) ∈ bindings → k ∉ pool

/-- The same with the expired identifiers, which are in neither, and the
FIFO order of the pool. -/
structure Stock (dom : Domain) (fifo : Bool) (pool : Finset String)
    (bindings : Finset Binding) (expired : Finset String) (order : List String) : Prop
    extends Inventory dom pool bindings where
  expired_ids : ∀ k ∈ expired, k ∈ dom.ids
  expired_not_pooled : ∀ k ∈ expired, k ∉ pool
  expired_not_bound : ∀ k ∈ expired, ∀ t, (k, t) ∉ bindings
  no_order : fifo = false → order = []
  order_nodup : order.Nodup
  order_pool : fifo = true → ∀ k, k ∈ order ↔ k ∈ pool

/-- The control fields are backed by bindings. `kept` is the reading in
which the epoch survives the session. -/
structure Control (dom : Domain) (kept : Bool) (bindings : Finset Binding)
    (ke : Option String) (kp kv : Option (String × Nat)) (epoch : Nat) : Prop where
  ke_bound : ∀ v, ke = some v → ∃ k, (k, Target.ekm v) ∈ bindings
  kp_bound : ∀ k e, kp = some (k, e) → (k, Target.vpn e) ∈ bindings ∧ epoch < e
  kv_bound : ∀ k e, kv = some (k, e) → (k, Target.vpn e) ∈ bindings ∧ e = epoch
  no_session : kv = none → epoch = 0 ∨ kept = true
  epoch_le : epoch ≤ dom.maxEpoch

structure Inv (dom : Domain) (rules : Rules) (s : State) : Prop where
  stock : Stock dom rules.fifoPool s.pool s.bindings s.expired s.order
  control : Control dom (retainedEpoch rules) s.bindings s.ke s.kp s.kv s.epoch

theorem inventory_empty (dom : Domain) : Inventory dom ∅ ∅ := by
  constructor <;> simp

theorem inv_initial (dom : Domain) (rules : Rules) : Inv dom rules initial where
  stock := by
    refine ⟨inventory_empty dom, ?_, ?_, ?_, ?_, ?_, ?_⟩ <;> simp [initial]
  control := by
    constructor <;> simp [initial]

/-! ## Field lemmas of the updates -/

section Fields

variable (s : State) (rules : Rules) (k : String)

@[simp] theorem poolAdd_pool : (poolAdd s k rules).pool = insert k s.pool := by
  unfold poolAdd; split <;> rfl
@[simp] theorem poolAdd_bindings : (poolAdd s k rules).bindings = s.bindings := by
  unfold poolAdd; split <;> rfl
@[simp] theorem poolAdd_expired : (poolAdd s k rules).expired = s.expired := by
  unfold poolAdd; split <;> rfl
@[simp] theorem poolAdd_order :
    (poolAdd s k rules).order = if rules.fifoPool then s.order ++ [k] else s.order := by
  unfold poolAdd; split <;> rfl
@[simp] theorem poolAdd_ke : (poolAdd s k rules).ke = s.ke := by
  unfold poolAdd; split <;> rfl
@[simp] theorem poolAdd_kp : (poolAdd s k rules).kp = s.kp := by
  unfold poolAdd; split <;> rfl
@[simp] theorem poolAdd_kv : (poolAdd s k rules).kv = s.kv := by
  unfold poolAdd; split <;> rfl
@[simp] theorem poolAdd_epoch : (poolAdd s k rules).epoch = s.epoch := by
  unfold poolAdd; split <;> rfl

@[simp] theorem poolTake_pool : (poolTake s k rules).pool = s.pool.erase k := by
  unfold poolTake; split <;> rfl
@[simp] theorem poolTake_bindings : (poolTake s k rules).bindings = s.bindings := by
  unfold poolTake; split <;> rfl
@[simp] theorem poolTake_expired : (poolTake s k rules).expired = s.expired := by
  unfold poolTake; split <;> rfl
@[simp] theorem poolTake_order : (poolTake s k rules).order =
    if rules.fifoPool then s.order.filter (· ≠ k) else s.order := by
  unfold poolTake; split <;> rfl
@[simp] theorem poolTake_ke : (poolTake s k rules).ke = s.ke := by
  unfold poolTake; split <;> rfl
@[simp] theorem poolTake_kp : (poolTake s k rules).kp = s.kp := by
  unfold poolTake; split <;> rfl
@[simp] theorem poolTake_kv : (poolTake s k rules).kv = s.kv := by
  unfold poolTake; split <;> rfl
@[simp] theorem poolTake_epoch : (poolTake s k rules).epoch = s.epoch := by
  unfold poolTake; split <;> rfl

end Fields

theorem mem_vpnObjects {s : State} {e : Nat} :
    e ∈ vpnObjects s ↔ ∃ k, (k, Target.vpn e) ∈ s.bindings := by
  simp only [vpnObjects, Finset.mem_eraseNone, Finset.mem_image, Prod.exists]
  constructor
  · rintro ⟨k, t, hb, ht⟩
    cases t with
    | ekm v => simp [Target.epoch?] at ht
    | vpn e' =>
      cases ht
      exact ⟨k, hb⟩
  · rintro ⟨k, hb⟩
    exact ⟨k, .vpn e, hb, rfl⟩

theorem mem_ekmObjects {s : State} {v : String} :
    v ∈ ekmObjects s ↔ ∃ k, (k, Target.ekm v) ∈ s.bindings := by
  simp only [ekmObjects, Finset.mem_eraseNone, Finset.mem_image, Prod.exists]
  constructor
  · rintro ⟨k, t, hb, ht⟩
    cases t with
    | ekm v' =>
      cases ht
      exact ⟨k, hb⟩
    | vpn e => simp [Target.version?] at ht
  · rintro ⟨k, hb⟩
    exact ⟨k, .ekm v, hb, rfl⟩

/-- Every bound epoch and the authoritative one are below the next. -/
theorem lt_nextEpoch {s : State} :
    (∀ k e, (k, Target.vpn e) ∈ s.bindings → e < nextEpoch s) ∧ s.epoch < nextEpoch s := by
  constructor
  · intro k e hb
    have : e ≤ (vpnObjects s).sup id :=
      Finset.le_sup (f := id) (mem_vpnObjects.mpr ⟨k, hb⟩)
    unfold nextEpoch
    omega
  · unfold nextEpoch
    omega

theorem mem_allocEpochs {dom : Domain} {rules : Rules} {s : State} {e : Nat}
    (hn : nextEpoch s ≤ dom.maxEpoch) (he : e ∈ allocEpochs dom s rules) :
    nextEpoch s ≤ e ∧ e ≤ dom.maxEpoch := by
  unfold allocEpochs at he
  split at he
  · rw [List.mem_range'_1] at he
    omega
  · rw [List.mem_singleton] at he
    omega

/-! ## The inventory -/

section Stock

variable {dom : Domain} {fifo : Bool} {pool : Finset String} {bindings : Finset Binding}
  {expired : Finset String} {order : List String}

/-- A fresh identifier enters the pool. -/
theorem Stock.add (h : Stock dom fifo pool bindings expired order) {k : String}
    (hk : k ∈ dom.ids) (hp : k ∉ pool) (hb : ∀ t, (k, t) ∉ bindings) (he : k ∉ expired) :
    Stock dom fifo (insert k pool) bindings expired (if fifo then order ++ [k] else order) where
  pool_ids := by
    intro j hj
    rcases Finset.mem_insert.mp hj with rfl | hj
    · exact hk
    · exact h.pool_ids j hj
  bound_ids := h.bound_ids
  bound_versions := h.bound_versions
  bound_epochs := h.bound_epochs
  id_unique := h.id_unique
  target_unique := h.target_unique
  bound_not_pooled := by
    intro j t hj hm
    rcases Finset.mem_insert.mp hm with rfl | hm
    · exact hb t hj
    · exact h.bound_not_pooled j t hj hm
  expired_ids := h.expired_ids
  expired_not_pooled := by
    intro j hj hm
    rcases Finset.mem_insert.mp hm with rfl | hm
    · exact he hj
    · exact h.expired_not_pooled j hj hm
  expired_not_bound := h.expired_not_bound
  no_order := by
    intro hf
    simp [hf, h.no_order hf]
  order_nodup := by
    split
    · rename_i hf
      refine List.nodup_append.mpr ⟨h.order_nodup, by simp, ?_⟩
      intro a ha b hb' hab
      rw [List.mem_singleton] at hb'
      subst hb'
      exact hp ((h.order_pool hf _).mp (hab ▸ ha))
    · exact h.order_nodup
  order_pool := by
    intro hf j
    simp [hf, h.order_pool hf, or_comm]

/-- An identifier leaves the pool. -/
theorem Stock.take (h : Stock dom fifo pool bindings expired order) (k : String) :
    Stock dom fifo (pool.erase k) bindings expired
      (if fifo then order.filter (· ≠ k) else order) where
  pool_ids := fun j hj => h.pool_ids j (Finset.mem_of_mem_erase hj)
  bound_ids := h.bound_ids
  bound_versions := h.bound_versions
  bound_epochs := h.bound_epochs
  id_unique := h.id_unique
  target_unique := h.target_unique
  bound_not_pooled := fun j t hj hm => h.bound_not_pooled j t hj (Finset.mem_of_mem_erase hm)
  expired_ids := h.expired_ids
  expired_not_pooled := fun j hj hm => h.expired_not_pooled j hj (Finset.mem_of_mem_erase hm)
  expired_not_bound := h.expired_not_bound
  no_order := by
    intro hf
    simp [hf, h.no_order hf]
  order_nodup := by
    split
    · exact h.order_nodup.filter _
    · exact h.order_nodup
  order_pool := by
    intro hf j
    simp [hf, h.order_pool hf, and_comm]

/-- An identifier in no state of use expires for good. -/
theorem Stock.expire (h : Stock dom fifo pool bindings expired order) {k : String}
    (hk : k ∈ dom.ids) (hp : k ∉ pool) (hb : ∀ t, (k, t) ∉ bindings) :
    Stock dom fifo pool bindings (insert k expired) order where
  __ := h
  expired_ids := by
    intro j hj
    rcases Finset.mem_insert.mp hj with rfl | hj
    · exact hk
    · exact h.expired_ids j hj
  expired_not_pooled := by
    intro j hj
    rcases Finset.mem_insert.mp hj with rfl | hj
    · exact hp
    · exact h.expired_not_pooled j hj
  expired_not_bound := by
    intro j hj
    rcases Finset.mem_insert.mp hj with rfl | hj
    · exact hb
    · exact h.expired_not_bound j hj

/-- An identifier in no state of use is bound to an unused target. -/
theorem Stock.bind (h : Stock dom fifo pool bindings expired order) {k : String} {t : Target}
    (hk : k ∈ dom.ids) (hp : k ∉ pool) (he : k ∉ expired) (hb : ∀ t, (k, t) ∉ bindings)
    (ht : ∀ j, (j, t) ∉ bindings) (hv : ∀ v, t = .ekm v → v ∈ dom.versions)
    (hn : ∀ e, t = .vpn e → 1 ≤ e ∧ e ≤ dom.maxEpoch) :
    Stock dom fifo pool (insert (k, t) bindings) expired order where
  __ := h
  bound_ids := by
    intro j u hj
    rcases Finset.mem_insert.mp hj with heq | hj
    · cases heq
      exact hk
    · exact h.bound_ids j u hj
  bound_versions := by
    intro j v hj
    rcases Finset.mem_insert.mp hj with heq | hj
    · cases heq
      exact hv v rfl
    · exact h.bound_versions j v hj
  bound_epochs := by
    intro j e hj
    rcases Finset.mem_insert.mp hj with heq | hj
    · cases heq
      exact hn e rfl
    · exact h.bound_epochs j e hj
  id_unique := by
    intro j u u' hj hj'
    rcases Finset.mem_insert.mp hj with heq | hj
    · cases heq
      rcases Finset.mem_insert.mp hj' with heq' | hj'
      · cases heq'
        rfl
      · exact absurd hj' (hb u')
    · rcases Finset.mem_insert.mp hj' with heq' | hj'
      · cases heq'
        exact absurd hj (hb u)
      · exact h.id_unique j u u' hj hj'
  target_unique := by
    intro j j' u hj hj'
    rcases Finset.mem_insert.mp hj with heq | hj
    · cases heq
      rcases Finset.mem_insert.mp hj' with heq' | hj'
      · cases heq'
        rfl
      · exact absurd hj' (ht j')
    · rcases Finset.mem_insert.mp hj' with heq' | hj'
      · cases heq'
        exact absurd hj (ht j)
      · exact h.target_unique j j' u hj hj'
  bound_not_pooled := by
    intro j u hj
    rcases Finset.mem_insert.mp hj with heq | hj
    · cases heq
      exact hp
    · exact h.bound_not_pooled j u hj
  expired_not_bound := by
    intro j hj u hm
    rcases Finset.mem_insert.mp hm with heq | hm
    · cases heq
      exact he hj
    · exact h.expired_not_bound j hj u hm

end Stock

/-! ## The control fields -/

section Control

variable {dom : Domain} {kept : Bool} {bindings : Finset Binding} {ke : Option String}
  {kp kv : Option (String × Nat)} {epoch : Nat}

/-- Bindings are never removed, so they go on backing the control fields. -/
theorem Control.bind (h : Control dom kept bindings ke kp kv epoch) (b : Binding) :
    Control dom kept (insert b bindings) ke kp kv epoch where
  ke_bound := by
    intro v hv
    obtain ⟨k, hk⟩ := h.ke_bound v hv
    exact ⟨k, Finset.mem_insert_of_mem hk⟩
  kp_bound := fun k e hp =>
    ⟨Finset.mem_insert_of_mem (h.kp_bound k e hp).1, (h.kp_bound k e hp).2⟩
  kv_bound := fun k e hp =>
    ⟨Finset.mem_insert_of_mem (h.kv_bound k e hp).1, (h.kv_bound k e hp).2⟩
  no_session := h.no_session
  epoch_le := h.epoch_le

theorem Control.set_ke (h : Control dom kept bindings ke kp kv epoch) {k v : String}
    (hb : (k, Target.ekm v) ∈ bindings) : Control dom kept bindings (some v) kp kv epoch where
  __ := h
  ke_bound := by
    rintro _ ⟨⟩
    exact ⟨k, hb⟩

theorem Control.clear_ke (h : Control dom kept bindings ke kp kv epoch) :
    Control dom kept bindings none kp kv epoch where
  __ := h
  ke_bound := by
    rintro _ ⟨⟩

theorem Control.set_kp (h : Control dom kept bindings ke kp kv epoch) {k : String} {e : Nat}
    (hb : (k, Target.vpn e) ∈ bindings) (he : epoch < e) :
    Control dom kept bindings ke (some (k, e)) kv epoch where
  __ := h
  kp_bound := by
    rintro _ _ ⟨⟩
    exact ⟨hb, he⟩

theorem Control.clear_kp (h : Control dom kept bindings ke kp kv epoch) :
    Control dom kept bindings ke none kv epoch where
  __ := h
  kp_bound := by
    rintro _ _ ⟨⟩

/-- A bound epoch becomes the authoritative one. -/
theorem Control.set_kv (h : Control dom kept bindings ke kp kv epoch) {k : String} {e : Nat}
    (hb : (k, Target.vpn e) ∈ bindings) (he : e ≤ dom.maxEpoch) :
    Control dom kept bindings ke none (some (k, e)) e where
  ke_bound := h.ke_bound
  kp_bound := by
    rintro _ _ ⟨⟩
  kv_bound := by
    rintro _ _ ⟨⟩
    exact ⟨hb, rfl⟩
  no_session := by
    rintro ⟨⟩
  epoch_le := he

/-- Under a reading that keeps the epoch, the session may end. -/
theorem Control.clear_kv (h : Control dom kept bindings ke kp kv epoch) (hk : kept = true) :
    Control dom kept bindings ke kp none epoch where
  __ := h
  kv_bound := by
    rintro _ _ ⟨⟩
  no_session := fun _ => .inr hk

/-- A pending activation is abandoned and its epoch consumed. -/
theorem Control.consume (h : Control dom kept bindings ke kp kv epoch) (hk : kept = true)
    {e : Nat} (he : e ≤ dom.maxEpoch) : Control dom kept bindings ke none none e where
  ke_bound := h.ke_bound
  kp_bound := by
    rintro _ _ ⟨⟩
  kv_bound := by
    rintro _ _ ⟨⟩
  no_session := fun _ => .inr hk
  epoch_le := he

end Control

/-! ## One event -/

section Events

variable {dom : Domain} {rules : Rules} {s : State}

theorem Inv.retained_pooled (h : Inv dom rules s) {k : String}
    (hk : k ∈ retained s rules) : k ∈ s.pool := by
  unfold retained at hk
  split at hk
  · rename_i hf
    exact (h.stock.order_pool hf k).mp (List.mem_of_mem_take hk)
  · exact (Finset.mem_sort _).mp hk

theorem Inv.pending_le (h : Inv dom rules s) {k : String} {e : Nat}
    (hp : s.kp = some (k, e)) : e ≤ dom.maxEpoch :=
  (h.stock.bound_epochs k e (h.control.kp_bound k e hp).1).2

/-- The inventory after `k` was taken and bound to the unused `t`. -/
theorem Inv.stock_bound (h : Inv dom rules s) {k : String} {t : Target}
    (hk : k ∈ retained s rules) (ht : ∀ j, (j, t) ∉ s.bindings)
    (hv : ∀ v, t = .ekm v → v ∈ dom.versions)
    (hn : ∀ e, t = .vpn e → 1 ≤ e ∧ e ≤ dom.maxEpoch) :
    Stock dom rules.fifoPool (s.pool.erase k) (insert (k, t) s.bindings) s.expired
      (if rules.fifoPool then s.order.filter (· ≠ k) else s.order) := by
  have hp := h.retained_pooled hk
  refine (h.stock.take k).bind (h.stock.pool_ids k hp) (Finset.notMem_erase k s.pool) ?_ ?_
    ht hv hn
  · exact fun he => h.stock.expired_not_pooled k he hp
  · exact fun u hb => h.stock.bound_not_pooled k u hb hp

theorem inv_ingest {k : String} (h : Inv dom rules s)
    (he : (Event.ingest k).Enabled dom rules s) : Inv dom rules (poolAdd s k rules) := by
  obtain ⟨_, _, hk, hp, hc, hx⟩ := he
  have hb : ∀ t, (k, t) ∉ s.bindings := fun t hb => hc (mem_consumed.mpr ⟨t, hb⟩)
  constructor
  · simpa using h.stock.add hk hp hb hx
  · simpa using h.control

theorem inv_expire {k : String} (h : Inv dom rules s)
    (he : (Event.expire k).Enabled dom rules s) : Inv dom rules (expireOne s rules k) := by
  have hp := h.retained_pooled he.2
  have hctl : Control dom (retainedEpoch rules) (poolTake s k rules).bindings
      (poolTake s k rules).ke (poolTake s k rules).kp (poolTake s k rules).kv
      (poolTake s k rules).epoch := by
    simpa using h.control
  unfold expireOne
  split
  · refine ⟨?_, hctl⟩
    have hst := (h.stock.take k).expire (h.stock.pool_ids k hp) (Finset.notMem_erase k s.pool)
      fun t hb => h.stock.bound_not_pooled k t hb hp
    simpa using hst
  · refine ⟨?_, hctl⟩
    simpa using h.stock.take k

theorem inv_allocEkm {k v : String} (h : Inv dom rules s)
    (he : (Event.allocEkm k v).Enabled dom rules s) :
    Inv dom rules ((Event.allocEkm k v).apply rules s) := by
  obtain ⟨_, _, hk, hv, _, hu⟩ := he
  have ht : ∀ j, (j, Target.ekm v) ∉ s.bindings := fun j hb => hu (mem_ekmObjects.mpr ⟨j, hb⟩)
  constructor
  · have := h.stock_bound hk ht (by rintro _ ⟨⟩; exact hv) (by rintro _ ⟨⟩)
    simpa [Event.apply] using this
  · have := (h.control.bind (k, .ekm v)).set_ke (Finset.mem_insert_self ..)
    simpa [Event.apply] using this

theorem inv_allocVpn {k : String} {e : Nat} (h : Inv dom rules s)
    (he : (Event.allocVpn k e).Enabled dom rules s) :
    Inv dom rules (allocVpnOne s rules k e) := by
  obtain ⟨_, hn, _, _, hk, hep⟩ := he
  obtain ⟨hlo, hhi⟩ := mem_allocEpochs hn hep
  have hlt := lt_nextEpoch (s := s)
  have ht : ∀ j, (j, Target.vpn e) ∉ s.bindings := by
    intro j hb
    have := hlt.1 j e hb
    omega
  have hst := h.stock_bound hk ht (by rintro _ ⟨⟩) (by rintro _ ⟨⟩; omega)
  have hct := h.control.bind (k, .vpn e)
  have hb : (k, Target.vpn e) ∈ insert (k, Target.vpn e) s.bindings :=
    Finset.mem_insert_self ..
  unfold allocVpnOne
  dsimp only
  split
  · exact ⟨by simpa using hst, by simpa using hct.set_kv hb hhi⟩
  · exact ⟨by simpa using hst, by simpa using hct.set_kp hb (by omega)⟩

theorem inv_activateVpn (h : Inv dom rules s) :
    Inv dom rules (Event.activateVpn.apply rules s) := by
  unfold Event.apply
  dsimp only
  split
  · rename_i k e hp
    exact ⟨h.stock, h.control.set_kv (h.control.kp_bound k e hp).1 (h.pending_le hp)⟩
  · exact h

theorem inv_abandonPending (h : Inv dom rules s) :
    Inv dom rules (Event.abandonPending.apply rules s) := by
  unfold Event.apply
  dsimp only
  split
  · rename_i k e hp
    split
    · rename_i hc
      exact ⟨h.stock, h.control.consume (by simp [retainedEpoch, hc]) (h.pending_le hp)⟩
    · exact ⟨h.stock, h.control.clear_kp⟩
  · exact h

theorem inv_interrupt (h : Inv dom rules s) (sq se : Option Bool) :
    Inv dom rules (interrupt s rules sq se) := by
  unfold interrupt
  dsimp only
  split
  · exact ⟨h.stock, h.control.clear_kp⟩
  · exact ⟨h.stock, h.control⟩

theorem inv_restore (h : Inv dom rules s) (sq se : Option Bool) :
    Inv dom rules (restore s rules sq se) := by
  unfold restore
  dsimp only
  split
  · split <;> exact ⟨h.stock, h.control⟩
  · exact ⟨h.stock, h.control⟩

theorem inv_ekmDown (h : Inv dom rules s) : Inv dom rules (Event.ekmDown.apply rules s) := by
  have hi := inv_interrupt h none (some false)
  unfold Event.apply
  dsimp only
  split
  · exact ⟨hi.stock, hi.control.clear_ke⟩
  · exact hi

theorem inv_withdrawn (h : Inv dom rules s) : Inv dom rules (withdrawn s rules) := by
  unfold withdrawn
  split <;> exact ⟨h.stock, h.control⟩

theorem inv_recovered (h : Inv dom rules s) : Inv dom rules (recovered s rules) := by
  have hp : Inv dom rules
      (if rules.recoverClearsPending then
        { s with recovery := false, suspended := false, kp := none }
      else { s with recovery := false, suspended := false }) := by
    split
    · exact ⟨h.stock, h.control.clear_kp⟩
    · exact ⟨h.stock, h.control⟩
  unfold recovered
  dsimp only
  split
  · rename_i hc
    exact ⟨hp.stock, hp.control.clear_kv (by simp [retainedEpoch, hc])⟩
  · exact hp

/-- **Every event preserves the invariant**, under every reading. -/
theorem inv_apply {ev : Event} (h : Inv dom rules s) (he : ev.Enabled dom rules s) :
    Inv dom rules (ev.apply rules s) := by
  cases ev with
  | ingest k => exact inv_ingest h he
  | expire k => exact inv_expire h he
  | allocEkm k v => exact inv_allocEkm h he
  | allocVpn k e => exact inv_allocVpn h he
  | activateVpn => exact inv_activateVpn h
  | abandonPending => exact inv_abandonPending h
  | sessionEnd =>
    exact ⟨h.stock, h.control.clear_kv (by simp [retainedEpoch, he.1])⟩
  | rejectStale e => exact h
  | srcDown => exact inv_interrupt h _ _
  | srcUp => exact inv_restore h _ _
  | ekmDown => exact inv_ekmDown h
  | ekmUp => exact inv_restore h _ _
  | authorityWithdraw => exact inv_withdrawn h
  | authorityGrant => exact ⟨h.stock, h.control⟩
  | reconcile => exact ⟨h.stock, h.control⟩
  | recover => exact inv_recovered h

theorem inv_fires {l : String} {t : State} (h : Inv dom rules s)
    (hf : Fires dom rules s l t) : Inv dom rules t := by
  obtain ⟨ev, he, _, rfl⟩ := fires_iff.mp hf
  exact inv_apply h he

/-- **The invariant holds of every reachable state.** -/
theorem inv_reached (h : Reached dom rules s) : Inv dom rules s :=
  h.invariant (inv_initial dom rules) fun _ _ _ hi hf => inv_fires hi hf

end Events

end QkdEkm.Model
