import Mathlib.Data.Set.Finite.Lattice
import Mathlib.Data.Set.Finite.List
import QkdEkm.Model.Safety

/-!
# Finite — the reachable closure is finite, and the enumeration ends

The invariant confines every field to the declared domain, so there are
finitely many reachable states under every reading, and the search of
the model returns.
-/

namespace QkdEkm.Model

open QkdEkm.Lib

/-- The targets of the declared domain. -/
def targets (dom : Domain) : Finset Target :=
  dom.versions.toFinset.image .ekm ∪ (Finset.range (dom.maxEpoch + 1)).image .vpn

/-- The bindings of the declared domain. -/
def allBindings (dom : Domain) : Finset Binding :=
  dom.ids.toFinset ×ˢ targets dom

/-- `some` identifier and epoch of the declared domain, or `none`. -/
def sessions (dom : Domain) : Finset (Option (String × Nat)) :=
  (dom.ids.toFinset ×ˢ Finset.range (dom.maxEpoch + 1)).insertNone

variable {dom : Domain} {rules : Rules} {s : State}

theorem Inv.bindings_subset (h : Inv dom rules s) : s.bindings ⊆ allBindings dom := by
  rintro ⟨k, t⟩ hb
  have hk := h.stock.bound_ids k t hb
  rw [allBindings, Finset.mem_product]
  refine ⟨List.mem_toFinset.mpr hk, ?_⟩
  rw [targets, Finset.mem_union, Finset.mem_image, Finset.mem_image]
  cases t with
  | ekm v => exact .inl ⟨v, List.mem_toFinset.mpr (h.stock.bound_versions k v hb), rfl⟩
  | vpn e =>
    have := (h.stock.bound_epochs k e hb).2
    exact .inr ⟨e, Finset.mem_range.mpr (by omega), rfl⟩

theorem Inv.session_mem (h : Inv dom rules s) {k : String} {e : Nat}
    (hb : (k, Target.vpn e) ∈ s.bindings) : some (k, e) ∈ sessions dom := by
  have hk := h.stock.bound_ids k _ hb
  have he := (h.stock.bound_epochs k e hb).2
  rw [sessions, Finset.some_mem_insertNone, Finset.mem_product]
  exact ⟨List.mem_toFinset.mpr hk, Finset.mem_range.mpr (by omega)⟩

theorem Inv.kp_mem (h : Inv dom rules s) : s.kp ∈ sessions dom := by
  rcases hp : s.kp with _ | ⟨k, e⟩
  · exact Finset.none_mem_insertNone
  · exact h.session_mem (h.control.kp_bound k e hp).1

theorem Inv.kv_mem (h : Inv dom rules s) : s.kv ∈ sessions dom := by
  rcases hp : s.kv with _ | ⟨k, e⟩
  · exact Finset.none_mem_insertNone
  · exact h.session_mem (h.control.kv_bound k e hp).1

theorem Inv.ke_mem (h : Inv dom rules s) : s.ke ∈ dom.versions.toFinset.insertNone := by
  rcases hp : s.ke with _ | v
  · exact Finset.none_mem_insertNone
  · obtain ⟨k, hb⟩ := h.control.ke_bound v hp
    exact Finset.some_mem_insertNone.mpr
      (List.mem_toFinset.mpr (h.stock.bound_versions k v hb))

theorem Inv.order_mem (h : Inv dom rules s) :
    s.order ∈ {l : List String | l.length ≤ dom.ids.length ∧ ∀ k ∈ l, k ∈ dom.ids} := by
  have hsub : ∀ k ∈ s.order, k ∈ dom.ids := by
    intro k hk
    cases hf : rules.fifoPool with
    | false => simp [h.stock.no_order hf] at hk
    | true => exact h.stock.pool_ids k ((h.stock.order_pool hf k).mp hk)
  exact ⟨(h.stock.order_nodup.subperm hsub).length_le, hsub⟩

/-- The lists of declared identifiers no longer than their number. -/
theorem finite_orders (dom : Domain) :
    {l : List String | l.length ≤ dom.ids.length ∧ ∀ k ∈ l, k ∈ dom.ids}.Finite := by
  have hfin := List.finite_length_le {k // k ∈ dom.ids} dom.ids.length
  refine (hfin.image (List.map Subtype.val)).subset ?_
  rintro l ⟨hlen, hsub⟩
  exact ⟨l.pmap Subtype.mk hsub, by simpa using hlen, by simp [List.map_pmap]⟩

/-- A state from its fields, grouped as a product. -/
def ofFields (x : (Bool × Bool × Bool × Bool × Bool × Bool) × Finset String ×
    Finset Binding × Option String × Option (String × Nat) × Option (String × Nat) ×
    Nat × Finset String × List String) : State :=
  match x with
  | ((sq, se, authority, recovery, suspended, detected), pool, bindings, ke, kp, kv, epoch,
      expired, order) =>
    { sq, se, pool, bindings, ke, kp, kv, epoch, authority, recovery, expired, suspended,
      detected, order }

/-- **The states that satisfy the invariant are finitely many.** -/
theorem finite_inv (dom : Domain) (rules : Rules) : {s | Inv dom rules s}.Finite := by
  have hfin := (Set.finite_univ (α := Bool × Bool × Bool × Bool × Bool × Bool)).prod
    ((dom.ids.toFinset.powerset.finite_toSet).prod
      (((allBindings dom).powerset.finite_toSet).prod
        ((dom.versions.toFinset.insertNone.finite_toSet).prod
          (((sessions dom).finite_toSet).prod
            (((sessions dom).finite_toSet).prod
              ((Set.finite_Iic dom.maxEpoch).prod
                ((dom.ids.toFinset.powerset.finite_toSet).prod (finite_orders dom))))))))
  refine (hfin.image ofFields).subset ?_
  intro s h
  have hpool : s.pool ∈ dom.ids.toFinset.powerset :=
    Finset.mem_powerset.mpr fun k hk => List.mem_toFinset.mpr (h.stock.pool_ids k hk)
  have hexp : s.expired ∈ dom.ids.toFinset.powerset :=
    Finset.mem_powerset.mpr fun k hk => List.mem_toFinset.mpr (h.stock.expired_ids k hk)
  have hb := Finset.mem_powerset.mpr h.bindings_subset
  exact ⟨((s.sq, s.se, s.authority, s.recovery, s.suspended, s.detected), s.pool, s.bindings,
      s.ke, s.kp, s.kv, s.epoch, s.expired, s.order),
    ⟨Set.mem_univ _, hpool, hb, h.ke_mem, h.kp_mem, h.kv_mem, h.control.epoch_le, hexp,
      h.order_mem⟩, rfl⟩

theorem finite_reached (dom : Domain) (rules : Rules) : {s | Reached dom rules s}.Finite :=
  (finite_inv dom rules).subset fun _ h => inv_reached h

/-- The enumeration returns, whatever the bound on the number of states. -/
theorem run_returns (dom : Domain) (rules : Rules) (m : Option Int) :
    ∃ r, RunReturns dom rules m r :=
  explore_returns (lifecycle dom rules) m (finite_reached dom rules)

end QkdEkm.Model
