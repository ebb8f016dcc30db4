import QkdEkm.Model.Finite

/-!
# Checked — no check ever fails

`invariants` and `guards` are the source's own checks; here they are
evaluated at the states and transitions the invariant of `Safety`
describes. The guards read the event back off the label text, so the
first section parses labels.
-/

namespace QkdEkm.Model

open QkdEkm.Lib

/-! ## The state properties -/

section Properties

variable {dom : Domain} {rules : Rules} {s : State}

theorem Inv.ids_nodup (h : Inv dom rules s) : (s.bindings.val.map Prod.fst).Nodup := by
  refine s.bindings.nodup.map_on ?_
  rintro ⟨k, t⟩ hb ⟨k', t'⟩ hb' heq
  cases heq
  rw [h.stock.id_unique k t t' hb hb']

theorem Inv.targets_nodup (h : Inv dom rules s) : (s.bindings.val.map Prod.snd).Nodup := by
  refine s.bindings.nodup.map_on ?_
  rintro ⟨k, t⟩ hb ⟨k', t'⟩ hb' heq
  cases heq
  rw [h.stock.target_unique k k' t hb hb']

theorem Inv.order_perm (h : Inv dom rules s) (ho : s.order ≠ []) :
    (s.order : Multiset String) = s.pool.val := by
  refine (Multiset.Nodup.ext (Multiset.coe_nodup.mpr h.stock.order_nodup)
    s.pool.nodup).mpr fun k => ?_
  cases hf : rules.fifoPool with
  | false => exact absurd (h.stock.no_order hf) ho
  | true => exact h.stock.order_pool hf k

theorem mem_bound_ids {k : String} :
    k ∈ (s.bindings.val.map Prod.fst).toFinset ↔ ∃ t, (k, t) ∈ s.bindings := by
  simp

theorem Inv.pool_free (h : Inv dom rules s) :
    ¬ (s.pool ∩ (s.bindings.val.map Prod.fst).toFinset).Nonempty := by
  rintro ⟨k, hk⟩
  obtain ⟨hp, hb⟩ := Finset.mem_inter.mp hk
  obtain ⟨t, hb⟩ := mem_bound_ids.mp hb
  exact h.stock.bound_not_pooled k t hb hp

theorem Inv.expired_free (h : Inv dom rules s) :
    ¬ (s.expired ∩ (s.pool ∪ (s.bindings.val.map Prod.fst).toFinset)).Nonempty := by
  rintro ⟨k, hk⟩
  obtain ⟨hx, hk⟩ := Finset.mem_inter.mp hk
  rcases Finset.mem_union.mp hk with hp | hb
  · exact h.stock.expired_not_pooled k hx hp
  · obtain ⟨t, hb⟩ := mem_bound_ids.mp hb
    exact h.stock.expired_not_bound k hx t hb

theorem Inv.active_bound (h : Inv dom rules s) :
    (s.ke.any fun v => decide (¬ ∃ b ∈ s.bindings, b.2 = Target.ekm v)) = false := by
  cases hv : s.ke with
  | none => rfl
  | some v =>
    obtain ⟨k, hb⟩ := h.control.ke_bound v hv
    exact decide_eq_false fun hn => hn ⟨(k, .ekm v), hb, rfl⟩

theorem Inv.good_pending (h : Inv dom rules s) : badPending dom s = false := by
  unfold badPending
  split
  · rename_i k e hp
    obtain ⟨hb, he⟩ := h.control.kp_bound k e hp
    simp [hb, he, h.pending_le hp]
  · rfl

theorem Inv.good_active (h : Inv dom rules s) :
    badActive s (retainedEpoch rules) = false := by
  unfold badActive
  split
  · rename_i k e hv
    obtain ⟨hb, he⟩ := h.control.kv_bound k e hv
    rw [decide_eq_false (not_not_intro hb), decide_eq_false (not_not_intro he), Bool.or_self]
  · rename_i hv
    rcases h.control.no_session hv with h0 | hk
    · simp [h0]
    · simp [hk]

/-- **I1-I9 hold** of every state that satisfies the invariant. -/
theorem Inv.invariants_nil (h : Inv dom rules s) :
    invariants dom (retainedEpoch rules) s = [] := by
  simp only [invariants, List.append_eq_nil_iff, failing_eq_nil, Finset.val_toFinset]
  refine ⟨⟨⟨⟨⟨⟨⟨⟨?_, ?_⟩, ?_⟩, ?_⟩, h.active_bound⟩, h.good_pending⟩, h.good_active⟩, ?_⟩, ?_⟩
  · by_cases ho : s.order = []
    · simp [ho]
    · simp [h.order_perm ho]
  · simp [Multiset.toFinset_card_of_nodup h.ids_nodup]
  · simp only [h.pool_free, h.expired_free, decide_false, Bool.or_self]
  · simp [Multiset.toFinset_card_of_nodup h.targets_nodup]
  · cases mode s <;> simp [modes]
  · simp [consequences, derived, QkdEkm.Ekm.derive]

end Properties

/-! ## The labels -/

/-- What stands before the first colon of an event's label. -/
def Event.family : Event → String
  | .ingest _ => "ingest"
  | .expire _ => "expire"
  | .allocEkm _ _ => "alloc_ekm"
  | .allocVpn _ _ => "alloc_vpn"
  | .activateVpn => "activate_vpn"
  | .abandonPending => "abandon_pending"
  | .sessionEnd => "session_end"
  | .rejectStale _ => "reject_stale"
  | .srcDown => "src_down"
  | .srcUp => "src_up"
  | .ekmDown => "ekm_down"
  | .ekmUp => "ekm_up"
  | .authorityWithdraw => "authority_withdraw"
  | .authorityGrant => "authority_grant"
  | .reconcile => "reconcile"
  | .recover => "recover"

/-- What stands after it. -/
def Event.arg (rules : Rules) : Event → String
  | .ingest k => k
  | .expire k => k
  | .allocEkm k v => k ++ ":" ++ v
  | .allocVpn k e => k ++ (if rules.allocVpnAnyFutureEpoch then ":" ++ toString e else "")
  | .rejectStale (some e) => toString e
  | _ => ""

theorem Event.family_no_colon (ev : Event) : ':' ∉ ev.family.toList := by
  cases ev <;> simp only [Event.family] <;> decide

theorem Event.label_eq (rules : Rules) (ev : Event) :
    ev.label rules = ev.family ∨ ev.label rules = ev.family ++ ":" ++ ev.arg rules := by
  cases ev with
  | ingest k => exact .inr rfl
  | expire k => exact .inr rfl
  | allocEkm k v => exact .inr (by simp [Event.label, Event.family, Event.arg, String.append_assoc])
  | allocVpn k e => exact .inr (by simp [Event.label, Event.family, Event.arg, String.append_assoc])
  | rejectStale e =>
    cases e with
    | none => exact .inl rfl
    | some e => exact .inr rfl
  | _ => exact .inl rfl

theorem partition_label (rules : Rules) (ev : Event) :
    (partition (ev.label rules) ':').1 = ev.family := by
  rcases ev.label_eq rules with h | h
  · rw [h, partition_no_sep ev.family_no_colon]
  · rw [h, partition_append (by decide) ev.family_no_colon]

/-- The identifier of an allocation is read back off its label. -/
theorem identifier_label {rules : Rules} {ev : Event} {k : String} (hk : ':' ∉ k.toList)
    (hev : (∃ v, ev = .allocEkm k v) ∨ ∃ e, ev = .allocVpn k e) :
    (partition (partition (ev.label rules) ':').2 ':').1 = k := by
  have harg : (partition (ev.label rules) ':').2 = ev.arg rules := by
    have hl : ev.label rules = ev.family ++ ":" ++ ev.arg rules := by
      rcases hev with ⟨v, rfl⟩ | ⟨e, rfl⟩ <;>
        simp [Event.label, Event.family, Event.arg, String.append_assoc]
    rw [hl, partition_append (by decide) ev.family_no_colon]
  rw [harg]
  rcases hev with ⟨v, rfl⟩ | ⟨e, rfl⟩
  · rw [Event.arg, partition_append (by decide) hk]
  · rw [Event.arg]
    split
    · rw [← String.append_assoc, partition_append (by decide) hk]
    · rw [String.append_empty, partition_no_sep hk]

/-! ## The transition guards -/

section Guards

variable {dom : Domain} {rules : Rules} {s t : State} {l : String}

/-- **G1-G4 hold** of every event out of a state that satisfies the
invariant. -/
theorem Inv.guards_nil (h : Inv dom rules s) (hcolon : ∀ k ∈ dom.ids, ':' ∉ k.toList)
    {ev : Event} (he : ev.Enabled dom rules s) :
    guards (ev.label rules) s (ev.apply rules s) = [] := by
  have halloc : ∀ {k}, k ∈ retained s rules → s.se = true →
      ((∃ v, ev = .allocEkm k v) ∨ ∃ e, ev = .allocVpn k e) →
      (!s.se || decide (s.pool = ∅) ||
        decide ((partition (partition (ev.label rules) ':').2 ':').1 ∉ s.pool)) = false := by
    intro k hk hse hev
    have hp := h.retained_pooled hk
    rw [identifier_label (hcolon k (h.stock.pool_ids k hp)) hev]
    simp [hse, hp, Finset.ne_empty_of_mem hp]
  simp only [guards, partition_label, List.append_eq_nil_iff, failing_eq_nil]
  cases ev with
  | ingest k => simp [Event.family, he.1]
  | allocEkm k v =>
    refine ⟨⟨⟨by simp [Event.family], ?_⟩, by simp [Event.family]⟩, by simp [Event.family]⟩
    rw [halloc he.2.2.1 he.1 (.inl ⟨v, rfl⟩), Bool.and_false]
  | allocVpn k e =>
    refine ⟨⟨⟨by simp [Event.family], ?_⟩, by simp [Event.family]⟩, by simp [Event.family]⟩
    rw [halloc he.2.2.2.2.1 he.1 (.inr ⟨e, rfl⟩), Bool.and_false]
  | rejectStale e => simp [Event.family, Event.apply]
  | recover => simp [Event.family, he.1, he.2.1, he.2.2.1]
  | _ => simp [Event.family]

theorem guards_fires (h : Inv dom rules s) (hcolon : ∀ k ∈ dom.ids, ':' ∉ k.toList)
    (hf : Fires dom rules s l t) : guards l s t = [] := by
  obtain ⟨ev, he, rfl, rfl⟩ := fires_iff.mp hf
  exact h.guards_nil hcolon he

end Guards

/-! ## Every reading is safe -/

/-- **Safety of the lifecycle model under every reading**: every
reachable state passes I1-I9, every transition out of one passes G1-G4,
and the enumeration, with or without a bound, reports no violation. -/
theorem lifecycle_safe (dom : Domain) (hcolon : ∀ k ∈ dom.ids, ':' ∉ k.toList)
    (rules : Rules) :
    (∀ s, Reached dom rules s → invariants dom (retainedEpoch rules) s = []) ∧
    (∀ s label s2, Reached dom rules s → (label, s2) ∈ enabled dom s rules →
      guards label s s2 = []) ∧
    (∀ maxStates, ∃ r, RunReturns dom rules maxStates r ∧ r.violations = []) := by
  have hinv : ∀ s, Reached dom rules s → invariants dom (retainedEpoch rules) s = [] :=
    fun s hs => (inv_reached hs).invariants_nil
  have hguards : ∀ s label s2, Reached dom rules s → (label, s2) ∈ enabled dom s rules →
      guards label s s2 = [] := fun s label s2 hs hf => guards_fires (inv_reached hs) hcolon hf
  refine ⟨hinv, hguards, fun m => ?_⟩
  obtain ⟨r, hr⟩ := run_returns dom rules m
  have hret : (lifecycle dom rules).Returns m r := hr
  exact ⟨r, hr, hret.sound.1.clean hinv hguards⟩

/-- The declared domain under the calibrated reading is an instance. -/
theorem lifecycle_safe_declared :
    ∃ r, RunReturns declared defaultRules none r ∧ r.violations = [] :=
  (lifecycle_safe declared (by decide) defaultRules).2.2 none

end QkdEkm.Model
