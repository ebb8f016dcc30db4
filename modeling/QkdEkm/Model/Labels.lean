import QkdEkm.Model.Checked
import QkdEkm.Model.Exact

/-!
# Labels — what a label says about its event

`transitions.csv` names an event by its label alone. Up to the first
colon a label is the name of its kind; what follows are the arguments,
themselves joined by colons. Two enabled events of one label and one
effect are the same whatever the identifiers are called; for the label
to determine the effect the identifiers must be free of colons.
-/

namespace QkdEkm.Model

open QkdEkm.Lib

theorem family_of_label {rules : Rules} {ev ev' : Event}
    (h : ev.label rules = ev'.label rules) : ev.family = ev'.family := by
  rw [← partition_label rules ev, h, partition_label]

/-- Texts without a colon are cut at the first one. -/
theorem append_colon_inj {a a' b b' : String} (ha : ':' ∉ a.toList) (ha' : ':' ∉ a'.toList)
    (h : a ++ ":" ++ b = a' ++ ":" ++ b') : a = a' ∧ b = b' := by
  have hcut : partition (a ++ ":" ++ b) ':' = (a, b) := partition_append (by decide) ha
  rw [h, partition_append (by decide) ha'] at hcut
  exact Prod.mk.inj hcut.symm

section

variable {dom : Domain} {rules : Rules} {s : State} {ev ev' : Event}

/-- A replay is rejected with its epoch or without, as the reading says. -/
theorem rejectStale_inj {e e' : Option Nat} (he : (Event.rejectStale e).Enabled dom rules s)
    (he' : (Event.rejectStale e').Enabled dom rules s)
    (h : (Event.rejectStale e).label rules = (Event.rejectStale e').label rules) : e = e' := by
  cases e with
  | none =>
    cases e' with
    | none => rfl
    | some e' =>
      have hper : rules.rejectStalePerEpoch = false := he.2
      simp [he'.2.1] at hper
  | some e =>
    cases e' with
    | none =>
      have hper : rules.rejectStalePerEpoch = false := he'.2
      simp [he.2.1] at hper
    | some e' =>
      have hrepr : toString e = toString e' := by simpa [Event.label] using h
      rw [toString_nat_inj.mp hrepr]

/-- A new binding is read off the bindings after it. -/
theorem bound_inj {k k' : String} {t t' : Target} (hi : Inv dom rules s)
    (hk : k ∈ retained s rules)
    (h : insert (k, t) s.bindings = insert (k', t') s.bindings) : k = k' ∧ t = t' := by
  have hnew : (k, t) ∉ s.bindings := fun hb =>
    hi.stock.bound_not_pooled k t hb (hi.retained_pooled hk)
  have hm : (k, t) ∈ insert (k', t') s.bindings := h ▸ Finset.mem_insert_self ..
  rcases Finset.mem_insert.mp hm with heq | hb
  · exact Prod.mk.inj heq
  · exact absurd hb hnew

/-- **A labelled transition is made by one event.** -/
theorem event_unique (hi : Inv dom rules s) (he : ev.Enabled dom rules s)
    (he' : ev'.Enabled dom rules s) (hl : ev.label rules = ev'.label rules)
    (ha : ev.apply rules s = ev'.apply rules s) : ev = ev' := by
  have hh := family_of_label hl
  cases ev with
  | ingest k =>
    cases ev' <;> simp [Event.family] at hh
    simpa [Event.label] using hl
  | expire k =>
    cases ev' <;> simp [Event.family] at hh
    simpa [Event.label] using hl
  | allocEkm k v =>
    cases ev' <;> simp [Event.family] at hh
    obtain ⟨rfl, ht⟩ := bound_inj hi he.2.2.1 (congrArg State.bindings ha)
    rw [Target.ekm.inj ht]
  | allocVpn k e =>
    cases ev' <;> simp [Event.family] at hh
    rename_i k' e'
    have hb : insert (k, Target.vpn e) s.bindings = insert (k', .vpn e') s.bindings := by
      have := congrArg State.bindings ha
      simp only [Event.apply, allocVpnOne] at this
      split at this <;> exact this
    obtain ⟨rfl, ht⟩ := bound_inj hi he.2.2.2.2.1 hb
    rw [Target.vpn.inj ht]
  | rejectStale e =>
    cases ev' <;> simp [Event.family] at hh
    rw [rejectStale_inj he he' hl]
  | _ => cases ev' <;> simp [Event.family] at hh ⊢

/-- **For identifiers free of colons a label names one event.** -/
theorem event_of_label (hids : ∀ k ∈ dom.ids, ':' ∉ k.toList) (hi : Inv dom rules s)
    (he : ev.Enabled dom rules s) (he' : ev'.Enabled dom rules s)
    (hl : ev.label rules = ev'.label rules) : ev = ev' := by
  have hh := family_of_label hl
  have hfree : ∀ {k}, k ∈ retained s rules → ':' ∉ k.toList := fun hk =>
    hids _ (hi.stock.pool_ids _ (hi.retained_pooled hk))
  cases ev with
  | ingest k =>
    cases ev' <;> simp [Event.family] at hh
    simpa [Event.label] using hl
  | expire k =>
    cases ev' <;> simp [Event.family] at hh
    simpa [Event.label] using hl
  | allocEkm k v =>
    cases ev' <;> simp [Event.family] at hh
    rename_i k' v'
    have hargs : k ++ ":" ++ v = k' ++ ":" ++ v' := by
      simpa [Event.label, String.append_assoc] using hl
    obtain ⟨rfl, rfl⟩ := append_colon_inj (hfree he.2.2.1) (hfree he'.2.2.1) hargs
    rfl
  | allocVpn k e =>
    cases ev' <;> simp [Event.family] at hh
    rename_i k' e'
    obtain ⟨_, _, _, _, hk, hep⟩ := he
    obtain ⟨_, _, _, _, hk', hep'⟩ := he'
    by_cases hany : rules.allocVpnAnyFutureEpoch = true
    · have hargs : k ++ ":" ++ toString e = k' ++ ":" ++ toString e' := by
        simpa [Event.label, hany, String.append_assoc] using hl
      obtain ⟨rfl, hrepr⟩ := append_colon_inj (hfree hk) (hfree hk') hargs
      rw [toString_nat_inj.mp hrepr]
    · -- only the next epoch can be bound
      have hkk : k = k' := by simpa [Event.label, hany] using hl
      have hen : e = nextEpoch s := by simpa [allocEpochs, hany] using hep
      have hen' : e' = nextEpoch s := by simpa [allocEpochs, hany] using hep'
      rw [hkk, hen, hen']
  | rejectStale e =>
    cases ev' <;> simp [Event.family] at hh
    rw [rejectStale_inj he he' hl]
  | _ => cases ev' <;> simp [Event.family] at hh ⊢

theorem fires_unique {l : String} {t t' : State} (hids : ∀ k ∈ dom.ids, ':' ∉ k.toList)
    (hi : Inv dom rules s) (h : Fires dom rules s l t) (h' : Fires dom rules s l t') :
    t = t' := by
  obtain ⟨ev, he, rfl, rfl⟩ := fires_iff.mp h
  obtain ⟨ev', he', hl, rfl⟩ := fires_iff.mp h'
  rw [event_of_label hids hi he he' hl]

end

/-- **The labels of a run determine it**, for identifiers free of colons
and every reading: a list of labels leads from the initial state to at
most one state, and of the transitions that the enumeration lists, under
any bound on the number of states, no two agree on source and label. -/
theorem labels_replay (dom : Domain) (rules : Rules) (hids : ∀ k ∈ dom.ids, ':' ∉ k.toList) :
    (∀ ls s t, Run (Fires dom rules) initial ls s → Run (Fires dom rules) initial ls t →
      s = t) ∧
    ∀ m r, RunReturns dom rules m r → ∀ src label dst dst',
      edge src label dst ∈ r.transitions → edge src label dst' ∈ r.transitions →
        dst = dst' := by
  constructor
  · intro ls s t hs ht
    refine Run.unique (inv_initial dom rules) (fun _ _ _ hi hf => ?_) (fun _ _ _ _ hi => ?_) hs ht
    · exact inv_fires hi hf
    · exact fires_unique hids hi
  · intro m r hr src label dst dst' h h'
    have hret : (lifecycle dom rules).Returns m r := hr
    have hsound := soundResult hret.sound.1
    obtain ⟨s, l, t, hs, ht, hf, heq⟩ := hsound.transitions _ h
    obtain ⟨s', l', t', hs', ht', hf', heq'⟩ := hsound.transitions _ h'
    simp only [edge, toLex_inj, Prod.mk.injEq] at heq heq'
    obtain ⟨hsrc, rfl, rfl⟩ := heq
    obtain ⟨hsrc', rfl, rfl⟩ := heq'
    have hss : s = s' := hsound.index.injOn hs hs' (hsrc.symm.trans hsrc')
    subst hss
    obtain ⟨n, hn⟩ := Option.isSome_iff_exists.mp (AList.lookup_isSome.mpr hs)
    have hinv := inv_reached (hsound.states s n hn).reachable
    rw [fires_unique hids hinv hf hf']

theorem labels_replay_declared : ∃ s, Run (Fires declared defaultRules) initial ["ingest:k1"] s ∧
    ∀ t, Run (Fires declared defaultRules) initial ["ingest:k1"] t → t = s := by
  have he : (Event.ingest "k1").Enabled declared defaultRules initial :=
    ⟨rfl, .inl rfl, by decide, by decide, by decide, by decide⟩
  have hrun : Run (Fires declared defaultRules) initial ["ingest:k1"] _ := Run.nil.snoc he.fires
  exact ⟨_, hrun, fun t ht => (labels_replay declared defaultRules (by decide)).1 _ t _ ht hrun⟩

end QkdEkm.Model
