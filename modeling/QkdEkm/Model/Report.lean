import Mathlib.Data.Prod.Lex
import QkdEkm.Lib.StableSort
import QkdEkm.Model.Census
import QkdEkm.Model.Knobs

/-!
# Report — the summary that the enumeration writes

`summary` is what `report.json` holds. Its counts of states by lifecycle
mode are summed over the codes like the transitions are: which mode a
state is in depends on its flags, on whether its pool is empty and on
whether a version or an epoch is active.
-/

namespace QkdEkm.Model

open QkdEkm.Lib
open QkdEkm.Ekm (Mode derive deriveMode)

/-! ## The report -/

/-- The name of a mode. -/
def modeName : Mode → String
  | .ready => "READY"
  | .buffered => "BUFFERED"
  | .bindingHoldover => "BINDING_HOLDOVER"
  | .exhausted => "EXHAUSTED"
  | .suspended => "SUSPENDED"
  | .recovery => "RECOVERY"

structure Report where
  states : Nat
  transitions : Nat
  maxDepth : Nat
  invariants : List Check
  guards : List Check
  violations : List (Violation String Check)
  statesByMode : List (String × Nat)
  rules : List (String × Bool)

/-- How many of the states are in each mode. -/
def byMode (states : List State) : Dict String Nat :=
  Dict.tally (states.map fun s => modeName (mode s))

/-- The report of a result. -/
def summary (result : Found State String Check) (rules : Rules) : Report where
  states := result.states.entries.length
  transitions := result.transitions.length
  maxDepth := result.maxDepth
  invariants := [.i1, .i2, .i3, .i4, .i5, .i6, .i7, .i8, .i9]
  guards := [.g1, .g2, .g3, .g4]
  violations := result.violations
  statesByMode := sortBy toLex (byMode (result.states.items.map Prod.fst)).items
  rules := slots.map fun f => (f.name, rules.get f)

/-! ## The closed form -/

/-- Of the sixteen flags those in mode `m`, over an empty pool or another
and an active binding or none. -/
def flagsIn (m : Mode) (empty held : Bool) : Nat :=
  match m with
  | .recovery => 8
  | .ready => 2
  | .buffered => if empty then 0 else 2
  | .suspended => if empty then 3 else 2
  | .bindingHoldover => if held then if empty then 3 else 2 else 0
  | .exhausted => if held then 0 else if empty then 3 else 2

/-- The same over all the pools drawn from `left` identifiers. -/
def poolsIn (m : Mode) (left : Nat) (held : Bool) : Nat :=
  flagsIn m true held + (2 ^ left - 1) * flagsIn m false held

/-- The same over the sessions of `nv` bound epochs, beside `ne` versions:
the greatest epoch is active, or it is pending and another may be. -/
def sessionsIn (m : Mode) (ne nv left : Nat) : Nat :=
  if nv = 0 then poolsIn m left (0 < ne)
  else poolsIn m left true + poolsIn m left (0 < ne || 1 < nv)

/-- The states in mode `m`. -/
def modeCount (n V E : Nat) (m : Mode) : Nat :=
  ∑ p ∈ (Finset.range (V + 1) ×ˢ Finset.range (E + 1)).filter (fun p => p.1 + p.2 ≤ n),
    versionVariants V p.1 * n.descFactorial (p.1 + p.2) *
      (E.choose p.2 * sessionsIn m p.1 p.2 (n - p.1 - p.2))

/-! ## The modes of the codes -/

/-- The mode of a state, from its bindings and choices. -/
def modeOf (bound : Finset Binding) (pool : Finset String) (pending : Bool)
    (flags : Bool × Bool × Bool × Bool) : Mode :=
  let (sq, se, authority, recovery) := flags
  deriveMode sq se pool.card
    (decide (0 < (versions bound).card) || decide ((if pending then 1 else 0) < (epochs bound).card))
    authority recovery false

section

variable {dom : Domain} {s : State}

theorem Shape.mode_eq (h : Shape dom s) :
    mode s = modeOf s.bindings s.pool s.kp.isSome (s.sq, s.se, s.authority, s.recovery) := by
  have hke : s.ke.isSome = decide (0 < (versions s.bindings).card) := by
    rw [Bool.eq_iff_iff, h.version.isSome_iff, decide_eq_true_iff]
  have hkv : s.kv.isSome = decide ((if s.kp.isSome then 1 else 0) < (epochs s.bindings).card) := by
    rw [Bool.eq_iff_iff, h.sessions.active_iff, decide_eq_true_iff]
  have hd : s.detected = false := h.detected
  have hs : s.suspended = false := h.suspended
  simp only [mode, derived, derive, modeOf, hke, hkv, hd, hs, Bool.or_false]

/-! ## Counting them -/

variable (m : Mode)

/-- The mode of a choice, for a pool that is empty or not and an active
binding or none. -/
theorem sum_flagsIn (bound : Finset Binding) (pool : Finset String) (pending : Bool) :
    ∑ flags, (if modeOf bound pool pending flags = m then 1 else 0) =
      flagsIn m (decide (pool = ∅)) (0 < (versions bound).card ||
        decide ((if pending then 1 else 0) < (epochs bound).card)) := by
  have hpool : decide (0 < pool.card) = !decide (pool = ∅) := by
    rw [Bool.eq_iff_iff]
    simp [Finset.card_pos, Finset.nonempty_iff_ne_empty]
  simp only [modeOf, deriveMode, hpool, Fintype.sum_prod_type, Fintype.sum_bool]
  generalize decide (pool = ∅) = empty
  generalize (decide (0 < (versions bound).card) ||
    decide ((if pending then 1 else 0) < (epochs bound).card)) = held
  cases m <;> revert empty held <;> decide

/-- Of the pools one is empty. -/
theorem sum_poolsIn (A : Finset String) (held : Bool) :
    ∑ pool ∈ A.powerset, flagsIn m (decide (pool = ∅)) held = poolsIn m A.card held := by
  have hempty : ∅ ∈ A.powerset := Finset.empty_mem_powerset A
  have hrest : ∀ pool ∈ A.powerset.erase ∅,
      flagsIn m (decide (pool = ∅)) held = flagsIn m false held := by
    intro pool hp
    rw [decide_eq_false (Finset.ne_of_mem_erase hp)]
  rw [← Finset.add_sum_erase _ _ hempty, Finset.sum_congr rfl hrest, Finset.sum_const,
    Finset.card_erase_of_mem hempty, Finset.card_powerset, nsmul_eq_mul, Nat.cast_id]
  rfl

theorem sum_choice_modes (hids : dom.ids.Nodup) {S : Finset String} {T : Finset Nat}
    {bound : Finset Binding} (hm : bound ∈ covering dom.ids.toFinset (targetsOf S T)) :
    ∑ x ∈ choices dom bound, (if modeOf bound x.1 x.2.2.1 x.2.2.2 = m then 1 else 0) =
      (if S.card = 0 then 1 else S.card) *
        sessionsIn m S.card T.card (dom.ids.length - S.card - T.card) := by
  obtain ⟨hv, he⟩ := covering_objects hm
  have hleft := (card_left hids (covering_subset (Finset.Subset.refl _) hm)).2
  rw [card_covering_bound hm, ← Nat.sub_sub] at hleft
  rw [sum_choices bound fun pool pending flags =>
    if modeOf bound pool pending flags = m then 1 else 0]
  simp only [sum_flagsIn, sum_poolsIn, hv, he, hleft]
  refine congrArg _ ?_
  rw [pendings, he, sessionsIn]
  split
  · rename_i hT
    subst hT
    simp
  · rename_i hT
    have hpos : 0 < T.card := Finset.card_pos.mpr (Finset.nonempty_iff_ne_empty.mpr hT)
    have hne : T.card ≠ 0 := Nat.ne_of_gt hpos
    simp [hpos, hne]
    omega

/-- **The codes in one mode.** -/
theorem sum_modes (hids : dom.ids.Nodup) (hver : dom.versions.Nodup) :
    ∑ c ∈ codes dom, (if modeOf c.1 c.2.1 c.2.2.2.1 c.2.2.2.2 = m then 1 else 0) =
      modeCount dom.ids.length dom.versions.length dom.maxEpoch m := by
  refine sum_codes hids hver
    (F := fun ne T => sessionsIn m ne T.card (dom.ids.length - ne - T.card))
    (G := fun ne nv => dom.maxEpoch.choose nv * sessionsIn m ne nv (dom.ids.length - ne - nv)) ?_ ?_
  · exact fun _ _ _ hm => sum_choice_modes m hids hm
  · intro ne nv
    have hsize : ∀ T ∈ (Finset.Icc 1 dom.maxEpoch).powersetCard nv,
        sessionsIn m ne T.card (dom.ids.length - ne - T.card) =
          sessionsIn m ne nv (dom.ids.length - ne - nv) := by
      intro T hT
      rw [(Finset.mem_powersetCard.mp hT).2]
    rw [Finset.sum_congr rfl hsize, Finset.sum_const, Finset.card_powersetCard, Nat.card_Icc,
      Nat.add_sub_cancel, nsmul_eq_mul, Nat.cast_id]

/-! ## The report of the calibrated model -/

theorem modeName_inj {m m' : Mode} : modeName m = modeName m' ↔ m = m' := by
  cases m <;> cases m' <;> simp [modeName]

/-- The modes in the order of their names. -/
def byName : List Mode :=
  [.bindingHoldover, .buffered, .exhausted, .ready, .recovery, .suspended]

theorem mem_byName (m : Mode) : m ∈ byName := by
  cases m <;> decide

theorem byName_sorted : byName.Pairwise fun m m' => modeName m < modeName m' := by
  decide

/-- The modes that some state is in, with how many states are in them. -/
def countsByName (count : Mode → Nat) : List (String × Nat) :=
  (byName.filter fun m => count m ≠ 0).map fun m => (modeName m, count m)

theorem mem_countsByName {count : Mode → Nat} {name : String} {n : Nat} :
    (name, n) ∈ countsByName count ↔ ∃ m, modeName m = name ∧ count m = n ∧ n ≠ 0 := by
  simp only [countsByName, List.mem_map, List.mem_filter, mem_byName, true_and, Prod.mk.injEq,
    decide_eq_true_eq]
  constructor
  · rintro ⟨m, hm, rfl, rfl⟩
    exact ⟨m, rfl, rfl, hm⟩
  · rintro ⟨m, rfl, rfl, hm⟩
    exact ⟨m, hm, rfl, rfl⟩

/-- The tally of the modes, sorted by their names. -/
theorem sortBy_byMode (states : List State) :
    sortBy toLex (byMode states).items =
      countsByName fun m => states.countP fun s => mode s = m := by
  have hcount : ∀ m, (states.map fun s => modeName (mode s)).count (modeName m) =
      states.countP fun s => mode s = m := by
    intro m
    rw [List.count, List.countP_map]
    refine congrArg (List.countP · states) (funext fun s => ?_)
    rw [Bool.eq_iff_iff]
    simp [modeName_inj]
  have hlt : (countsByName fun m => states.countP fun s => mode s = m).Pairwise
      fun a b => toLex a < toLex b :=
    List.pairwise_map.mpr ((byName_sorted.filter _).imp fun h =>
      Prod.Lex.toLex_lt_toLex.mpr (.inl h))
  have hnodup : (byMode states).items.Nodup := (Dict.nodupKeys_items _).of_map
  refine List.Perm.eq_of_pairwise ?_ sortBy_sorted (hlt.imp le_of_lt) (sortBy_perm.trans ?_)
  · intro a b _ _ hab hba
    exact toLex_inj.mp (le_antisymm hab hba)
  · refine (List.perm_ext_iff_of_nodup hnodup (hlt.imp fun h heq => ?_)).mpr ?_
    · exact absurd (heq ▸ h) (lt_irrefl _)
    · rintro ⟨name, n⟩
      rw [Dict.mem_items, byMode, Dict.lookup_tally, mem_countsByName]
      constructor
      · intro h
        split at h
        · cases h
        · rename_i hne
          obtain ⟨s, _, rfl⟩ := List.mem_map.mp (List.count_pos_iff.mp (Nat.pos_of_ne_zero hne))
          have hn := Option.some.inj h
          rw [hcount] at hn hne
          exact ⟨mode s, rfl, hn, hn ▸ hne⟩
      · rintro ⟨m, rfl, rfl, hne⟩
        rw [hcount, if_neg hne]

/-- The states that a result lists, one entry a state. -/
theorem ExactResult.count_mode {rules : Rules} {r : Found State String Check}
    (h : ExactResult dom rules r) (m : Mode) :
    (r.states.items.map Prod.fst).countP (fun s => mode s = m) =
      ((finite_reached dom rules).toFinset.filter fun s => mode s = m).card := by
  have hnodup := Dict.nodupKeys_items r.states
  have hmem : ∀ s, s ∈ r.states.items.map Prod.fst ↔ Reached dom rules s := by
    intro s
    simp only [List.mem_map, Prod.exists, Dict.mem_items, exists_and_right, exists_eq_right,
      h.states]
    exact ⟨fun ⟨_, hn⟩ => hn.reachable, fun hs => hs.dist⟩
  rw [List.countP_eq_length_filter, ← List.toFinset_card_of_nodup (hnodup.filter _)]
  congr 1
  ext s
  simp [hmem]

/-- **The states by lifecycle mode**, counted. -/
theorem card_mode (hids : dom.ids.Nodup) (hver : dom.versions.Nodup) (m : Mode) :
    ((finite_reached dom defaultRules).toFinset.filter fun s => mode s = m).card =
      modeCount dom.ids.length dom.versions.length dom.maxEpoch m := by
  rw [Finset.card_filter, ← sum_modes m hids hver, ← sum_reached]
  refine Finset.sum_congr rfl fun s hs => ?_
  have hreach := (finite_reached dom defaultRules).mem_toFinset.mp hs
  rw [(reached_iff.mp hreach).mode_eq]
  rfl

end

/-- **The report of the calibrated model** counts the states of every
lifecycle mode in closed form, under the sorted names of the modes that
some state is in; for the declared domain these are all six. -/
theorem calibrated_modes (dom : Domain) (hids : dom.ids.Nodup) (hver : dom.versions.Nodup) :
    (∃ r, RunReturns dom defaultRules none r ∧ (summary r defaultRules).statesByMode =
        countsByName (modeCount dom.ids.length dom.versions.length dom.maxEpoch)) ∧
    countsByName (modeCount 4 2 3) =
      [("BINDING_HOLDOVER", 6772), ("BUFFERED", 3166), ("EXHAUSTED", 237), ("READY", 5728),
        ("RECOVERY", 22912), ("SUSPENDED", 7009)] := by
  obtain ⟨r, hr⟩ := run_returns dom defaultRules none
  refine ⟨⟨r, hr, ?_⟩, by decide⟩
  simp only [summary, sortBy_byMode, (exact_of_returns hr).count_mode, card_mode hids hver]

theorem calibrated_modes_declared :
    ∃ r, RunReturns declared defaultRules none r ∧ (summary r defaultRules).statesByMode =
      [("BINDING_HOLDOVER", 6772), ("BUFFERED", 3166), ("EXHAUSTED", 237), ("READY", 5728),
        ("RECOVERY", 22912), ("SUSPENDED", 7009)] :=
  have h := calibrated_modes declared (by decide) (by decide)
  h.1.imp fun _ hr => ⟨hr.1, hr.2.trans h.2⟩

end QkdEkm.Model
