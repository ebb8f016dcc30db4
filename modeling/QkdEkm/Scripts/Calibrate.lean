import QkdEkm.Model.Depth
import QkdEkm.Model.Edges
import QkdEkm.Model.Knobs
import QkdEkm.Model.Transitions

/-!
# Calibrate — the sweep over the readings

`combos` plans the readings of a stage and keeps one for each
description; since a description names the knobs that differ from the
base reading, none is lost. Over any domain of at most `maxStates`
states the sweep of `round2` finds a reading that reproduces the closed
forms, because it plans the calibrated one.
-/

namespace QkdEkm.Scripts

open QkdEkm.Lib
open QkdEkm.Model

/-- `STRUCTURAL`. -/
def structural : List Knob :=
  [.allocVpnNeedsNoActive, .vpnPendingReplaceable, .recoverClearsPending, .activateMerged,
    .ekmDownClearsActive, .restoreRecoveryNeedsFull]

/-- `EDGES`. -/
def edges : List Knob :=
  [.rejectStaleNeedsActive, .depTogglesUnconditional, .ingestNeedsEkm, .expireNeedsSourceDown,
    .allocEkmNeedsSource, .authorityOnlyWhenDegraded, .recoverNeedsAuthority]

/-- `ROUND2`. -/
def round2 : List Knob :=
  [.expireMarksUsed, .suspendState, .restorationDetected, .abandonPending, .abandonConsumesEpoch,
    .downClearsPending, .sessionEnd, .recoverClearsActive, .fifoPool, .allocVpnAnyFutureEpoch,
    .rejectStalePerEpoch]

/-- `ROUND2_PRODUCTS`. -/
def round2Products : List (List Knob) :=
  [[.expireMarksUsed, .ekmDownClearsActive, .abandonPending, .downClearsPending, .suspendState,
      .restorationDetected, .vpnPendingReplaceable],
    [.expireMarksUsed, .ekmDownClearsActive, .sessionEnd, .recoverClearsActive,
      .recoverClearsPending, .allocVpnNeedsNoActive],
    [.expireMarksUsed, .ekmDownClearsActive, .abandonPending, .abandonConsumesEpoch, .fifoPool],
    [.allocVpnAnyFutureEpoch, .rejectStalePerEpoch, .expireMarksUsed, .ekmDownClearsActive,
      .abandonPending, .downClearsPending]]

/-- `ROUND2_SEEDS`. -/
def round2Seeds : List (List Knob) :=
  [[], [.expireMarksUsed], [.expireMarksUsed, .ekmDownClearsActive]]

/-- `MAX_STATES`. -/
def maxStates : Int := 150000

/-- The knobs in which a reading differs from the base reading. -/
def describe (rules : Rules) : String :=
  let on := slots.filter fun f => rules.get f != baseRules.get f
  if on = [] then "base" else "+".intercalate (on.map Knob.name)

/-- `itertools.product((False, True), repeat=n)`. -/
def bits : Nat → List (List Bool)
  | 0 => [[]]
  | n + 1 => [false, true].flatMap fun b => (bits n).map (b :: ·)

/-- `replace(rules, **values)`. -/
def setAll (rules : Rules) (values : List (Knob × Bool)) : Rules :=
  values.foldl (fun rules p => rules.set p.1 p.2) rules

/-- The full product of a family of knobs, over the base reading. -/
def product (family : List Knob) : List Rules :=
  (bits family.length).map fun b => setAll baseRules (family.zip b)

inductive Stage
  | singles
  | structural
  | edges
  | round2
  | all
  deriving DecidableEq

/-- The readings of a stage, before repetitions are dropped. -/
def planned (stage : Stage) : List Rules :=
  [baseRules] ++
  (if stage ∈ [.singles, .all] then slots.map fun f => baseRules.set f !baseRules.get f
    else []) ++
  (if stage ∈ [.structural, .all] then product structural else []) ++
  (if stage ∈ [.edges, .all] then product edges else []) ++
  (if stage ∈ [.round2, .all] then
    (round2Seeds.flatMap fun seed =>
      let start := setAll baseRules (seed.map fun f => (f, true))
      start :: round2.map fun f => start.set f true) ++ round2Products.flatMap product
    else [])

def combos (stage : Stage) : List Rules :=
  ((planned stage).foldl (fun seen r => seen.setdefault (describe r) r)
    (∅ : Dict String Rules)).items.map Prod.snd

/-! ## One enumeration a reading -/

theorem name_plain (f : Knob) : f.name ≠ "" ∧ '+' ∉ f.name.toList ∧ f.name ≠ "base" := by
  cases f <;> decide

/-- **A description names one reading.** -/
theorem describe_inj {rules rules' : Rules} (h : describe rules = describe rules') :
    rules = rules' := by
  have htexts : ∀ on : List Knob, (if on = [] then "base" else "+".intercalate (on.map Knob.name)) =
      "+".intercalate (if on = [] then ["base"] else on.map Knob.name) := by
    intro on
    split
    · rfl
    · rfl
  have hplain : ∀ on : List Knob, ∀ x ∈ (if on = [] then ["base"] else on.map Knob.name),
      x ≠ "" ∧ '+' ∉ x.toList := by
    intro on x hx
    split at hx
    · rw [List.mem_singleton.mp hx]
      decide
    · obtain ⟨f, _, rfl⟩ := List.mem_map.mp hx
      exact ⟨(name_plain f).1, (name_plain f).2.1⟩
  have hbase : ∀ on : List Knob, on.map Knob.name ≠ ["base"] := by
    intro on heq
    have hm : "base" ∈ on.map Knob.name := by simp [heq]
    obtain ⟨f, _, hf⟩ := List.mem_map.mp hm
    exact (name_plain f).2.2 hf
  simp only [describe, htexts] at h
  have heq := intercalate_inj (by decide) (hplain _) (hplain _) h
  have hon : (slots.filter fun f => rules.get f != baseRules.get f) =
      slots.filter fun f => rules'.get f != baseRules.get f := by
    split at heq
    · rename_i hnil
      split at heq
      · rename_i hnil'
        rw [hnil, hnil']
      · exact absurd heq.symm (hbase _)
    · split at heq
      · exact absurd heq (hbase _)
      · exact (List.map_injective_iff.mpr fun _ _ => Knob.name_inj) heq
  refine Rules.ext_get fun f => ?_
  have hm : f ∈ (slots.filter fun f => rules.get f != baseRules.get f) ↔
      f ∈ slots.filter fun f => rules'.get f != baseRules.get f := by rw [hon]
  simp only [List.mem_filter, mem_slots, true_and, bne_iff_ne, ne_eq] at hm
  revert hm
  generalize rules.get f = a, rules'.get f = b, baseRules.get f = c
  revert a b c
  decide

/-! ## One run -/

/-- What is printed of an enumeration, but for the time it took. -/
structure Measured where
  rules : String
  states : Nat
  transitions : Nat
  maxDepth : Nat
  violations : Nat
  aborted : Bool
  distance : Nat

/-- The row of a reading whose enumeration returned `result`. -/
def measure (target : Nat × Nat × Nat) (rules : Rules) (result : Found State String Model.Check) :
    Measured where
  rules := describe rules
  states := result.states.entries.length
  transitions := result.transitions.length
  maxDepth := result.maxDepth
  violations := result.violations.length
  aborted := result.aborted
  distance := ((result.states.entries.length : Int) - target.1).natAbs +
    ((result.transitions.length : Int) - target.2.1).natAbs

/-- The first row that reproduces the published numbers without a
violation. -/
def exactMatch (target : Nat × Nat × Nat) (rows : List Measured) : Option Measured :=
  rows.find? fun r => decide ((r.states, r.transitions, r.maxDepth) = target) && r.violations == 0

theorem mem_bits {n : Nat} {b : List Bool} : b ∈ bits n ↔ b.length = n := by
  induction n generalizing b with
  | zero => simp [bits]
  | succ n ih =>
    simp only [bits, List.mem_flatMap, List.mem_map, ih]
    constructor
    · rintro ⟨_, _, b, rfl, rfl⟩
      rfl
    · intro h
      cases b with
      | nil => cases h
      | cons x b => exact ⟨x, by cases x <;> simp, b, by simpa using h, rfl⟩

/-- The calibrated reading is in the last product. -/
theorem default_planned {stage : Stage} (hstage : stage = .round2 ∨ stage = .all) :
    defaultRules ∈ planned stage := by
  have hfamily : defaultRules ∈ product [.allocVpnAnyFutureEpoch, .rejectStalePerEpoch,
      .expireMarksUsed, .ekmDownClearsActive, .abandonPending, .downClearsPending] :=
    List.mem_map.mpr ⟨[true, true, false, false, false, false], mem_bits.mpr rfl, rfl⟩
  have hround : stage ∈ [Stage.round2, .all] := by
    rcases hstage with rfl | rfl <;> decide
  rw [planned, if_pos hround]
  refine List.mem_append_right _ (List.mem_append_right _ (List.mem_flatMap.mpr ⟨_, ?_, hfamily⟩))
  decide

/-- **The sweep measures every planned reading once**: a description
names one reading, and the readings measured are those planned, without
repetition and in their order. -/
theorem combos_spec (stage : Stage) :
    (∀ rules rules', describe rules = describe rules' → rules = rules') ∧
    (combos stage).Nodup ∧ (∀ r, r ∈ combos stage ↔ r ∈ planned stage) ∧
    (combos stage).Sublist (planned stage) :=
  have hinj : Function.Injective describe := fun _ _ h => describe_inj h
  ⟨hinj, Dict.values_foldl_setdefault hinj (planned stage)⟩

section

variable {dom : Domain}

theorem card_reached (hids : dom.ids.Nodup) (hver : dom.versions.Nodup) :
    (finite_reached dom defaultRules).toFinset.card =
      stateCount dom.ids.length dom.versions.length dom.maxEpoch := by
  rw [← ncard_reached hids hver, Set.ncard_eq_toFinset_card _ (finite_reached dom defaultRules)]

theorem greatest_reached (hids : dom.ids.Nodup) (hver : dom.versions.Nodup) :
    IsGreatest {n | ∃ s, Dist (Fires dom defaultRules) initial n s}
      (greatestDepth dom.ids.length dom.versions.length dom.maxEpoch) := by
  constructor
  · obtain ⟨s, hs, hc⟩ := exists_cost_eq hids hver
    exact ⟨s, hc ▸ hs.dist⟩
  · rintro n ⟨s, hn⟩
    have hs := reached_iff.mp hn.reachable
    rw [hn.unique hs.dist]
    exact hs.cost_le hids hver

/-- Within the bound the calibrated reading is measured exactly. -/
theorem measure_default (hids : dom.ids.Nodup) (hver : dom.versions.Nodup)
    (hcolon : ∀ k ∈ dom.ids, ':' ∉ k.toList) {m : Int}
    (hm : (stateCount dom.ids.length dom.versions.length dom.maxEpoch : Int) ≤ m)
    {r : Found State String Model.Check} (hr : RunReturns dom defaultRules (some m) r) :
    r.states.entries.length = stateCount dom.ids.length dom.versions.length dom.maxEpoch ∧
    r.transitions.length = transitionCount dom.ids.length dom.versions.length dom.maxEpoch ∧
    r.maxDepth = greatestDepth dom.ids.length dom.versions.length dom.maxEpoch ∧
    r.violations = [] := by
  have hret : (lifecycle dom defaultRules).Returns (some m) r := hr
  have hfin := finite_reached dom defaultRules
  have hcomplete := hret.complete_of_card_le hfin (by
    rw [← card_reached hids hver] at hm
    exact hm)
  have hx := exactResult hret.sound.1 hcomplete.2
  have hstates : r.states.entries.length = (finite_reached dom defaultRules).toFinset.card := by
    rw [← Set.ncard_Iio_nat r.states.entries.length, ← hx.index.image_eq,
      hx.index.injOn.ncard_image, Set.ncard_eq_toFinset_card _ (finite_reached dom defaultRules)]
  refine ⟨hstates.trans (card_reached hids hver),
    hx.length_transitions.trans (card_transitionSet hids hver),
    hx.maxDepth.unique (greatest_reached hids hver), ?_⟩
  exact hret.sound.1.clean (fun s hs => (inv_reached hs).invariants_nil)
    fun s l t hs hf => guards_fires (inv_reached hs) hcolon hf

end

/-- The closed forms of the calibrated reading. -/
def closedForms (dom : Domain) : Nat × Nat × Nat :=
  (stateCount dom.ids.length dom.versions.length dom.maxEpoch,
    transitionCount dom.ids.length dom.versions.length dom.maxEpoch,
    greatestDepth dom.ids.length dom.versions.length dom.maxEpoch)

/-- **The sweep finds the calibrated reading.** Over every domain within
the bound, the stages that plan it report an exact match for the closed
forms of its states, transitions and depth; for the declared domain these
are the published numbers. -/
theorem sweep_matches (dom : Domain) (hids : dom.ids.Nodup) (hver : dom.versions.Nodup)
    (hcolon : ∀ k ∈ dom.ids, ':' ∉ k.toList)
    (hsize : (stateCount dom.ids.length dom.versions.length dom.maxEpoch : Int) ≤ maxStates)
    (stage : Stage) (hstage : stage = .round2 ∨ stage = .all)
    (results : Rules → Found State String Model.Check)
    (hresults : ∀ rules ∈ combos stage, RunReturns dom rules (some maxStates) (results rules)) :
    (∃ row, exactMatch (closedForms dom)
        ((combos stage).map fun rules => measure (closedForms dom) rules (results rules)) =
          some row ∧ row.distance = 0 ∧ row.violations = 0) ∧
    closedForms declared = (45824, 307680, 16) := by
  refine ⟨?_, by decide⟩
  have hinj : Function.Injective describe := fun _ _ h => describe_inj h
  have hmem : defaultRules ∈ combos stage :=
    ((Dict.values_foldl_setdefault hinj (planned stage)).2.1 _).mpr (default_planned hstage)
  obtain ⟨hs, ht, hd, hv⟩ := measure_default hids hver hcolon hsize (hresults _ hmem)
  have hsome : (exactMatch (closedForms dom) ((combos stage).map fun rules =>
      measure (closedForms dom) rules (results rules))).isSome := by
    refine List.find?_isSome.mpr ⟨_, List.mem_map_of_mem hmem, ?_⟩
    simp [measure, closedForms, hs, ht, hd, hv]
  obtain ⟨row, hrow⟩ := Option.isSome_iff_exists.mp hsome
  refine ⟨row, hrow, ?_⟩
  have hmatch := List.find?_some hrow
  simp only [Bool.and_eq_true, decide_eq_true_eq, beq_iff_eq] at hmatch
  obtain ⟨rules, _, rfl⟩ := List.mem_map.mp (List.mem_of_find?_eq_some hrow)
  have hnumbers : ((results rules).states.entries.length, (results rules).transitions.length,
      (results rules).maxDepth) = closedForms dom := hmatch.1
  refine ⟨?_, hmatch.2⟩
  simp only [measure]
  rw [← hnumbers]
  simp

theorem sweep_matches_declared : ∃ results : Rules → Found State String Model.Check,
    ∃ row, exactMatch (closedForms declared) ((combos .all).map fun rules =>
      measure (closedForms declared) rules (results rules)) = some row := by
  have hruns : ∀ rules, ∃ r, RunReturns declared rules (some maxStates) r := fun rules =>
    run_returns declared rules (some maxStates)
  choose results hresults using hruns
  obtain ⟨⟨row, hrow, _⟩, _⟩ := sweep_matches declared (by decide) (by decide) (by decide)
    (by decide) .all (.inr rfl) results fun rules _ => hresults rules
  exact ⟨results, row, hrow⟩

end QkdEkm.Scripts
