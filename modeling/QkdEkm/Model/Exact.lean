import QkdEkm.Model.Finite

/-!
# Exact — the enumeration is the reachable closure

`Lib.ExploreExact` says what breadth-first search returns of any system;
here it is read at the lifecycle model, in the words of `Result`.
-/

namespace QkdEkm.Model

open QkdEkm.Lib

variable {dom : Domain} {rules : Rules} {r : Found State String Check}

/-- Everything in a result is real: each recorded state is reachable
with the length of a shortest run to it, the states are numbered
`0..N-1`, the transitions are listed in increasing order without
repetition and each is one the model makes between recorded states, and
`maxDepth` is the greatest recorded depth. -/
structure SoundResult (dom : Domain) (rules : Rules) (r : Found State String Check) : Prop where
  states : ∀ s n, r.states.lookup s = some n → Dist (Fires dom rules) initial n s
  index : Set.BijOn (Dict.at r.index) {s | s ∈ r.states} (Set.Iio r.states.entries.length)
  index_keys : ∀ s, s ∈ r.index ↔ s ∈ r.states
  sorted : r.transitions.Pairwise (· < ·)
  transitions : ∀ e ∈ r.transitions, ∃ s label s2, s ∈ r.states ∧ s2 ∈ r.states ∧
    (label, s2) ∈ enabled dom s rules ∧
    e = edge (Dict.at r.index s) label (Dict.at r.index s2)
  maxDepth : IsGreatest {n | ∃ s, r.states.lookup s = some n} r.maxDepth

/-- A result is the whole reachable closure. -/
structure ExactResult (dom : Domain) (rules : Rules) (r : Found State String Check) : Prop where
  states : ∀ s n, r.states.lookup s = some n ↔ Dist (Fires dom rules) initial n s
  index : Set.BijOn (Dict.at r.index) {s | Reached dom rules s}
    (Set.Iio r.states.entries.length)
  index_keys : ∀ s, s ∈ r.index ↔ Reached dom rules s
  sorted : r.transitions.Pairwise (· < ·)
  transitions : ∀ e, e ∈ r.transitions ↔ ∃ s label s2, Reached dom rules s ∧
    (label, s2) ∈ enabled dom s rules ∧
    e = edge (Dict.at r.index s) label (Dict.at r.index s2)
  maxDepth : IsGreatest {n | ∃ s, Dist (Fires dom rules) initial n s} r.maxDepth
  violations : r.violations = [] ↔
    (∀ s, Reached dom rules s → invariants dom (retainedEpoch rules) s = []) ∧
      ∀ s label s2, Reached dom rules s → (label, s2) ∈ enabled dom s rules →
        guards label s s2 = []

theorem soundResult (h : r.Sound (lifecycle dom rules)) : SoundResult dom rules r :=
  ⟨h.depth, h.numbering, h.index, h.sorted, h.edges, h.maxDepth⟩

theorem exactResult (h : r.Sound (lifecycle dom rules)) (hc : r.Complete (lifecycle dom rules)) :
    ExactResult dom rules r := by
  have hstates : ∀ s n, r.states.lookup s = some n ↔ Dist (Fires dom rules) initial n s :=
    fun s n => ⟨h.depth s n, hc.states s n⟩
  have hmem : ∀ s, s ∈ r.states ↔ Reached dom rules s := by
    intro s
    constructor
    · intro hs
      exact ((hstates s _).mp (Dict.lookup_of_mem hs)).reachable
    · intro hs
      obtain ⟨n, hn⟩ := hs.dist
      exact Dict.mem_of_lookup ((hstates s n).mpr hn)
  have hset : {s | s ∈ r.states} = {s | Reached dom rules s} := Set.ext hmem
  refine ⟨hstates, hset ▸ h.numbering, fun s => (h.index s).trans (hmem s), h.sorted, ?_, ?_,
    hc.violations⟩
  · intro e
    constructor
    · intro he
      obtain ⟨s, l, t, hs, _, hf, rfl⟩ := h.edges e he
      exact ⟨s, l, t, (hmem s).mp hs, hf, rfl⟩
    · rintro ⟨s, l, t, hs, hf, rfl⟩
      exact hc.edges s l t hs hf
  · have : {n | ∃ s, Dist (Fires dom rules) initial n s}
        = {n | ∃ s, r.states.lookup s = some n} := by
      ext n
      simp only [Set.mem_ofPred_eq, hstates]
    rw [this]
    exact h.maxDepth

/-- **The enumerator is exact**, for every reading and every domain: it
returns the reachable closure; and under any bound on the number of
states what it returns is sound, and is the closure unless the search
gave up. -/
theorem run_exact (dom : Domain) (rules : Rules) :
    (∃ r, RunReturns dom rules none r ∧ ExactResult dom rules r) ∧
    ∀ maxStates : Int, ∃ r, RunReturns dom rules (some maxStates) r ∧
      SoundResult dom rules r ∧ (r.aborted = false → ExactResult dom rules r) := by
  constructor
  · obtain ⟨r, hr⟩ := run_returns dom rules none
    have hret : (lifecycle dom rules).Returns none r := hr
    exact ⟨r, hr, exactResult hret.sound.1 hret.complete.2⟩
  · intro m
    obtain ⟨r, hr⟩ := run_returns dom rules (some m)
    have hret : (lifecycle dom rules).Returns (some m) r := hr
    obtain ⟨hs, hc⟩ := hret.sound
    exact ⟨r, hr, soundResult hs, fun hab => exactResult hs (hc hab)⟩

/-- What the unbounded enumeration returns is unique, so any result it
returns is the exact one. -/
theorem exact_of_returns (h : RunReturns dom rules none r) : ExactResult dom rules r := by
  have hret : (lifecycle dom rules).Returns none r := h
  exact exactResult hret.sound.1 hret.complete.2

end QkdEkm.Model
