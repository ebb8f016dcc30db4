import Mathlib.Data.Nat.Find
import Mathlib.Order.Basic

/-!
# Transition — labelled transition systems

Runs of a labelled step relation, reachability, and the length of a
shortest run. Two induction principles carry every result about runs:

* `Run.invariant`: a predicate that a step preserves holds after a run;
* `dist_of_potential`: a potential that a step raises by at most one,
  and that some step into every state raises by exactly one, IS the
  length of a shortest run.
-/

namespace QkdEkm.Lib

universe u v

variable {S : Type u} {L : Type v} {step : S → L → S → Prop}

/-- `Run step s ls t`: an execution from `s` to `t` taking the labels
`ls` in order. -/
inductive Run (step : S → L → S → Prop) (s : S) : List L → S → Prop
  | nil : Run step s [] s
  | snoc {ls l t u} : Run step s ls t → step t l u → Run step s (ls ++ [l]) u

/-- Some run leads from `s` to `t`. -/
def Reachable (step : S → L → S → Prop) (s t : S) : Prop :=
  ∃ ls, Run step s ls t

/-- `n` is the length of a shortest run from `s` to `t`. -/
structure Dist (step : S → L → S → Prop) (s : S) (n : Nat) (t : S) : Prop where
  run : ∃ ls, Run step s ls t ∧ ls.length = n
  least : ∀ ls, Run step s ls t → n ≤ ls.length

theorem Reachable.refl (s : S) : Reachable step s s := ⟨[], .nil⟩

theorem Reachable.tail {s t u : S} {l : L} (h : Reachable step s t)
    (hs : step t l u) : Reachable step s u := by
  obtain ⟨ls, hr⟩ := h
  exact ⟨ls ++ [l], hr.snoc hs⟩

/-- **Safety by induction**: what holds at the start and is preserved by
every step holds after every run. -/
theorem Run.invariant {Inv : S → Prop} {s t : S} {ls : List L}
    (h : Run step s ls t) (h0 : Inv s)
    (hstep : ∀ t l u, Inv t → step t l u → Inv u) : Inv t := by
  induction h with
  | nil => exact h0
  | snoc _ hs ih => exact hstep _ _ _ ih hs

theorem Reachable.invariant {Inv : S → Prop} {s t : S}
    (h : Reachable step s t) (h0 : Inv s)
    (hstep : ∀ t l u, Inv t → step t l u → Inv u) : Inv t := by
  obtain ⟨ls, hr⟩ := h
  exact hr.invariant h0 hstep

theorem Run.nil_inv {s t : S} (h : Run step s [] t) : t = s := by
  generalize hls : ([] : List L) = ls at h
  cases h with
  | nil => rfl
  | snoc => simp at hls

theorem Run.snoc_inv {s u : S} {ls : List L} {l : L} (h : Run step s (ls ++ [l]) u) :
    ∃ t, Run step s ls t ∧ step t l u := by
  generalize hls : ls ++ [l] = ls' at h
  cases h with
  | nil => simp at hls
  | snoc hr hs =>
    obtain ⟨rfl, hl⟩ := List.append_inj' hls rfl
    cases hl
    exact ⟨_, hr, hs⟩

/-- Where the label determines the step, the labels determine the run. -/
theorem Run.unique {Inv : S → Prop} {s t t' : S} {ls : List L} (h0 : Inv s)
    (hstep : ∀ t l u, Inv t → step t l u → Inv u)
    (hdet : ∀ t l u u', Inv t → step t l u → step t l u' → u = u')
    (h : Run step s ls t) (h' : Run step s ls t') : t = t' := by
  induction h generalizing t' with
  | nil => exact h'.nil_inv.symm
  | snoc hr hs ih =>
    obtain ⟨u, hr', hs'⟩ := h'.snoc_inv
    obtain rfl := ih hr'
    exact hdet _ _ _ _ (hr.invariant h0 hstep) hs hs'

theorem Run.trans {s t u : S} {ls ls' : List L} (h : Run step s ls t)
    (h' : Run step t ls' u) : Run step s (ls ++ ls') u := by
  induction h' with
  | nil => simpa using h
  | snoc _ hs ih =>
    rw [← List.append_assoc]
    exact ih.snoc hs

/-! ## Runs of bounded length -/

/-- A run of at most `n` steps leads from `s` to `t`. -/
def Within (step : S → L → S → Prop) (n : Nat) (s t : S) : Prop :=
  ∃ ls, Run step s ls t ∧ ls.length ≤ n

theorem Within.refl (s : S) : Within step 0 s s := ⟨[], .nil, Nat.le_refl _⟩

theorem Within.one {s t : S} {l : L} (h : step s l t) : Within step 1 s t :=
  ⟨[l], Run.nil.snoc h, Nat.le_refl _⟩

theorem Within.trans {m n : Nat} {s t u : S} (h : Within step m s t) (h' : Within step n t u) :
    Within step (m + n) s u := by
  obtain ⟨ls, hr, hlen⟩ := h
  obtain ⟨ls', hr', hlen'⟩ := h'
  refine ⟨ls ++ ls', hr.trans hr', ?_⟩
  rw [List.length_append]
  omega

theorem Within.mono {m n : Nat} {s t : S} (h : Within step m s t) (hle : m ≤ n) :
    Within step n s t :=
  h.imp fun _ hr => ⟨hr.1, Nat.le_trans hr.2 hle⟩

/-! ## Shortest runs -/

theorem Dist.reachable {s t : S} {n : Nat} (h : Dist step s n t) :
    Reachable step s t := by
  obtain ⟨ls, hr, _⟩ := h.run
  exact ⟨ls, hr⟩

theorem Dist.unique {s t : S} {m n : Nat} (hm : Dist step s m t)
    (hn : Dist step s n t) : m = n := by
  obtain ⟨ls, hr, rfl⟩ := hm.run
  obtain ⟨ls', hr', rfl⟩ := hn.run
  exact Nat.le_antisymm (hm.least _ hr') (hn.least _ hr)

theorem Dist.zero (s : S) : Dist step s 0 s :=
  ⟨⟨[], .nil, rfl⟩, fun _ _ => Nat.zero_le _⟩

/-- Every reachable state has a shortest run. -/
theorem Reachable.dist {s t : S} (h : Reachable step s t) :
    ∃ n, Dist step s n t := by
  classical
  have hex : ∃ n, ∃ ls, Run step s ls t ∧ ls.length = n := by
    obtain ⟨ls, hr⟩ := h
    exact ⟨_, ls, hr, rfl⟩
  exact ⟨Nat.find hex, Nat.find_spec hex, fun ls hr => Nat.find_min' hex ⟨ls, hr, rfl⟩⟩

/-! ## Potentials -/

/-- A potential that a step raises by at most one bounds the length of
every run from below. -/
theorem Run.potential_le {Inv : S → Prop} {φ : S → Nat} {s t : S} {ls : List L}
    (h : Run step s ls t) (h0 : Inv s)
    (hstep : ∀ t l u, Inv t → step t l u → Inv u ∧ φ u ≤ φ t + 1) :
    Inv t ∧ φ t ≤ φ s + ls.length := by
  induction h with
  | nil => exact ⟨h0, Nat.le_refl _⟩
  | snoc _ hs ih =>
    obtain ⟨hi, hle⟩ := ih
    obtain ⟨hu, hle'⟩ := hstep _ _ _ hi hs
    refine ⟨hu, ?_⟩
    rw [List.length_append, List.length_singleton]
    omega

/-- If every good state other than `s` is entered by a step from a good
state of a potential one smaller, it is reached by a run as long as its
potential. -/
theorem exists_run_of_descent {Good : S → Prop} {φ : S → Nat} {s : S}
    (h0 : φ s = 0)
    (hdesc : ∀ t, Good t → t = s ∨ ∃ p l, Good p ∧ step p l t ∧ φ t = φ p + 1) :
    ∀ t, Good t → ∃ ls, Run step s ls t ∧ ls.length = φ t := by
  have key : ∀ n t, φ t = n → Good t → ∃ ls, Run step s ls t ∧ ls.length = n := by
    intro n
    induction n with
    | zero =>
      intro t hn ht
      rcases hdesc t ht with rfl | ⟨p, l, _, _, hφ⟩
      · exact ⟨[], .nil, rfl⟩
      · omega
    | succ n ih =>
      intro t hn ht
      rcases hdesc t ht with rfl | ⟨p, l, hp, hs, hφ⟩
      · omega
      · obtain ⟨ls, hr, hlen⟩ := ih p (by omega) hp
        exact ⟨ls ++ [l], hr.snoc hs, by simp [hlen]⟩
  intro t ht
  exact key (φ t) t rfl ht

/-- **A potential is the distance**: raised by at most one by every step
of a run, and by exactly one by some step into every good state but the
start. -/
theorem dist_of_potential (Inv : S → Prop) {Good : S → Prop} {φ : S → Nat} {s : S}
    (hs : Inv s) (h0 : φ s = 0)
    (hstep : ∀ t l u, Inv t → step t l u → Inv u ∧ φ u ≤ φ t + 1)
    (hdesc : ∀ t, Good t → t = s ∨ ∃ p l, Good p ∧ step p l t ∧ φ t = φ p + 1)
    {t : S} (ht : Good t) : Dist step s (φ t) t := by
  refine ⟨exists_run_of_descent h0 hdesc t ht, ?_⟩
  intro ls hr
  have := (hr.potential_le hs hstep).2
  omega

end QkdEkm.Lib
