import Mathlib.Data.Finset.Sort
import Mathlib.Data.Prod.Lex
import Mathlib.Data.Set.Finite.Basic
import Mathlib.Order.Interval.Finset.Nat
import QkdEkm.Lib.Dict
import QkdEkm.Lib.Transition

/-!
# Explore — an explicit-state model checker

Breadth-first search over a labelled transition system, numbering every
state it discovers, recording its depth at discovery, checking a list of
state properties on each new state and a list of guards on each
transition, and giving up once a bound on the number of states is
passed. `ExploreExact` proves what the search returns.
-/

namespace QkdEkm.Lib

universe u v w

/-- What is explored: a start, the labelled successors of a state, and
the names of the properties a state or a transition violates. -/
structure System (S : Type u) (L : Type v) (C : Type w) where
  start : S
  succs : S → List (L × S)
  invariants : S → List C
  guards : L → S → S → List C

/-- The step relation of a system. -/
def System.Step {S : Type u} {L : Type v} {C : Type w} (sys : System S L C)
    (s : S) (l : L) (t : S) : Prop :=
  (l, t) ∈ sys.succs s

/-- A violated check: of a numbered state, or of a labelled transition
out of a numbered state. -/
inductive Violation (L : Type v) (C : Type w) where
  | invariant (check : C) (state : Nat)
  | guard (check : C) (state : Nat) (label : L)

/-- An edge between numbered states, ordered lexicographically. -/
abbrev Edge (L : Type v) := Nat ×ₗ (L ×ₗ Nat)

def edge {L : Type v} (src : Nat) (label : L) (dst : Nat) : Edge L :=
  toLex (src, toLex (label, dst))

/-- The mutable variables of the search loop. -/
structure Search (S : Type u) (L : Type v) (C : Type w) where
  depth : Dict S Nat
  index : Dict S Nat
  edges : Finset (Edge L)
  violations : List (Violation L C)
  queue : List S
  aborted : Bool

/-- What the search returns. -/
structure Found (S : Type u) (L : Type v) (C : Type w) where
  states : Dict S Nat
  transitions : List (Edge L)
  maxDepth : Nat
  violations : List (Violation L C)
  index : Dict S Nat
  aborted : Bool

variable {S : Type u} {L : Type v} {C : Type w} [DecidableEq S] [LinearOrder L]

/-- The values of a dictionary, newest key first. -/
def Dict.values {K : Type u} {V : Type v} (d : Dict K V) : List V :=
  d.entries.map (·.2)

/-- The search before its first iteration: the start is numbered,
checked and queued. -/
def System.begin (sys : System S L C) : Search S L C where
  depth := AList.singleton sys.start 0
  index := AList.singleton sys.start 0
  edges := ∅
  violations := (sys.invariants sys.start).map (.invariant · 0)
  queue := [sys.start]
  aborted := false

/-- One labelled successor of the state `s` numbered `src`, whose
successors are discovered at depth `d`. -/
def System.visit (sys : System S L C) (s : S) (src d : Nat)
    (st : Search S L C) (ln : L × S) : Search S L C :=
  let (label, nxt) := ln
  let guarded := st.violations ++ (sys.guards label s nxt).map (.guard · src label)
  match st.index.lookup nxt with
  | some known =>
    { st with violations := guarded, edges := insert (edge src label known) st.edges }
  | none =>
    let known := st.index.entries.length
    { st with
      index := st.index.insert nxt known
      depth := st.depth.insert nxt d
      violations := guarded ++ (sys.invariants nxt).map (.invariant · known)
      queue := st.queue ++ [nxt]
      edges := insert (edge src label known) st.edges }

/-- Expand the state `s`, already taken off the queue. A queued state is
always numbered, so the defaults are never read. -/
def System.expand (sys : System S L C) (s : S) (st : Search S L C) : Search S L C :=
  let src := (st.index.lookup s).getD 0
  let d := (st.depth.lookup s).getD 0 + 1
  (sys.succs s).foldl (sys.visit s src d) st

/-- Whether more states are numbered than the bound, if any, allows. -/
def Search.over (maxStates : Option Int) (st : Search S L C) : Bool :=
  maxStates.any fun m => decide (m < (st.index.entries.length : Int))

/-- The search loop; `none` if the fuel runs out first. -/
def System.loop (sys : System S L C) (maxStates : Option Int) :
    Nat → Search S L C → Option (Search S L C)
  | 0, _ => none
  | fuel + 1, st =>
    if st.aborted then some st
    else
      match st.queue with
      | [] => some st
      | s :: rest =>
        let st' := sys.expand s { st with queue := rest }
        sys.loop maxStates fuel { st' with aborted := st'.over maxStates }

/-- What is returned of a finished search. -/
def Search.found (st : Search S L C) : Found S L C where
  states := st.depth
  transitions := st.edges.sort (· ≤ ·)
  maxDepth := (Dict.values st.depth).foldr max 0
  violations := st.violations
  index := st.index
  aborted := st.aborted

def System.explore (sys : System S L C) (maxStates : Option Int) (fuel : Nat) :
    Option (Found S L C) :=
  (sys.loop maxStates fuel sys.begin).map Search.found

end QkdEkm.Lib
