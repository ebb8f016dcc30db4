import QkdEkm.Lib.Explore

/-!
# ExploreExact — what breadth-first search returns

The invariant `Inv` of the search speaks of a FRONTIER: the queued
states, and while a state is being expanded also that state. `Done`
records the transitions already looked at. Its core is `frontier_bound`:
a run into the system either stays within the recorded depths or has
passed a frontier state, so a state met for the first time from the
shallowest frontier state is at its exact distance.

`loop_returns` is termination: every iteration takes one more state off
the frontier for good, and there are finitely many reachable states.
-/

namespace QkdEkm.Lib

set_option linter.unusedSectionVars false

universe u v w

variable {S : Type u} {L : Type v} {C : Type w} [DecidableEq S] [LinearOrder L]

/-! ## Recorded depths and numbers -/

/-- The number recorded for a key; `0` for a key never recorded. -/
def Dict.at (d : Dict S Nat) (s : S) : Nat := (d.lookup s).getD 0

theorem Dict.mem_of_lookup {d : Dict S Nat} {s : S} {n : Nat}
    (h : d.lookup s = some n) : s ∈ d := by
  rw [← AList.lookup_isSome, h]
  rfl

theorem Dict.lookup_of_mem {d : Dict S Nat} {s : S} (h : s ∈ d) :
    d.lookup s = some (Dict.at d s) := by
  obtain ⟨n, hn⟩ := Option.isSome_iff_exists.mp (AList.lookup_isSome.mpr h)
  simp [Dict.at, hn]

@[simp] theorem Dict.lookup_singleton (s : S) (n : Nat) :
    AList.lookup s (AList.singleton s n : Dict S Nat) = some n := by
  rw [← AList.insert_empty, AList.lookup_insert]

@[simp] theorem Dict.at_insert_self (d : Dict S Nat) (s : S) (n : Nat) :
    Dict.at (d.insert s n) s = n := by
  simp [Dict.at]

theorem Dict.at_insert_ne {d : Dict S Nat} {s t : S} {n : Nat} (h : s ≠ t) :
    Dict.at (d.insert t n) s = Dict.at d s := by
  simp [Dict.at, AList.lookup_insert_ne h]

/-! ## The invariant -/

/-- What holds of a search whose frontier is `frontier` and which has
looked at the transitions in `Done`. -/
structure Inv (sys : System S L C) (st : Search S L C) (frontier : List S)
    (Done : S → L → S → Prop) : Prop where
  started : st.depth.lookup sys.start = some 0
  dist : ∀ s ∈ st.depth, Dist sys.Step sys.start (Dict.at st.depth s) s
  keys : st.index.keys = st.depth.keys
  numbered : Dict.values st.index = (List.range st.index.entries.length).reverse
  nodup : frontier.Nodup
  known : ∀ s ∈ frontier, s ∈ st.depth
  ordered : frontier.Pairwise fun a b =>
    Dict.at st.depth a ≤ Dict.at st.depth b ∧ Dict.at st.depth b ≤ Dict.at st.depth a + 1
  step : ∀ s l t, Done s l t → sys.Step s l t ∧ s ∈ st.depth ∧ t ∈ st.depth
  complete : ∀ s ∈ st.depth, s ∉ frontier → ∀ l t, sys.Step s l t → Done s l t
  edges : ∀ e, e ∈ st.edges ↔
    ∃ s l t, Done s l t ∧ e = edge (Dict.at st.index s) l (Dict.at st.index t)
  violations : st.violations = [] ↔
    (∀ s ∈ st.depth, sys.invariants s = []) ∧
      ∀ s l t, Done s l t → sys.guards l s t = []

variable {sys : System S L C} {st : Search S L C} {frontier : List S}
  {Done : S → L → S → Prop}

theorem Inv.mem_index (h : Inv sys st frontier Done) {s : S} :
    s ∈ st.index ↔ s ∈ st.depth := by
  rw [AList.mem_keys, AList.mem_keys, h.keys]

/-- A step out of a recorded state leads at most one level deeper. -/
theorem Inv.step_dist (h : Inv sys st frontier Done) {s t : S} {l : L} {n : Nat}
    (hs : s ∈ st.depth) (hst : sys.Step s l t) (ht : Dist sys.Step sys.start n t) :
    n ≤ Dict.at st.depth s + 1 := by
  obtain ⟨ls, hr, hlen⟩ := (h.dist s hs).run
  have := ht.least _ (hr.snoc hst)
  rw [List.length_append, List.length_singleton, hlen] at this
  exact this

/-- **The frontier bound**: a run of length `n` ends in a state recorded
at depth at most `n`, unless some frontier state lies above depth `n`. -/
theorem Inv.frontier_bound (h : Inv sys st frontier Done) {u : S} {ls : List L}
    (hr : Run sys.Step sys.start ls u) :
    (u ∈ st.depth ∧ Dict.at st.depth u ≤ ls.length) ∨
      ∃ f ∈ frontier, Dict.at st.depth f < ls.length := by
  induction hr with
  | nil => exact .inl ⟨Dict.mem_of_lookup h.started, by simp [Dict.at, h.started]⟩
  | @snoc ls l t u hr hs ih =>
    rw [List.length_append, List.length_singleton]
    rcases ih with ⟨ht, hle⟩ | ⟨f, hf, hlt⟩
    · by_cases hfr : t ∈ frontier
      · exact .inr ⟨t, hfr, by omega⟩
      · have hu := (h.step t l u (h.complete t ht hfr l u hs)).2.2
        have := h.step_dist ht hs (h.dist u hu)
        exact .inl ⟨hu, by omega⟩
    · exact .inr ⟨f, hf, by omega⟩

/-- The depths along a frontier that starts with `q` are within one of
the depth of `q`. -/
theorem Inv.frontier_depth {q : S} {rest : List S}
    (h : Inv sys st (q :: rest) Done) {f : S} (hf : f ∈ q :: rest) :
    Dict.at st.depth q ≤ Dict.at st.depth f ∧ Dict.at st.depth f ≤ Dict.at st.depth q + 1 := by
  rcases List.mem_cons.mp hf with rfl | hf
  · omega
  · exact (List.pairwise_cons.mp h.ordered).1 f hf

/-- A state not yet recorded, entered from the first frontier state, is
exactly one level deeper. -/
theorem Inv.new_dist {q : S} {rest : List S} (h : Inv sys st (q :: rest) Done)
    {l : L} {t : S} (hs : sys.Step q l t) (ht : t ∉ st.depth) :
    Dist sys.Step sys.start (Dict.at st.depth q + 1) t := by
  have hq := h.known q (List.mem_cons_self ..)
  obtain ⟨ls, hr, hlen⟩ := (h.dist q hq).run
  refine ⟨⟨ls ++ [l], hr.snoc hs, by simp [hlen]⟩, ?_⟩
  intro ls' hr'
  rcases h.frontier_bound hr' with ⟨hm, _⟩ | ⟨f, hf, hlt⟩
  · exact absurd hm ht
  · have := (h.frontier_depth hf).1
    omega

/-! ## One visited transition -/

/-- The transition `(q, l, t)` joins those looked at. -/
def AndDone (Done : S → L → S → Prop) (q : S) (l : L) (t : S) : S → L → S → Prop :=
  fun s l' t' => Done s l' t' ∨ (s = q ∧ l' = l ∧ t' = t)

theorem violations_append {vs : List (Violation L C)} {cs : List C}
    {f : C → Violation L C} : vs ++ cs.map f = [] ↔ vs = [] ∧ cs = [] := by
  rw [List.append_eq_nil_iff, List.map_eq_nil_iff]

section Visit

variable {q : S} {rest : List S} {l : L} {t : S}

/-- Looking at a transition into a state already numbered. -/
theorem Inv.visit_known (h : Inv sys st (q :: rest) Done) (hs : sys.Step q l t)
    (ht : t ∈ st.depth) (vs : List (Violation L C))
    (hvs : vs = [] ↔ st.violations = [] ∧ sys.guards l q t = []) :
    Inv sys { st with
        violations := vs
        edges := insert (edge (Dict.at st.index q) l (Dict.at st.index t)) st.edges }
      (q :: rest) (AndDone Done q l t) := by
  have hq := h.known q (List.mem_cons_self ..)
  refine ⟨h.started, h.dist, h.keys, h.numbered, h.nodup, h.known, h.ordered, ?_, ?_, ?_, ?_⟩
  · rintro s l' t' (hd | ⟨rfl, rfl, rfl⟩)
    · exact h.step s l' t' hd
    · exact ⟨hs, hq, ht⟩
  · intro s hs' hfr l' t' hst
    exact .inl (h.complete s hs' hfr l' t' hst)
  · intro e
    rw [Finset.mem_insert, h.edges]
    constructor
    · rintro (rfl | ⟨s, l', t', hd, rfl⟩)
      · exact ⟨q, l, t, .inr ⟨rfl, rfl, rfl⟩, rfl⟩
      · exact ⟨s, l', t', .inl hd, rfl⟩
    · rintro ⟨s, l', t', hd | ⟨rfl, rfl, rfl⟩, rfl⟩
      · exact .inr ⟨s, l', t', hd, rfl⟩
      · exact .inl rfl
  · show vs = [] ↔ _
    rw [hvs, h.violations]
    constructor
    · rintro ⟨⟨hi, hg⟩, hn⟩
      refine ⟨hi, ?_⟩
      rintro s l' t' (hd | ⟨rfl, rfl, rfl⟩)
      · exact hg s l' t' hd
      · exact hn
    · rintro ⟨hi, hg⟩
      exact ⟨⟨hi, fun s l' t' hd => hg s l' t' (.inl hd)⟩, hg q l t (.inr ⟨rfl, rfl, rfl⟩)⟩

/-- Numbering a new state, discovered from `q`: the state joins the end
of the frontier and the transition is still to be recorded. -/
theorem Inv.discover (h : Inv sys st (q :: rest) Done) (hs : sys.Step q l t)
    (ht : t ∉ st.depth) (vs : List (Violation L C))
    (hvs : vs = [] ↔ st.violations = [] ∧ sys.invariants t = []) :
    Inv sys { st with
        depth := st.depth.insert t (Dict.at st.depth q + 1)
        index := st.index.insert t st.index.entries.length
        violations := vs }
      (q :: (rest ++ [t])) Done := by
  have hq := h.known q (List.mem_cons_self ..)
  have hne : ∀ {s}, s ∈ st.depth → s ≠ t := by
    rintro s hs' rfl
    exact ht hs'
  have hti : t ∉ st.index := fun hm => ht (h.mem_index.mp hm)
  refine ⟨?_, ?_, ?_, ?_, ?_, ?_, ?_, ?_, ?_, ?_, ?_⟩
  · rw [AList.lookup_insert_ne (hne (Dict.mem_of_lookup h.started))]
    exact h.started
  · intro s hm
    rcases (AList.mem_insert _).mp hm with rfl | hm
    · simpa using h.new_dist hs ht
    · rw [Dict.at_insert_ne (hne hm)]
      exact h.dist s hm
  · simp only [AList.keys_insert]
    rw [List.erase_of_not_mem (by rwa [← AList.mem_keys]),
      List.erase_of_not_mem (by rwa [← AList.mem_keys]), h.keys]
  · have hnum := h.numbered
    simp only [Dict.values] at hnum ⊢
    rw [AList.entries_insert_of_notMem hti]
    simp [hnum, List.range_succ]
  · rw [← List.cons_append]
    refine List.nodup_append.mpr ⟨h.nodup, by simp, ?_⟩
    intro a ha b hb
    rw [List.mem_singleton] at hb
    subst hb
    exact hne (h.known a ha)
  · intro s hm
    rw [← List.cons_append, List.mem_append, List.mem_singleton] at hm
    rcases hm with hm | rfl
    · exact (AList.mem_insert _).mpr (.inr (h.known s hm))
    · exact (AList.mem_insert _).mpr (.inl rfl)
  · rw [← List.cons_append, List.pairwise_append]
    refine ⟨?_, by simp, ?_⟩
    · refine h.ordered.imp_of_mem ?_
      intro a b ha hb hab
      rw [Dict.at_insert_ne (hne (h.known a ha)), Dict.at_insert_ne (hne (h.known b hb))]
      exact hab
    · intro a ha b hb
      rw [List.mem_singleton] at hb
      subst hb
      rw [Dict.at_insert_ne (hne (h.known a ha))]
      have := h.frontier_depth ha
      rw [Dict.at_insert_self]
      omega
  · intro s l' t' hd
    obtain ⟨h1, h2, h3⟩ := h.step s l' t' hd
    exact ⟨h1, (AList.mem_insert _).mpr (.inr h2), (AList.mem_insert _).mpr (.inr h3)⟩
  · intro s hm hfr l' t' hst
    rw [← List.cons_append, List.mem_append, List.mem_singleton] at hfr
    rcases (AList.mem_insert _).mp hm with rfl | hm
    · exact absurd (.inr rfl) hfr
    · exact h.complete s hm (fun hf => hfr (.inl hf)) l' t' hst
  · intro e
    have hidx : ∀ {s l' t'}, Done s l' t' →
        edge (Dict.at (st.index.insert t st.index.entries.length) s) l'
          (Dict.at (st.index.insert t st.index.entries.length) t')
          = edge (Dict.at st.index s) l' (Dict.at st.index t') := by
      intro s l' t' hd
      obtain ⟨_, h2, h3⟩ := h.step s l' t' hd
      rw [Dict.at_insert_ne (hne h2), Dict.at_insert_ne (hne h3)]
    show e ∈ st.edges ↔ _
    rw [h.edges]
    constructor
    · rintro ⟨s, l', t', hd, rfl⟩
      exact ⟨s, l', t', hd, (hidx hd).symm⟩
    · rintro ⟨s, l', t', hd, rfl⟩
      exact ⟨s, l', t', hd, hidx hd⟩
  · show vs = [] ↔ _
    rw [hvs, h.violations]
    constructor
    · rintro ⟨⟨hi, hg⟩, hn⟩
      refine ⟨?_, hg⟩
      intro s hm
      rcases (AList.mem_insert _).mp hm with rfl | hm
      · exact hn
      · exact hi s hm
    · rintro ⟨hi, hg⟩
      exact ⟨⟨fun s hm => hi s ((AList.mem_insert _).mpr (.inr hm)), hg⟩,
        hi t ((AList.mem_insert _).mpr (.inl rfl))⟩

/-- **One visited transition keeps the invariant**, and changes neither
the number nor the depth of the state being expanded. -/
theorem Inv.visit (h : Inv sys st (q :: st.queue) Done) (hs : sys.Step q l t) :
    let st' := sys.visit q (Dict.at st.index q) (Dict.at st.depth q + 1) st (l, t)
    Inv sys st' (q :: st'.queue) (AndDone Done q l t) ∧
      Dict.at st'.index q = Dict.at st.index q ∧
      Dict.at st'.depth q = Dict.at st.depth q ∧
      st'.index.entries.length + st.queue.length
        = st.index.entries.length + st'.queue.length := by
  have hq := h.known q (List.mem_cons_self ..)
  by_cases ht : t ∈ st.depth
  · have hlook := Dict.lookup_of_mem (h.mem_index.mpr ht)
    simp only [System.visit, hlook]
    exact ⟨h.visit_known hs ht _ violations_append, trivial, trivial, trivial⟩
  · have hti : t ∉ st.index := fun hm => ht (h.mem_index.mp hm)
    have hlook : st.index.lookup t = none := AList.lookup_eq_none.mpr hti
    have hqt : q ≠ t := by
      rintro rfl
      exact ht hq
    simp only [System.visit, hlook]
    refine ⟨?_, Dict.at_insert_ne hqt, Dict.at_insert_ne hqt, ?_⟩
    · have hd := h.discover hs ht (st.violations ++
        (sys.invariants t).map (.invariant · st.index.entries.length)) violations_append
      have ht' : t ∈ st.depth.insert t (Dict.at st.depth q + 1) :=
        (AList.mem_insert _).mpr (.inl rfl)
      have hv := hd.visit_known hs ht' (st.violations ++
        (sys.guards l q t).map (.guard · (Dict.at st.index q) l) ++
          (sys.invariants t).map (.invariant · st.index.entries.length)) ?_
      · simp only [Dict.at_insert_ne hqt, Dict.at_insert_self] at hv
        exact ⟨hv.1, hv.2, hv.3, hv.4, hv.5, hv.6, hv.7, hv.8, hv.9, hv.10, hv.11⟩
      · simp only [violations_append]
        tauto
    · rw [AList.entries_insert_of_notMem hti, List.length_cons, List.length_append,
        List.length_singleton]
      omega

/-- Looking at a list of transitions out of `q`. -/
theorem Inv.visit_all {src d : Nat} : ∀ (lns : List (L × S)) {st : Search S L C}
    {Done : S → L → S → Prop}, Inv sys st (q :: st.queue) Done →
    Dict.at st.index q = src → Dict.at st.depth q + 1 = d →
    (∀ ln ∈ lns, ln ∈ sys.succs q) →
    let st' := lns.foldl (sys.visit q src d) st
    ∃ Done', Inv sys st' (q :: st'.queue) Done' ∧ (∀ ln ∈ lns, Done' q ln.1 ln.2) ∧
      (∀ s l t, Done s l t → Done' s l t) ∧
      st'.index.entries.length + st.queue.length
        = st.index.entries.length + st'.queue.length := by
  intro lns
  induction lns with
  | nil =>
    intro st Done h _ _ _
    exact ⟨Done, h, by simp, fun _ _ _ hd => hd, rfl⟩
  | cons ln lns ih =>
    intro st Done h hsrc hd hsub
    obtain ⟨l, t⟩ := ln
    have hs : sys.Step q l t := hsub (l, t) (List.mem_cons_self ..)
    obtain ⟨hv, hi, hdep, hlen⟩ := h.visit hs
    rw [hsrc, hd] at hv hi hdep hlen
    obtain ⟨Done', h', hall, hmono, hlen'⟩ := ih hv hi (by rw [hdep, hd])
      fun ln hln => hsub ln (List.mem_cons_of_mem _ hln)
    refine ⟨Done', h', ?_, fun s l' t' hd => hmono s l' t' (.inl hd), ?_⟩
    · intro ln hln
      rcases List.mem_cons.mp hln with rfl | hln
      · exact hmono q l t (.inr ⟨rfl, rfl, rfl⟩)
      · exact hall ln hln
    · simp only [List.foldl_cons]
      omega

end Visit

/-! ## One iteration -/

/-- A state whose transitions have all been looked at leaves the
frontier. -/
theorem Inv.drop {q : S} {rest : List S} (h : Inv sys st (q :: rest) Done)
    (hall : ∀ l t, sys.Step q l t → Done q l t) : Inv sys st rest Done where
  started := h.started
  dist := h.dist
  keys := h.keys
  numbered := h.numbered
  nodup := (List.nodup_cons.mp h.nodup).2
  known := fun s hs => h.known s (List.mem_cons_of_mem _ hs)
  ordered := (List.pairwise_cons.mp h.ordered).2
  step := h.step
  complete := by
    intro s hs hfr l t hst
    by_cases hq : s = q
    · subst hq
      exact hall l t hst
    · exact h.complete s hs (by simp [hq, hfr]) l t hst
  edges := h.edges
  violations := h.violations

/-- The invariant between iterations. -/
def Good (sys : System S L C) (st : Search S L C) : Prop :=
  ∃ Done, Inv sys st st.queue Done

theorem Inv.set_aborted (h : Inv sys st frontier Done) (b : Bool) :
    Inv sys { st with aborted := b } frontier Done :=
  ⟨h.1, h.2, h.3, h.4, h.5, h.6, h.7, h.8, h.9, h.10, h.11⟩

theorem Inv.set_queue (h : Inv sys st frontier Done) (q : List S) :
    Inv sys { st with queue := q } frontier Done :=
  ⟨h.1, h.2, h.3, h.4, h.5, h.6, h.7, h.8, h.9, h.10, h.11⟩

/-- **One iteration** keeps the invariant and takes one more state off
the queue for good. -/
theorem Good.expand {q : S} {rest : List S} (h : Good sys st) (hq : st.queue = q :: rest)
    (b : Bool) :
    let st' := sys.expand q { st with queue := rest }
    Good sys { st' with aborted := b } ∧
      st'.index.entries.length + rest.length
        = st.index.entries.length + st'.queue.length := by
  obtain ⟨Done, hi⟩ := h
  rw [hq] at hi
  obtain ⟨Done', h', hall, _, hlen⟩ :=
    Inv.visit_all (sys.succs q) (hi.set_queue rest) rfl rfl fun _ h => h
  refine ⟨⟨Done', ?_⟩, hlen⟩
  exact (h'.drop fun l t hs => hall (l, t) hs).set_aborted b

theorem good_begin (sys : System S L C) : Good sys sys.begin := by
  refine ⟨fun _ _ _ => False, ?_⟩
  have hmem : ∀ s, s ∈ sys.begin.depth ↔ s = sys.start := by
    intro s
    simp [System.begin, AList.mem_keys]
  constructor
  · simp [System.begin]
  · intro s hs
    obtain rfl := (hmem s).mp hs
    simpa [Dict.at, System.begin] using Dist.zero sys.start
  · rfl
  · rfl
  · simp [System.begin]
  · simp [System.begin, AList.mem_keys]
  · simp [System.begin]
  · exact fun _ _ _ h => h.elim
  · intro s hs hfr
    exact absurd ((hmem s).mp hs) (by simpa [System.begin] using hfr)
  · simp [System.begin]
  · rw [show sys.begin.violations = [] ↔ sys.invariants sys.start = [] from by
      simp [System.begin]]
    constructor
    · intro h
      refine ⟨fun s hs => ?_, fun _ _ _ h => h.elim⟩
      obtain rfl := (hmem s).mp hs
      exact h
    · exact fun h => h.1 _ ((hmem _).mpr rfl)

/-! ## The loop -/

theorem loop_good {m : Option Int} : ∀ {fuel : Nat} {st r : Search S L C},
    Good sys st → sys.loop m fuel st = some r →
    Good sys r ∧ (r.aborted = false → r.queue = []) := by
  intro fuel
  induction fuel with
  | zero => intro st r _ h; cases h
  | succ fuel ih =>
    intro st r hg h
    rw [System.loop] at h
    split at h
    · rename_i hab
      cases h
      exact ⟨hg, fun hf => by simp [hf] at hab⟩
    · split at h
      · rename_i hq
        cases h
        exact ⟨hg, fun _ => hq⟩
      · rename_i q rest hq
        exact ih (hg.expand hq _).1 h

theorem Good.size_le (h : Good sys st) (hfin : {s | Reachable sys.Step sys.start s}.Finite) :
    st.index.entries.length ≤ hfin.toFinset.card ∧
      st.queue.length ≤ st.index.entries.length := by
  obtain ⟨Done, hi⟩ := h
  have hlen : st.index.keys.length = st.index.entries.length := by
    simp [AList.keys, List.keys]
  rw [← hlen]
  constructor
  · rw [← List.toFinset_card_of_nodup st.index.keys_nodup]
    refine Finset.card_le_card ?_
    intro s hs
    rw [List.mem_toFinset, ← AList.mem_keys, hi.mem_index] at hs
    exact hfin.mem_toFinset.mpr (hi.dist s hs).reachable
  · rw [← List.toFinset_card_of_nodup hi.nodup,
      ← List.toFinset_card_of_nodup st.index.keys_nodup]
    refine Finset.card_le_card ?_
    intro s hs
    rw [List.mem_toFinset, ← AList.mem_keys, hi.mem_index]
    exact hi.known s (List.mem_toFinset.mp hs)

/-- **Termination**: with finitely many reachable states, fuel above the
number of those not yet expanded is enough. -/
theorem loop_returns (m : Option Int)
    (hfin : {s | Reachable sys.Step sys.start s}.Finite) :
    ∀ (fuel : Nat) (st : Search S L C), Good sys st →
      hfin.toFinset.card + st.queue.length < fuel + st.index.entries.length →
      ∃ r, sys.loop m fuel st = some r := by
  intro fuel
  induction fuel with
  | zero =>
    intro st hg hlt
    have := hg.size_le hfin
    omega
  | succ fuel ih =>
    intro st hg hlt
    rw [System.loop]
    split
    · exact ⟨st, rfl⟩
    · split
      · exact ⟨st, rfl⟩
      · rename_i q rest hq
        obtain ⟨hg', hlen⟩ := hg.expand hq
          ((sys.expand q { st with queue := rest }).over m)
        refine ih _ hg' ?_
        rw [hq, List.length_cons] at hlt
        simp only
        omega

/-- More fuel changes nothing once the loop has returned. -/
theorem loop_mono {m : Option Int} : ∀ {fuel : Nat} {st r : Search S L C} (k : Nat),
    sys.loop m fuel st = some r → sys.loop m (fuel + k) st = some r := by
  intro fuel
  induction fuel with
  | zero => intro st r k h; cases h
  | succ fuel ih =>
    intro st r k h
    rw [Nat.succ_add]
    rw [System.loop] at h ⊢
    split at h
    · rename_i hab
      rw [if_pos hab]
      exact h
    · rename_i hab
      rw [if_neg hab]
      split at h
      · exact h
      · exact ih k h

/-! ## What is returned -/

/-- The search returns `r`, whatever fuel from some amount on. -/
def System.Returns (sys : System S L C) (m : Option Int) (r : Found S L C) : Prop :=
  ∃ n, ∀ fuel, n ≤ fuel → sys.explore m fuel = some r

theorem explore_returns (sys : System S L C) (m : Option Int)
    (hfin : {s | Reachable sys.Step sys.start s}.Finite) : ∃ r, sys.Returns m r := by
  obtain ⟨st, hst⟩ := loop_returns m hfin (hfin.toFinset.card + 1) sys.begin
    (good_begin sys) (by simp [System.begin])
  refine ⟨st.found, hfin.toFinset.card + 1, fun fuel hle => ?_⟩
  have := loop_mono (fuel - (hfin.toFinset.card + 1)) hst
  rw [Nat.add_sub_cancel' hle] at this
  rw [System.explore, this]
  rfl

theorem System.Returns.unique {m : Option Int} {r r' : Found S L C}
    (h : sys.Returns m r) (h' : sys.Returns m r') : r = r' := by
  obtain ⟨n, hn⟩ := h
  obtain ⟨n', hn'⟩ := h'
  have h1 := hn (max n n') (Nat.le_max_left ..)
  rw [hn' (max n n') (Nat.le_max_right ..)] at h1
  exact (Option.some.inj h1).symm

/-- Everything recorded is real: states at their distance, numbered
`0..N-1`, real transitions listed once each in increasing order. -/
structure Found.Sound (sys : System S L C) (r : Found S L C) : Prop where
  depth : ∀ s n, r.states.lookup s = some n → Dist sys.Step sys.start n s
  index : ∀ s, s ∈ r.index ↔ s ∈ r.states
  numbering : Set.BijOn (Dict.at r.index) {s | s ∈ r.states}
    (Set.Iio r.states.entries.length)
  sorted : r.transitions.Pairwise (· < ·)
  edges : ∀ e ∈ r.transitions, ∃ s l t, s ∈ r.states ∧ t ∈ r.states ∧ sys.Step s l t ∧
    e = edge (Dict.at r.index s) l (Dict.at r.index t)
  maxDepth : IsGreatest {n | ∃ s, r.states.lookup s = some n} r.maxDepth
  clean : (∀ s, Reachable sys.Step sys.start s → sys.invariants s = []) →
    (∀ s l t, Reachable sys.Step sys.start s → sys.Step s l t → sys.guards l s t = []) →
    r.violations = []

/-- Everything there is has been recorded. -/
structure Found.Complete (sys : System S L C) (r : Found S L C) : Prop where
  states : ∀ s n, Dist sys.Step sys.start n s → r.states.lookup s = some n
  edges : ∀ s l t, Reachable sys.Step sys.start s → sys.Step s l t →
    edge (Dict.at r.index s) l (Dict.at r.index t) ∈ r.transitions
  violations : r.violations = [] ↔
    (∀ s, Reachable sys.Step sys.start s → sys.invariants s = []) ∧
      ∀ s l t, Reachable sys.Step sys.start s → sys.Step s l t → sys.guards l s t = []

theorem Inv.sizes (h : Inv sys st frontier Done) :
    st.index.entries.length = st.depth.entries.length := by
  have := congrArg List.length h.keys
  simpa [AList.keys, List.keys] using this

theorem Inv.numbering (h : Inv sys st frontier Done) :
    Set.BijOn (Dict.at st.index) {s | s ∈ st.depth} (Set.Iio st.depth.entries.length) := by
  have hentry : ∀ {s}, s ∈ st.depth →
      (⟨s, Dict.at st.index s⟩ : Sigma fun _ : S => Nat) ∈ st.index.entries := by
    intro s hs
    exact AList.mem_lookup_iff.mp (Dict.lookup_of_mem (h.mem_index.mpr hs))
  have hval : ∀ n, n ∈ Dict.values st.index ↔ n < st.depth.entries.length := by
    intro n
    rw [h.numbered, List.mem_reverse, List.mem_range, h.sizes]
  refine ⟨?_, ?_, ?_⟩
  · intro s hs
    exact (hval _).mp (List.mem_map_of_mem (hentry hs))
  · intro s hs t ht heq
    have hnd : (Dict.values st.index).Nodup := by
      rw [h.numbered]
      exact List.nodup_reverse.mpr List.nodup_range
    have := List.inj_on_of_nodup_map hnd (hentry hs) (hentry ht) heq
    exact congrArg Sigma.fst this
  · intro n hn
    obtain ⟨⟨s, k⟩, hmem, rfl⟩ := List.mem_map.mp ((hval n).mpr hn)
    have hl := AList.mem_lookup_iff.mpr hmem
    have hs := h.mem_index.mp (Dict.mem_of_lookup hl)
    refine ⟨s, hs, ?_⟩
    have hl' : st.index.lookup s = some k := hl
    simp [Dict.at, hl']

theorem foldr_max_isGreatest : ∀ {ns : List Nat}, ns ≠ [] →
    IsGreatest {n | n ∈ ns} (ns.foldr max 0) := by
  intro ns
  induction ns with
  | nil => intro h; exact absurd rfl h
  | cons n ns ih =>
    intro _
    rw [List.foldr_cons]
    by_cases hns : ns = []
    · subst hns
      refine ⟨by simp, ?_⟩
      intro m hm
      simpa using (List.mem_singleton.mp hm).le
    · obtain ⟨hmem, hub⟩ := ih hns
      constructor
      · rcases max_choice n (ns.foldr max 0) with h | h
        · rw [h]
          exact List.mem_cons_self ..
        · rw [h]
          exact List.mem_cons_of_mem _ hmem
      · intro m hm
        rcases List.mem_cons.mp hm with rfl | hm
        · exact le_max_left ..
        · exact le_trans (hub hm) (le_max_right ..)

theorem Inv.max_depth (h : Inv sys st frontier Done) :
    IsGreatest {n | ∃ s, st.depth.lookup s = some n}
      ((Dict.values st.depth).foldr max 0) := by
  have hset : {n | ∃ s, st.depth.lookup s = some n} = {n | n ∈ Dict.values st.depth} := by
    ext n
    constructor
    · rintro ⟨s, hs⟩
      exact List.mem_map.mpr ⟨⟨s, n⟩, AList.mem_lookup_iff.mp hs, rfl⟩
    · intro hn
      obtain ⟨⟨s, k⟩, hmem, rfl⟩ := List.mem_map.mp hn
      exact ⟨s, AList.mem_lookup_iff.mpr hmem⟩
  rw [hset]
  refine foldr_max_isGreatest ?_
  have := AList.mem_lookup_iff.mp h.started
  exact List.ne_nil_of_mem (List.mem_map_of_mem this)

theorem Good.sound (h : Good sys st) : st.found.Sound sys := by
  obtain ⟨Done, hi⟩ := h
  refine ⟨?_, fun s => hi.mem_index, hi.numbering, ?_, ?_, hi.max_depth, ?_⟩
  · intro s n hn
    have hs := Dict.mem_of_lookup hn
    have hn' : st.depth.lookup s = some n := hn
    have := hi.dist s hs
    rwa [Dict.at, hn', Option.getD_some] at this
  · exact Finset.sortedLT_sort _ |>.pairwise
  · intro e he
    obtain ⟨s, l, t, hd, rfl⟩ := (hi.edges e).mp ((Finset.mem_sort _).mp he)
    obtain ⟨hs, hm, hm'⟩ := hi.step s l t hd
    exact ⟨s, l, t, hm, hm', hs, rfl⟩
  · intro hinv hg
    refine hi.violations.mpr ⟨fun s hs => hinv s (hi.dist s hs).reachable, fun s l t hd => ?_⟩
    obtain ⟨hs, hm, _⟩ := hi.step s l t hd
    exact hg s l t (hi.dist s hm).reachable hs

/-- With an empty queue nothing is left on the frontier, so the recorded
states are closed under the steps. -/
theorem Good.complete (h : Good sys st) (hq : st.queue = []) :
    st.found.Complete sys := by
  obtain ⟨Done, hi⟩ := h
  rw [hq] at hi
  have hmem : ∀ {s}, Reachable sys.Step sys.start s → s ∈ st.depth := by
    rintro s ⟨ls, hr⟩
    rcases hi.frontier_bound hr with ⟨hs, _⟩ | ⟨f, hf, _⟩
    · exact hs
    · exact absurd hf List.not_mem_nil
  have hdone : ∀ {s l t}, Reachable sys.Step sys.start s → sys.Step s l t → Done s l t :=
    fun hr hs => hi.complete _ (hmem hr) List.not_mem_nil _ _ hs
  refine ⟨?_, ?_, ?_⟩
  · intro s n hn
    have hs := hmem hn.reachable
    rw [show st.found.states = st.depth from rfl, Dict.lookup_of_mem hs,
      (hi.dist s hs).unique hn]
  · intro s l t hr hs
    exact (Finset.mem_sort _).mpr ((hi.edges _).mpr ⟨s, l, t, hdone hr hs, rfl⟩)
  · show st.violations = [] ↔ _
    rw [hi.violations]
    constructor
    · rintro ⟨h1, h2⟩
      exact ⟨fun s hr => h1 s (hmem hr), fun s l t hr hs => h2 s l t (hdone hr hs)⟩
    · rintro ⟨h1, h2⟩
      refine ⟨fun s hs => h1 s (hi.dist s hs).reachable, fun s l t hd => ?_⟩
      obtain ⟨hs, hm, _⟩ := hi.step s l t hd
      exact h2 s l t (hi.dist s hm).reachable hs

/-- **Soundness**: whatever the search returns is real, and if it did not
give up it is everything. -/
theorem System.Returns.sound {m : Option Int} {r : Found S L C} (h : sys.Returns m r) :
    r.Sound sys ∧ (r.aborted = false → r.Complete sys) := by
  obtain ⟨n, hn⟩ := h
  have hr := hn n (Nat.le_refl n)
  rw [System.explore, Option.map_eq_some_iff] at hr
  obtain ⟨st, hst, rfl⟩ := hr
  obtain ⟨hg, hq⟩ := loop_good (good_begin sys) hst
  exact ⟨hg.sound, fun hab => hg.complete (hq hab)⟩

/-- Without a bound the search never gives up. -/
theorem loop_not_aborted : ∀ {fuel : Nat} {st r : Search S L C}, st.aborted = false →
    sys.loop none fuel st = some r → r.aborted = false := by
  intro fuel
  induction fuel with
  | zero => intro st r _ h; cases h
  | succ fuel ih =>
    intro st r hab h
    rw [System.loop, if_neg (by simp [hab])] at h
    split at h
    · cases h
      exact hab
    · exact ih rfl h

/-- With a bound it gives up only once it has numbered more states. -/
theorem loop_aborted {m : Option Int} : ∀ {fuel : Nat} {st r : Search S L C},
    (st.aborted = true → st.over m = true) → sys.loop m fuel st = some r → r.aborted = true →
    r.over m = true := by
  intro fuel
  induction fuel with
  | zero => intro st r _ h; cases h
  | succ fuel ih =>
    intro st r hover h
    rw [System.loop] at h
    split at h
    · cases h
      exact hover
    · split at h
      · cases h
        exact hover
      · exact ih (fun hab => hab) h

/-- **A bound that the system stays within is none.** -/
theorem System.Returns.complete_of_card_le {m : Int} {r : Found S L C}
    (h : sys.Returns (some m) r) (hfin : {s | Reachable sys.Step sys.start s}.Finite)
    (hm : (hfin.toFinset.card : Int) ≤ m) : r.aborted = false ∧ r.Complete sys := by
  have hc := h.sound.2
  obtain ⟨n, hn⟩ := h
  have hr := hn n (Nat.le_refl n)
  rw [System.explore, Option.map_eq_some_iff] at hr
  obtain ⟨st, hst, rfl⟩ := hr
  have hsize := ((loop_good (good_begin sys) hst).1.size_le hfin).1
  have hab : st.found.aborted = false := by
    by_contra hne
    have hover := loop_aborted (m := some m) (fun h => Bool.noConfusion h) hst
      (Bool.eq_true_of_not_eq_false hne)
    simp [Search.over] at hover
    omega
  exact ⟨hab, hc hab⟩

theorem System.Returns.complete {r : Found S L C} (h : sys.Returns none r) :
    r.aborted = false ∧ r.Complete sys := by
  obtain ⟨hs, hc⟩ := h.sound
  obtain ⟨n, hn⟩ := h
  have hr := hn n (Nat.le_refl n)
  rw [System.explore, Option.map_eq_some_iff] at hr
  obtain ⟨st, hst, rfl⟩ := hr
  have hab : st.found.aborted = false := loop_not_aborted rfl hst
  exact ⟨hab, hc hab⟩

end QkdEkm.Lib
