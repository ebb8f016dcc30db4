import Mathlib.Data.List.AList

/-!
# Dict — dictionaries that remember insertion order

An association list with distinct keys, newest key first. Assigning to a
key that is there keeps its place (`assign`), as it does in a Python
`dict`; `AList.insert` would move it to the front.
-/

namespace QkdEkm.Lib

universe u v

/-- A dictionary with keys `K` and values `V`. -/
abbrev Dict (K : Type u) (V : Type v) := AList fun _ : K => V

namespace Dict

variable {K : Type u} {V : Type v}

/-- The items, oldest key first. -/
def items (d : Dict K V) : List (K × V) := d.entries.reverse.map fun s => (s.1, s.2)

variable [DecidableEq K]

/-- `d[k] = v`. -/
def assign (d : Dict K V) (k : K) (v : V) : Dict K V :=
  if k ∈ d then d.replace k v else d.insert k v

theorem mem_items {d : Dict K V} {k : K} {v : V} : (k, v) ∈ d.items ↔ d.lookup k = some v := by
  rw [← Option.mem_def, AList.mem_lookup_iff, items]
  constructor
  · intro h
    obtain ⟨⟨k', v'⟩, hm, ⟨⟩⟩ := List.mem_map.mp h
    exact List.mem_reverse.mp hm
  · intro h
    exact List.mem_map.mpr ⟨⟨k, v⟩, List.mem_reverse.mpr h, rfl⟩

theorem dlookup_kreplace (k k' : K) (v : V) (l : List (Σ _ : K, V)) :
    (List.kreplace k v l).dlookup k' =
      if k' = k then (l.dlookup k).map fun _ => v else l.dlookup k' := by
  induction l with
  | nil => simp [List.kreplace]
  | cons s l ih =>
    obtain ⟨a, b⟩ := s
    unfold List.kreplace at ih ⊢
    by_cases ha : k = a
    · subst ha
      rw [List.lookmap_cons_some _ _ (b := ⟨k, v⟩) (by simp)]
      by_cases hk : k' = k
      · subst hk
        simp
      · simp [hk, List.dlookup_cons_ne]
    · rw [List.lookmap_cons_none _ _ (by simp [ha])]
      by_cases hk : k' = a
      · subst hk
        simp [Ne.symm ha]
      · rw [List.dlookup_cons_ne _ _ hk, ih, List.dlookup_cons_ne _ _ ha,
          List.dlookup_cons_ne _ _ hk]

@[simp] theorem lookup_insert (d : Dict K V) (k k' : K) (v : V) :
    (d.insert k v).lookup k' = if k' = k then some v else d.lookup k' := by
  split
  · rename_i h
    exact h ▸ AList.lookup_insert d
  · rename_i h
    exact AList.lookup_insert_ne h

@[simp] theorem lookup_erase (d : Dict K V) (k k' : K) :
    (d.erase k).lookup k' = if k' = k then none else d.lookup k' := by
  split
  · rename_i h
    exact h ▸ AList.lookup_erase _ d
  · rename_i h
    exact AList.lookup_erase_ne h

/-- `for k in ks: del d[k]`. -/
theorem lookup_foldl_erase (ks : List K) (d : Dict K V) (k : K) :
    (ks.foldl (fun d k => d.erase k) d).lookup k = if k ∈ ks then none else d.lookup k := by
  induction ks generalizing d with
  | nil => simp
  | cons k' ks ih =>
    rw [List.foldl_cons, ih, lookup_erase]
    by_cases hk : k = k' <;> by_cases hks : k ∈ ks <;> simp [hk, hks]

@[simp] theorem lookup_assign (d : Dict K V) (k k' : K) (v : V) :
    (d.assign k v).lookup k' = if k' = k then some v else d.lookup k' := by
  unfold assign
  split
  · rename_i h
    obtain ⟨v', hv'⟩ := Option.isSome_iff_exists.mp (AList.lookup_isSome.mpr h)
    refine (dlookup_kreplace k k' v d.entries).trans ?_
    change (if _ then (d.lookup k).map _ else d.lookup k') = _
    rw [hv', Option.map_some]
  · exact lookup_insert d k k' v

/-- A key that was not there leaves no trace. -/
theorem erase_assign {d : Dict K V} {k : K} (hk : k ∉ d) (v : V) : (d.assign k v).erase k = d := by
  unfold assign
  rw [if_neg hk]
  refine AList.ext ?_
  rw [AList.insert_of_notMem hk]
  exact List.kerase_cons_eq rfl

/-- How often each key occurs: `d[k] = d.get(k, 0) + 1` for each of them. -/
def tally (ks : List K) : Dict K Nat :=
  ks.foldl (fun d k => d.assign k ((d.lookup k).getD 0 + 1)) ∅

theorem lookup_tally (ks : List K) (k : K) :
    (tally ks).lookup k = if ks.count k = 0 then none else some (ks.count k) := by
  -- over what has been counted before
  have hfold : ∀ (ks : List K) (d : Dict K Nat), ((ks.foldl (fun d k =>
      d.assign k ((d.lookup k).getD 0 + 1)) d).lookup k) =
        if ks.count k = 0 then d.lookup k else some ((d.lookup k).getD 0 + ks.count k) := by
    intro ks
    induction ks with
    | nil => simp
    | cons j ks ih =>
      intro d
      rw [List.foldl_cons, ih, lookup_assign]
      by_cases hj : k = j
      · subst hj
        by_cases hks : ks.count k = 0
        · simp [hks]
        · simp [hks]
          omega
      · simp [hj, List.count_cons_of_ne (Ne.symm hj)]
  simpa [tally] using hfold ks ∅

/-- `d.setdefault(k, v)`. -/
def setdefault (d : Dict K V) (k : K) (v : V) : Dict K V := if k ∈ d then d else d.insert k v

theorem items_insert {d : Dict K V} {k : K} (hk : k ∉ d) (v : V) :
    items (d.insert k v) = d.items ++ [(k, v)] := by
  rw [AList.insert_of_notMem hk]
  simp [items]

theorem mem_iff_items {d : Dict K V} {k : K} : k ∈ d ↔ ∃ v, (k, v) ∈ d.items := by
  simp only [mem_items, ← AList.lookup_isSome, Option.isSome_iff_exists]

theorem items_setdefault (d : Dict K V) (k : K) (v : V) :
    k ∈ d.setdefault k v ∧ ((k ∈ d ∧ (d.setdefault k v).items = d.items) ∨
      (k ∉ d ∧ (d.setdefault k v).items = d.items ++ [(k, v)])) := by
  unfold setdefault
  split
  · rename_i hk
    exact ⟨hk, .inl ⟨hk, rfl⟩⟩
  · rename_i hk
    exact ⟨AList.mem_insert _ |>.mpr (.inl rfl), .inr ⟨hk, items_insert hk v⟩⟩

omit [DecidableEq K] in
theorem nodupKeys_items (d : Dict K V) : (d.items.map Prod.fst).Nodup := by
  have h := d.nodupKeys
  unfold items
  rw [List.map_map, List.map_reverse, List.nodup_reverse]
  exact h

/-- **The first value for each key is kept**, in order. -/
theorem items_foldl_setdefault (key : V → K) (vs : List V) (d : Dict K V) :
    ∃ new, (vs.foldl (fun d v => d.setdefault (key v) v) d).items = d.items ++ new ∧
      (new.map Prod.snd).Sublist vs ∧ (∀ p ∈ new, p.1 = key p.2) ∧
      ∀ v ∈ vs, key v ∈ vs.foldl (fun d v => d.setdefault (key v) v) d := by
  induction vs generalizing d with
  | nil => exact ⟨[], by simp, List.Sublist.refl _, by simp, by simp⟩
  | cons v vs ih =>
    obtain ⟨new, hitems, hsub, hkeys, hall⟩ := ih (d.setdefault (key v) v)
    obtain ⟨hmem, hset⟩ := items_setdefault d (key v) v
    have hv : key v ∈ (v :: vs).foldl (fun d v => d.setdefault (key v) v) d := by
      obtain ⟨v', hv'⟩ := mem_iff_items.mp hmem
      exact mem_iff_items.mpr ⟨v', hitems ▸ List.mem_append_left _ hv'⟩
    have hall' : ∀ u ∈ v :: vs, key u ∈ (v :: vs).foldl (fun d v => d.setdefault (key v) v) d := by
      intro u hu
      rcases List.mem_cons.mp hu with rfl | hu
      · exact hv
      · exact hall u hu
    rcases hset with ⟨_, hsame⟩ | ⟨_, hnew⟩
    · exact ⟨new, by rw [List.foldl_cons, hitems, hsame], hsub.cons v, hkeys, hall'⟩
    · refine ⟨(key v, v) :: new, ?_, hsub.cons_cons v, ?_, hall'⟩
      · rw [List.foldl_cons, hitems, hnew, List.append_assoc]
        rfl
      · intro p hp
        rcases List.mem_cons.mp hp with rfl | hp
        · rfl
        · exact hkeys p hp

/-- Under an injective key this drops the repetitions and nothing else. -/
theorem values_foldl_setdefault {key : V → K} (hinj : Function.Injective key) (vs : List V) :
    let d := vs.foldl (fun d v => d.setdefault (key v) v) (∅ : Dict K V)
    (d.items.map Prod.snd).Nodup ∧ (∀ v, v ∈ d.items.map Prod.snd ↔ v ∈ vs) ∧
      (d.items.map Prod.snd).Sublist vs := by
  obtain ⟨new, hitems, hsub, hkeys, hall⟩ := items_foldl_setdefault key vs ∅
  dsimp only
  have hnodup := nodupKeys_items (vs.foldl (fun d v => d.setdefault (key v) v) (∅ : Dict K V))
  have hnil : items (∅ : Dict K V) = [] := rfl
  rw [hnil, List.nil_append] at hitems
  rw [hitems] at hnodup ⊢
  refine ⟨?_, fun v => ⟨fun hv => hsub.subset hv, fun hv => ?_⟩, hsub⟩
  · have hmap : new.map Prod.fst = (new.map Prod.snd).map key := by
      rw [List.map_map]
      exact List.map_congr_left hkeys
    exact List.Nodup.of_map key (hmap ▸ hnodup)
  · obtain ⟨v', hv'⟩ := mem_iff_items.mp (hall v hv)
    rw [hitems] at hv'
    exact List.mem_map.mpr ⟨_, hv', (hinj (hkeys _ hv')).symm⟩

end Dict

end QkdEkm.Lib
