import QkdEkm.Model.Report

/-!
# Rows — what the files of the enumeration say

`states.csv` holds a row for every numbered state. The rows of the
calibrated model identify its states: pool and bindings are joined texts
that can be taken apart again, the bindings tell an absent version from
an empty one, and the columns that are not written never vary.
-/

namespace QkdEkm.Model

open QkdEkm.Lib

/-- The text of a binding. -/
def bindingText : Binding → String
  | (k, .ekm v) => k ++ ":" ++ "ekm" ++ ":" ++ v
  | (k, .vpn e) => k ++ ":" ++ "vpn" ++ ":" ++ toString e

/-- The text of a session. -/
def sessionText : Option (String × Nat) → String
  | some (k, e) => k ++ ":" ++ toString e
  | none => ""

theorem trans_text : IsTrans String (· ≤ ·) := inferInstance

theorem antisymm_text : Std.Antisymm (α := String) (· ≤ ·) := inferInstance

theorem total_text : Std.Total (α := String) (· ≤ ·) := inferInstance

/-- `sorted(texts)`. -/
def sorted (texts : Multiset String) : List String :=
  @Multiset.sort String texts (· ≤ ·) _ trans_text antisymm_text total_text

@[simp] theorem coe_sorted (texts : Multiset String) : (sorted texts : Multiset String) = texts :=
  Multiset.sort_eq _ _

theorem mem_sorted {texts : Multiset String} {x : String} : x ∈ sorted texts ↔ x ∈ texts :=
  Multiset.mem_sort _

/-- `int(b)`. -/
def bit (b : Bool) : Nat := if b then 1 else 0

/-- The columns that describe a state. -/
structure Columns where
  sq : Nat
  se : Nat
  pool : String
  bindings : String
  ke : String
  kp : String
  kv : String
  epoch : Nat
  authority : Nat
  recovery : Nat
  mode : String
  storage : Nat
  freshAllocation : Nat
  establishedVpn : String
  deriving DecidableEq

structure Row extends Columns where
  id : Nat
  depth : Nat
  deriving DecidableEq

def columns (s : State) : Columns where
  sq := bit s.sq
  se := bit s.se
  pool := "|".intercalate (sorted s.pool.val)
  bindings := "|".intercalate (sorted (s.bindings.val.map bindingText))
  ke := s.ke.getD ""
  kp := sessionText s.kp
  kv := sessionText s.kv
  epoch := s.epoch
  authority := bit s.authority
  recovery := bit s.recovery
  mode := modeName (mode s)
  storage := bit (consequences s).storage
  freshAllocation := bit (consequences s).freshAllocation
  establishedVpn := (consequences s).establishedVpn

/-- The rows of `states.csv`, without its header. -/
def statesCsv (result : Found State String Check) : List Row :=
  (sortBy Prod.snd result.index.items).map fun (s, i) =>
    { columns s with id := i, depth := Dict.at result.states s }

/-! ## Reading the columns back -/

theorem bit_inj {a b : Bool} (h : bit a = bit b) : a = b := by
  cases a <;> cases b <;> first | rfl | cases h

theorem bindingText_inj {b b' : Binding} (hk : ':' ∉ b.1.toList) (hk' : ':' ∉ b'.1.toList)
    (h : bindingText b = bindingText b') : b = b' := by
  obtain ⟨k, t⟩ := b
  obtain ⟨k', t'⟩ := b'
  have hcut : ∀ {p p' o o' : String}, ':' ∉ p.toList → ':' ∉ p'.toList →
      k ++ ":" ++ p ++ ":" ++ o = k' ++ ":" ++ p' ++ ":" ++ o' → k = k' ∧ p = p' ∧ o = o' := by
    intro p p' o o' hp hp' heq
    have hassoc : k ++ ":" ++ (p ++ ":" ++ o) = k' ++ ":" ++ (p' ++ ":" ++ o') := by
      simpa only [String.append_assoc] using heq
    obtain ⟨hkk, hrest⟩ := append_colon_inj hk hk' hassoc
    exact ⟨hkk, append_colon_inj hp hp' hrest⟩
  cases t with
  | ekm v =>
    cases t' with
    | ekm v' =>
      obtain ⟨rfl, _, rfl⟩ := hcut (by decide) (by decide) h
      rfl
    | vpn e' => exact absurd (hcut (by decide) (by decide) h).2.1 (by decide)
  | vpn e =>
    cases t' with
    | ekm v' => exact absurd (hcut (by decide) (by decide) h).2.1 (by decide)
    | vpn e' =>
      obtain ⟨rfl, _, ho⟩ := hcut (by decide) (by decide) h
      rw [toString_nat_inj.mp ho]

theorem sessionText_inj {p p' : Option (String × Nat)} (hp : ∀ k e, p = some (k, e) → ':' ∉ k.toList)
    (hp' : ∀ k e, p' = some (k, e) → ':' ∉ k.toList) (h : sessionText p = sessionText p') :
    p = p' := by
  have hnone : ∀ (k : String) (e : Nat), k ++ ":" ++ toString e ≠ "" := by
    intro k e heq
    simpa using congrArg String.toList heq
  cases p with
  | none =>
    cases p' with
    | none => rfl
    | some q' => exact absurd h.symm (hnone q'.1 q'.2)
  | some q =>
    cases p' with
    | none => exact absurd h (hnone q.1 q.2)
    | some q' =>
      obtain ⟨hk, he⟩ := append_colon_inj (hp q.1 q.2 rfl) (hp' q'.1 q'.2 rfl) h
      rw [Prod.ext hk (toString_nat_inj.mp he)]

/-- Identifiers and versions that can be joined and taken apart. -/
structure Domain.Writable (dom : Domain) : Prop where
  nonempty : ∀ k ∈ dom.ids, k ≠ ""
  no_colon : ∀ k ∈ dom.ids, ':' ∉ k.toList
  no_bar : ∀ k ∈ dom.ids, '|' ∉ k.toList
  no_bar_version : ∀ v ∈ dom.versions, '|' ∉ v.toList

section

variable {dom : Domain} {s s' : State}

theorem bindingText_writable (hw : dom.Writable) (h : Shape dom s) {b : Binding}
    (hb : b ∈ s.bindings) : bindingText b ≠ "" ∧ '|' ∉ (bindingText b).toList := by
  obtain ⟨k, t⟩ := b
  have hk := hw.no_bar k (h.bound_ids k t hb)
  cases t with
  | ekm v =>
    have hv := hw.no_bar_version v (h.bound_versions k v hb)
    constructor
    · intro heq
      simpa [bindingText] using congrArg String.toList heq
    · simp [bindingText, hk, hv]
  | vpn e =>
    have he : '|' ∉ Nat.toDigits 10 e := fun hm =>
      absurd (Nat.isDigit_of_mem_toDigits (by decide) (by decide) hm) (by decide)
    constructor
    · intro heq
      simpa [bindingText] using congrArg String.toList heq
    · simp [bindingText, hk, he]

theorem pool_of_columns (hw : dom.Writable) (h : Shape dom s) (h' : Shape dom s')
    (heq : (columns s).pool = (columns s').pool) : s.pool = s'.pool := by
  have hwritable : ∀ {s : State}, Shape dom s →
      ∀ k ∈ sorted s.pool.val, k ≠ "" ∧ '|' ∉ k.toList := fun h k hk =>
    have hid := h.pool_ids k (mem_sorted.mp hk)
    ⟨hw.nonempty k hid, hw.no_bar k hid⟩
  have hsort := intercalate_inj (by decide) (hwritable h) (hwritable h') heq
  rw [← Finset.val_inj, ← coe_sorted s.pool.val, hsort, coe_sorted]

theorem bindings_of_columns (hw : dom.Writable) (h : Shape dom s) (h' : Shape dom s')
    (heq : (columns s).bindings = (columns s').bindings) : s.bindings = s'.bindings := by
  have hwritable : ∀ {s : State}, Shape dom s →
      ∀ x ∈ sorted (s.bindings.val.map bindingText), x ≠ "" ∧ '|' ∉ x.toList := by
    intro s h x hx
    obtain ⟨b, hb, rfl⟩ := Multiset.mem_map.mp (mem_sorted.mp hx)
    exact bindingText_writable hw h hb
  have hsort := intercalate_inj (by decide) (hwritable h) (hwritable h') heq
  have htexts : s.bindings.val.map bindingText = s'.bindings.val.map bindingText := by
    rw [← coe_sorted (s.bindings.val.map bindingText), hsort, coe_sorted]
  -- one way, for either of the two
  have hsub : ∀ {s s' : State}, Shape dom s → Shape dom s' →
      s.bindings.val.map bindingText = s'.bindings.val.map bindingText →
      s.bindings ⊆ s'.bindings := by
    intro s s' h h' heq b hb
    have hm : bindingText b ∈ s'.bindings.val.map bindingText :=
      heq ▸ Multiset.mem_map_of_mem _ hb
    obtain ⟨b', hb', htext⟩ := Multiset.mem_map.mp hm
    have hid := hw.no_colon _ (h.bound_ids _ _ hb)
    have hid' := hw.no_colon _ (h'.bound_ids _ _ hb')
    rw [bindingText_inj hid hid' htext.symm]
    exact hb'
  exact Finset.Subset.antisymm (hsub h h' htexts) (hsub h' h htexts.symm)

/-- An empty version is told from none by its binding. -/
theorem version_of_columns {bound : Finset Binding} {ke ke' : Option String}
    (h : ActiveVersion bound ke) (h' : ActiveVersion bound ke') (heq : ke.getD "" = ke'.getD "") :
    ke = ke' := by
  cases ke with
  | none =>
    cases ke' with
    | none => rfl
    | some v' =>
      obtain ⟨k, hk⟩ := h'
      exact absurd hk (h k v')
  | some v =>
    cases ke' with
    | none =>
      obtain ⟨k, hk⟩ := h
      exact absurd hk (h' k v)
    | some v' => exact congrArg some heq

/-- **The columns identify a calibrated state.** -/
theorem columns_inj (hw : dom.Writable) (h : Shape dom s) (h' : Shape dom s')
    (heq : columns s = columns s') : s = s' := by
  have hbindings := bindings_of_columns hw h h' (congrArg Columns.bindings heq)
  have hke : s.ke = s'.ke :=
    version_of_columns (hbindings ▸ h.version) h'.version (congrArg Columns.ke heq)
  have hids : ∀ {s : State}, Shape dom s → ∀ k e, s.kp = some (k, e) → ':' ∉ k.toList := by
    intro s h k e hkp
    have hctl := (inv_reached (reached_iff.mpr h)).control
    exact hw.no_colon k (h.bound_ids k _ (hctl.kp_bound k e hkp).1)
  have hkp := sessionText_inj (hids h) (hids h') (congrArg Columns.kp heq)
  refine (code_bijOn dom).injOn h h' ?_
  simp only [code, hbindings, pool_of_columns hw h h' (congrArg Columns.pool heq), hke, hkp,
    bit_inj (congrArg Columns.sq heq), bit_inj (congrArg Columns.se heq),
    bit_inj (congrArg Columns.authority heq), bit_inj (congrArg Columns.recovery heq)]

end

/-! ## The rows of a result -/

section

variable {dom : Domain} {rules : Rules} {r : Found State String Check}

theorem ExactResult.mem_index (h : ExactResult dom rules r) {s : State} {i : Nat} :
    (s, i) ∈ r.index.items ↔ Reached dom rules s ∧ i = Dict.at r.index s := by
  rw [Dict.mem_items]
  constructor
  · intro hl
    have hs := Dict.mem_of_lookup hl
    rw [Dict.lookup_of_mem hs] at hl
    exact ⟨(h.index_keys s).mp hs, (Option.some.inj hl).symm⟩
  · rintro ⟨hs, rfl⟩
    exact Dict.lookup_of_mem ((h.index_keys s).mpr hs)

/-- The rows are numbered from zero in their order. -/
theorem ExactResult.row_ids (h : ExactResult dom rules r) :
    (statesCsv r).map Row.id = List.range r.states.entries.length := by
  have hitems : r.index.items.Nodup := (Dict.nodupKeys_items _).of_map
  have hnodup : (r.index.items.map Prod.snd).Nodup := by
    refine hitems.map_on ?_
    rintro ⟨s, i⟩ hm ⟨s', i'⟩ hm' heq
    obtain ⟨hs, rfl⟩ := h.mem_index.mp hm
    obtain ⟨hs', rfl⟩ := h.mem_index.mp hm'
    rw [h.index.injOn hs hs' heq]
  have hperm : (r.index.items.map Prod.snd).Perm (List.range r.states.entries.length) := by
    refine (List.perm_ext_iff_of_nodup hnodup List.nodup_range).mpr fun i => ?_
    rw [List.mem_map, List.mem_range]
    constructor
    · rintro ⟨⟨s, i⟩, hm, rfl⟩
      obtain ⟨hs, hi⟩ := h.mem_index.mp hm
      exact hi ▸ h.index.mapsTo hs
    · intro hi
      obtain ⟨s, hs, rfl⟩ := h.index.surjOn hi
      exact ⟨(s, _), h.mem_index.mpr ⟨hs, rfl⟩, rfl⟩
  have hids : (statesCsv r).map Row.id = (sortBy Prod.snd r.index.items).map Prod.snd := by
    rw [statesCsv, List.map_map]
    rfl
  rw [hids]
  refine List.Perm.eq_of_pairwise ?_ (List.pairwise_map.mpr sortBy_sorted)
    (List.pairwise_lt_range.imp le_of_lt) ((sortBy_perm.map _).trans hperm)
  exact fun a b _ _ hab hba => le_antisymm hab hba

theorem mem_statesCsv (h : ExactResult dom rules r) {row : Row} :
    row ∈ statesCsv r ↔ ∃ s, Reached dom rules s ∧
      row = { columns s with id := Dict.at r.index s, depth := Dict.at r.states s } := by
  simp only [statesCsv, List.mem_map, sortBy_perm.mem_iff, Prod.exists, h.mem_index]
  constructor
  · rintro ⟨s, i, ⟨hs, rfl⟩, rfl⟩
    exact ⟨s, hs, rfl⟩
  · rintro ⟨s, hs, rfl⟩
    exact ⟨s, _, ⟨hs, rfl⟩, rfl⟩

end

/-- **The rows identify the states.** For identifiers that are not empty
and hold no separator, `states.csv` of the calibrated model numbers its
rows from zero in their order, has a row for every reachable state with
its distance, and no two rows describe the same state. -/
theorem states_csv (dom : Domain) (hw : dom.Writable) :
    ∃ r, RunReturns dom defaultRules none r ∧
      (statesCsv r).map Row.id = List.range r.states.entries.length ∧
      (∀ s, Reached dom defaultRules s → ∃ row ∈ statesCsv r, row.toColumns = columns s ∧
        row.id = Dict.at r.index s ∧ Dist (Fires dom defaultRules) initial row.depth s) ∧
      (statesCsv r).Pairwise fun row row' => row.toColumns ≠ row'.toColumns := by
  obtain ⟨r, hr⟩ := run_returns dom defaultRules none
  have hx := exact_of_returns hr
  refine ⟨r, hr, hx.row_ids, fun s hs => ?_, ?_⟩
  · obtain ⟨n, hn⟩ := hs.dist
    have hdepth : Dict.at r.states s = n := by simp [Dict.at, (hx.states s n).mpr hn]
    exact ⟨_, (mem_statesCsv hx).mpr ⟨s, hs, rfl⟩, rfl, rfl, hdepth.symm ▸ hn⟩
  · have hnodup : (statesCsv r).Nodup := List.Nodup.of_map Row.id (hx.row_ids ▸ List.nodup_range)
    refine hnodup.imp_of_mem fun {row row'} hrow hrow' hne heq => hne ?_
    obtain ⟨s, hs, rfl⟩ := (mem_statesCsv hx).mp hrow
    obtain ⟨s', hs', rfl⟩ := (mem_statesCsv hx).mp hrow'
    rw [columns_inj hw (reached_iff.mp hs) (reached_iff.mp hs') heq]

theorem states_csv_declared : ∃ r, RunReturns declared defaultRules none r ∧
    (statesCsv r).Pairwise fun row row' => row.toColumns ≠ row'.toColumns :=
  (states_csv declared ⟨by decide, by decide, by decide, by decide⟩).imp
    fun _ h => ⟨h.1, h.2.2.2⟩

end QkdEkm.Model
