import Mathlib.Data.Finset.Lattice.Lemmas
import QkdEkm.Qkdsim.App

/-!
# Retrieve — what a request for keys spends

`dec_keys` looks up, checks and marks the listed keys one after the
other. A list of distinct pending keys is answered whole; any other list
fails at its first bad entry, and what stands before that entry is
already spent.
-/

namespace QkdEkm.Qkdsim

open QkdEkm.Common QkdEkm.Lib

/-- The entry names a key that was minted and not retrieved yet. -/
def Retrievable (store : KeyStore) (keyId : Json) : Prop :=
  ∃ key ∈ store.keys.rows, keyId = .str key.keyId ∧ key.keyId ∉ store.consumedIds

/-- The entries name different keys, all retrievable. -/
structure Clean (store : KeyStore) (keyIds : List Json) : Prop where
  retrievable : ∀ keyId ∈ keyIds, Retrievable store keyId
  distinct : keyIds.Pairwise (· ≠ ·)

section

variable {store store' : KeyStore} {keyId : Json} {keyIds : List Json} {id : String}

/-! ## One entry -/

/-- A good entry is answered with its key, which is spent. -/
theorem retrieve_ok (h : Retrievable store keyId) :
    ∃ key ∈ store.keys.rows, keyId = .str key.keyId ∧
      retrieve store keyId = .ok (some key, store.spend key.keyId) := by
  obtain ⟨key, hkey, rfl, hc⟩ := h
  have hget : store.getById key.keyId = some key := getById_eq_some.mpr ⟨hkey, rfl⟩
  have hcons : store.isConsumed key.keyId = false :=
    Bool.eq_false_iff.mpr fun h => hc (isConsumed_iff.mp h)
  refine ⟨key, hkey, rfl, ?_⟩
  simp [retrieve, hget, hcons, consume_pending hget hcons]

/-- A bad entry is refused. -/
theorem retrieve_error (h : ¬ Retrievable store keyId) : ∃ e, retrieve store keyId = .error e := by
  cases keyId with
  | str id =>
    rcases hget : store.getById id with _ | key
    · exact ⟨.http 404 "unknown key_ID", by simp only [retrieve, hget]⟩
    · obtain ⟨hkey, rfl⟩ := getById_eq_some.mp hget
      have hc : store.isConsumed key.keyId = true := by
        by_contra hc
        exact h ⟨key, hkey, rfl, fun hmem => hc (isConsumed_iff.mpr hmem)⟩
      exact ⟨.http 400 "key already consumed", by simp only [retrieve, hget, hc, if_true]⟩
  | null | bool b | num n | arr items | obj fields => exact ⟨_, rfl⟩

/-- Spending a key takes that key out of what is retrievable. -/
theorem retrievable_spend :
    Retrievable (store.spend id) keyId ↔ Retrievable store keyId ∧ keyId ≠ .str id := by
  constructor
  · rintro ⟨key, hkey, rfl, hc⟩
    have hc' : ¬ (key.keyId = id ∨ key.keyId ∈ store.consumedIds) := fun h =>
      hc (Finset.mem_insert.mpr h)
    rw [not_or] at hc'
    exact ⟨⟨key, hkey, rfl, hc'.2⟩, fun heq => hc'.1 (Json.str.inj heq)⟩
  · rintro ⟨⟨key, hkey, rfl, hc⟩, hne⟩
    refine ⟨key, hkey, rfl, fun hmem => ?_⟩
    rcases Finset.mem_insert.mp hmem with rfl | hmem
    · exact hne rfl
    · exact hc hmem

/-! ## The loop -/

/-- What is left of a clean list after its first entry. -/
theorem clean_cons : Clean store (.str id :: keyIds) ↔
    Retrievable store (.str id) ∧ Clean (store.spend id) keyIds := by
  constructor
  · intro h
    obtain ⟨hne, hdistinct⟩ := List.pairwise_cons.mp h.distinct
    refine ⟨h.retrievable _ (List.mem_cons_self ..), fun v hv => ?_, hdistinct⟩
    exact retrievable_spend.mpr ⟨h.retrievable v (List.mem_cons_of_mem _ hv), (hne v hv).symm⟩
  · rintro ⟨hfirst, h⟩
    refine ⟨fun v hv => ?_, List.pairwise_cons.mpr ⟨fun v hv => ?_, h.distinct⟩⟩
    · rcases List.mem_cons.mp hv with rfl | hv
      · exact hfirst
      · exact (retrievable_spend.mp (h.retrievable v hv)).1
    · exact (retrievable_spend.mp (h.retrievable v hv)).2.symm

/-- The store after some keys were marked as retrieved. -/
def KeyStore.spendAll (store : KeyStore) (ids : List String) : KeyStore :=
  ids.foldl KeyStore.spend store

theorem spendAll_consumedIds (ids : List String) :
    (store.spendAll ids).consumedIds = store.consumedIds ∪ ids.toFinset := by
  induction ids generalizing store with
  | nil => simp [KeyStore.spendAll]
  | cons id ids ih =>
    show ((store.spend id).spendAll ids).consumedIds = _
    rw [ih, List.toFinset_cons]
    exact Finset.insert_union_comm ..

theorem spendAll_deletedBits (ids : List String) :
    (store.spendAll ids).deletedBits = store.deletedBits + keyBits * ids.length := by
  induction ids generalizing store with
  | nil => rfl
  | cons id ids ih =>
    show ((store.spend id).spendAll ids).deletedBits = _
    rw [ih, List.length_cons, Nat.mul_succ]
    simp only [KeyStore.spend]
    omega

/-- **A clean list is answered whole**, key by key in its order. -/
theorem retrieveAll_clean (h : Clean store keyIds) :
    ∃ keys : List Key, (∀ key ∈ keys, key ∈ store.keys.rows) ∧
      keyIds = keys.map (fun key => .str key.keyId) ∧
      retrieveAll store keyIds = (.ok (keys.map some), store.spendAll (keys.map (·.keyId))) := by
  induction keyIds generalizing store with
  | nil => exact ⟨[], by simp, rfl, rfl⟩
  | cons v keyIds ih =>
    obtain ⟨key, hkey, rfl, hret⟩ := retrieve_ok (h.retrievable v (List.mem_cons_self ..))
    obtain ⟨keys, hkeys, rfl, hall⟩ := ih (clean_cons.mp h).2
    refine ⟨key :: keys, ?_, rfl, ?_⟩
    · intro k hk
      rcases List.mem_cons.mp hk with rfl | hk
      · exact hkey
      · exact hkeys k hk
    · simp only [retrieveAll, hret, hall]
      rfl

/-- **Any other list fails**, and spends the good entries before the
first bad one. -/
theorem retrieveAll_unclean (h : ¬ Clean store keyIds) :
    ∃ (e : SimError) (ids : List String) (rest : List Json),
      keyIds = ids.map .str ++ rest ∧
      retrieveAll store keyIds = (.error e, store.spendAll ids) ∧
      (ids = [] ↔ ∀ v ∈ keyIds.head?, ¬ Retrievable store v) := by
  induction keyIds generalizing store with
  | nil => exact absurd ⟨by rintro _ ⟨⟩, List.Pairwise.nil⟩ h
  | cons v keyIds ih =>
    by_cases hv : Retrievable store v
    · obtain ⟨key, hkey, rfl, hret⟩ := retrieve_ok hv
      obtain ⟨e, ids, rest, rfl, hall, _⟩ := ih fun hc => h (clean_cons.mpr ⟨hv, hc⟩)
      refine ⟨e, key.keyId :: ids, rest, rfl, ?_, by rintro ⟨⟩, fun hbad => absurd hv (hbad _ rfl)⟩
      simp only [retrieveAll, hret, hall]
      rfl
    · obtain ⟨e, he⟩ := retrieve_error hv
      refine ⟨e, [], v :: keyIds, rfl, ?_, fun _ v' hv' => ?_, fun _ => rfl⟩
      · simp only [retrieveAll, he]
        rfl
      · cases hv'
        exact hv

end

/-! ## A request -/

/-- The answer is not 200 and the store is as before, or it is 200 and
exactly the listed keys became consumed, which were not, and are
answered in the order of the list. -/
structure SpendsWhatItAnswers (cfg : SimConfig) (store : KeyStore) (req : DecRequest) : Prop where
  refused : (decKeys cfg store req).2.status ≠ 200 → (decKeys cfg store req).1 = store
  answered : (decKeys cfg store req).2.status = 200 → ∃ keys : List Key,
    requestedIds cfg req = .ok (keys.map fun key => .str key.keyId) ∧
    (∀ key ∈ keys, key ∈ store.keys.rows ∧ key.keyId ∉ store.consumedIds) ∧
    (keys.map (·.keyId)).Nodup ∧
    (decKeys cfg store req).1 = store.spendAll (keys.map (·.keyId)) ∧
    (decKeys cfg store req).1.consumedIds =
      store.consumedIds ∪ (keys.map (·.keyId)).toFinset ∧
    (decKeys cfg store req).2 = keysReply keys

/-- The request reaches the loop with a list that begins with a
retrievable key and is not clean. -/
def Wastes (cfg : SimConfig) (store : KeyStore) (req : DecRequest) : Prop :=
  ∃ keyId keyIds, requestedIds cfg req = .ok (keyId :: keyIds) ∧ Retrievable store keyId ∧
    ¬ Clean store (keyId :: keyIds)

section

variable {cfg : SimConfig} {store : KeyStore} {req : DecRequest}

theorem mapM_id_some {α : Type} (l : List α) : (l.map some).mapM id = some l := by
  induction l with
  | nil => rfl
  | cons a l ih => simp [ih]

/-- A request refused before the loop leaves the store alone. -/
theorem decKeys_refused {e : SimError} (h : requestedIds cfg req = .error e) :
    decKeys cfg store req = (store, e.answer) := by
  simp only [decKeys, h]

theorem decKeys_clean {keyIds : List Json} (h : requestedIds cfg req = .ok keyIds)
    (hc : Clean store keyIds) : ∃ keys : List Key, (∀ key ∈ keys, key ∈ store.keys.rows) ∧
      keyIds = keys.map (fun key => .str key.keyId) ∧
      decKeys cfg store req = (store.spendAll (keys.map (·.keyId)), keysReply keys) := by
  obtain ⟨keys, hkeys, hids, hall⟩ := retrieveAll_clean hc
  refine ⟨keys, hkeys, hids, ?_⟩
  simp only [decKeys, h, hall, mapM_id_some]

theorem decKeys_unclean {keyIds : List Json} (h : requestedIds cfg req = .ok keyIds)
    (hc : ¬ Clean store keyIds) : ∃ (e : SimError) (ids : List String) (rest : List Json),
      keyIds = ids.map .str ++ rest ∧
      decKeys cfg store req = (store.spendAll ids, e.answer) ∧
      (ids = [] ↔ ∀ v ∈ keyIds.head?, ¬ Retrievable store v) := by
  obtain ⟨e, ids, rest, hids, hall, hfirst⟩ := retrieveAll_unclean hc
  refine ⟨e, ids, rest, hids, ?_, hfirst⟩
  simp only [decKeys, h, hall]

theorem spendsWhatItAnswers_of_error {store' : KeyStore} {e : SimError}
    (h : decKeys cfg store req = (store', e.answer)) :
    SpendsWhatItAnswers cfg store req ↔ store' = store := by
  have herror : 400 ≤ (decKeys cfg store req).2.status := by
    rw [h]
    exact e.answer_status
  constructor
  · intro hs
    have := hs.refused (by omega)
    rwa [h] at this
  · intro heq
    exact ⟨fun _ => by rw [h]; exact heq, fun h200 => by omega⟩

theorem Clean.spendsWhatItAnswers {keyIds : List Json} (hc : Clean store keyIds)
    (h : requestedIds cfg req = .ok keyIds) : SpendsWhatItAnswers cfg store req := by
  obtain ⟨keys, hkeys, rfl, hdec⟩ := decKeys_clean h hc
  have hstatus : (decKeys cfg store req).2.status = 200 := by rw [hdec]; rfl
  refine ⟨fun hne => absurd hstatus hne, fun _ => ⟨keys, h, ?_, ?_, ?_, ?_, ?_⟩⟩
  · intro key hkey
    refine ⟨hkeys key hkey, ?_⟩
    obtain ⟨key', hkey', heq, hpending⟩ := hc.retrievable _ (List.mem_map_of_mem hkey)
    rwa [Json.str.inj heq]
  · have hpair := List.pairwise_map.mp hc.distinct
    exact List.pairwise_map.mpr (hpair.imp fun hne heq => hne (congrArg _ heq))
  · rw [hdec]
  · rw [hdec, spendAll_consumedIds]
  · rw [hdec]

/-- The counter of deleted bits tells how many keys were spent. -/
theorem spendAll_eq_self {ids : List String} (h : store.spendAll ids = store) : ids = [] := by
  have hbits := congrArg KeyStore.deletedBits h
  rw [spendAll_deletedBits] at hbits
  have hlength : keyBits * ids.length = 0 := by omega
  exact List.length_eq_zero_iff.mp ((Nat.mul_eq_zero.mp hlength).resolve_left (by decide))

end

/-- **A refused retrieval spends nothing, except one that lists a
retrievable key first and then, anywhere later, one that is not, or one
twice.** -/
theorem refused_spends_nothing (cfg : SimConfig) (store : KeyStore) (req : DecRequest) :
    SpendsWhatItAnswers cfg store req ↔ ¬ Wastes cfg store req := by
  rcases hreq : requestedIds cfg req with e | keyIds
  · rw [spendsWhatItAnswers_of_error (decKeys_refused hreq)]
    refine ⟨fun _ => ?_, fun _ => rfl⟩
    rintro ⟨_, _, h, _⟩
    cases hreq.symm.trans h
  · by_cases hc : Clean store keyIds
    · refine ⟨fun _ => ?_, fun _ => hc.spendsWhatItAnswers hreq⟩
      rintro ⟨_, _, h, _, hunclean⟩
      cases hreq.symm.trans h
      exact hunclean hc
    · obtain ⟨e, ids, rest, _, hdec, hfirst⟩ := decKeys_unclean hreq hc
      rw [spendsWhatItAnswers_of_error hdec]
      constructor
      · rintro hsame ⟨v, vs, h, hv, _⟩
        cases hreq.symm.trans h
        exact hfirst.mp (spendAll_eq_self hsame) v rfl hv
      · intro hw
        have hnone : ids = [] := by
          refine hfirst.mpr fun v hv hgood => hw ?_
          obtain ⟨vs, rfl⟩ := List.head?_eq_some_iff.mp hv
          exact ⟨v, vs, hreq, hgood, hc⟩
        rw [hnone]
        rfl

/-- A request for a pending key and an unknown one. -/
def halfKnown : DecRequest where
  masterSae := "QKD1"
  method := .post (.json (.obj [("key_IDs",
    .arr [.obj [("key_ID", .str "u0")], .obj [("key_ID", .str "u9")]])]))

/-- A simulator that draws the identifiers `u0`, `u1` and so on. -/
def countingSim : SimConfig where
  draws := fun n => ("u" ++ toString n, ⟨List.replicate keyBytes 0, by decide⟩)

/-- The store after `u0` was minted. -/
def mintedOne : KeyStore := (encKeys countingSim {} { slaveSae := "QKD2" }).1

/-- **A request fails and its first key is gone.** -/
theorem refused_spends_key : ¬ ∀ (store : KeyStore) (req : DecRequest),
    SpendsWhatItAnswers countingSim store req := by
  intro h
  have hrefused := (h mintedOne halfKnown).refused (by decide +kernel)
  have hbits : (decKeys countingSim mintedOne halfKnown).1.deletedBits = 256 := by decide +kernel
  rw [hrefused] at hbits
  exact absurd hbits (by decide +kernel)

end QkdEkm.Qkdsim
