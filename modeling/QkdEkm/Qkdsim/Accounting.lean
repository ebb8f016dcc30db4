import Mathlib.Data.Finset.Card
import QkdEkm.Lib.Machine
import QkdEkm.Qkdsim.Retrieve

/-!
# Accounting — the counters of the simulator

Every counter is a count of something that a run shows: the keys that
were answered, the keys that were marked, the requests by their answers
(`accounts_run`). The inventory is a constant that no handler reads, so
what is left of it is a difference that may be negative.
-/

namespace QkdEkm.Qkdsim

open QkdEkm.Common QkdEkm.Lib

namespace KeyStore

/-- `available_256bit_keys`. -/
def available256bitKeys (store : KeyStore) (inventory : Int) : Int := inventory - store.issuedCount

/-- `pending_count`. -/
def pendingCount (store : KeyStore) : Int := store.keys.rows.length - store.consumedIds.card

/-- `id in store._keys`. -/
def Holds (store : KeyStore) (id : String) : Prop := ∃ key ∈ store.keys.rows, key.keyId = id

end KeyStore

/-! ## Runs -/

/-- A request that reaches the store. -/
inductive SimRequest
  | encKeys (req : EncRequest)
  | decKeys (req : DecRequest)
  | simSource (authorization : Option String) (body : Body)

def simStep (cfg : SimConfig) (store : KeyStore) : SimRequest → KeyStore × Response
  | .encKeys req => encKeys cfg store req
  | .decKeys req => decKeys cfg store req
  | .simSource authorization body => simSource cfg store authorization body

abbrev SimMoment := Moment KeyStore SimRequest Response

/-- The identifiers that an answer issues. -/
def issuedBy (m : SimMoment) : List String :=
  match m.act, m.out.reply with
  | .encKeys _, .keys keys => keys.map (·.1)
  | _, _ => []

/-- All keys ever issued. -/
def issuedIds (past : List SimMoment) : List String := past.flatMap issuedBy

/-- A request for new keys is answered with this code. -/
def answersWith (code : Nat) (m : SimMoment) : Bool :=
  match m.act with
  | .encKeys _ => m.out.status == code
  | _ => false

/-- The counters against the run so far. -/
structure Accounts (past : List SimMoment) (store : KeyStore) : Prop where
  issued : store.issuedCount = (issuedIds past).length
  holds : ∀ id, store.Holds id ↔ id ∈ issuedIds past
  spent : ∀ id ∈ store.consumedIds, store.Holds id
  consumedKeys : store.consumedKeys = store.issuedCount
  consumedBits : store.consumedBits = keyBits * store.issuedCount
  deletedBits : store.deletedBits = keyBits * store.consumedIds.card
  keyRequests : store.keyRequests = past.countP (answersWith 200)
  failedKeyRequests : store.failedKeyRequests = past.countP (answersWith 503)

/-! ## Minting -/

/-- What issuing keys does to the store. -/
structure Minted (store store' : KeyStore) (keys : List Key) : Prop where
  issuedCount : store'.issuedCount = store.issuedCount + keys.length
  consumedKeys : store'.consumedKeys = store.consumedKeys + keys.length
  consumedBits : store'.consumedBits = store.consumedBits + keyBits * keys.length
  holds : ∀ id, store'.Holds id ↔ store.Holds id ∨ id ∈ keys.map (·.keyId)
  consumedIds : store'.consumedIds = store.consumedIds
  deletedBits : store'.deletedBits = store.deletedBits
  keyRequests : store'.keyRequests = store.keyRequests
  failedKeyRequests : store'.failedKeyRequests = store.failedKeyRequests

section

variable {store : KeyStore} {draws : Draws} {pair : String × String}

theorem holds_newKey (id : String) : (store.newKey draws pair).2.Holds id ↔
    store.Holds id ∨ id = (store.newKey draws pair).1.keyId := by
  unfold KeyStore.Holds KeyStore.newKey
  dsimp only
  constructor
  · rintro ⟨key, hkey, rfl⟩
    rcases Table.mem_replace.mp hkey with rfl | ⟨hkey, _⟩
    · exact .inr rfl
    · exact .inl ⟨key, hkey, rfl⟩
  · intro h
    by_cases hnew : id = (draws store.issuedCount).1
    · exact ⟨_, Table.mem_replace.mpr (.inl rfl), hnew.symm⟩
    · obtain ⟨key, hkey, rfl⟩ := h.resolve_right hnew
      exact ⟨key, Table.mem_replace.mpr (.inr ⟨hkey, hnew⟩), rfl⟩

theorem newKeys_minted (number : Nat) :
    Minted store (store.newKeys draws pair number).2 (store.newKeys draws pair number).1 := by
  induction number with
  | zero => exact ⟨rfl, rfl, rfl, fun id => by simp [KeyStore.newKeys], rfl, rfl, rfl, rfl⟩
  | succ number ih =>
    generalize hminted : store.newKeys draws pair number = minted at ih
    obtain ⟨keys, store'⟩ := minted
    have hnew : store.newKeys draws pair (number + 1) =
        (keys ++ [(store'.newKey draws pair).1], (store'.newKey draws pair).2) := by
      rw [KeyStore.newKeys, hminted]
    rw [hnew]
    constructor
    · show store'.issuedCount + 1 = _
      rw [ih.issuedCount, List.length_append]
      rfl
    · show store'.consumedKeys + 1 = _
      rw [ih.consumedKeys, List.length_append]
      rfl
    · show store'.consumedBits + keyBits = _
      rw [ih.consumedBits, List.length_append, Nat.mul_add, List.length_singleton, Nat.mul_one,
        Nat.add_assoc]
    · intro id
      rw [holds_newKey, ih.holds, List.map_append, List.mem_append, or_assoc, List.map_singleton,
        List.mem_singleton]
    · exact ih.consumedIds
    · exact ih.deletedBits
    · exact ih.keyRequests
    · exact ih.failedKeyRequests

end

/-! ## The handlers -/

section

variable {cfg : SimConfig} {past : List SimMoment} {store : KeyStore}

/-- An answer that no counter counts. -/
structure Refusal (resp : Response) : Prop where
  status : resp.status ∈ [400, 401, 404]
  reply : ∀ keys, resp.reply ≠ .keys keys

theorem refusal_http {code : Nat} (hcode : code ∈ [400, 401, 404]) (detail : String)
    (herror : 400 ≤ code) : Refusal (SimError.http code detail herror).answer :=
  ⟨hcode, fun _ hreply => (by cases hreply)⟩

theorem requireSimToken_refusal {authorization : Option String} {e : SimError}
    (h : requireSimToken cfg authorization = .error e) : Refusal e.answer := by
  unfold requireSimToken at h
  split at h
  · cases h
  · split at h
    · cases h
    · cases h
      exact refusal_http (by decide) _ _

theorem requireSae_refusal {sae : String} {e : SimError} (h : requireSae cfg sae = .error e) :
    Refusal e.answer := by
  unfold requireSae at h
  split at h
  · cases h
  · cases h
    exact refusal_http (by decide) _ _

theorem keyNumber_refusal {number : Number} {e : SimError} (h : keyNumber number = .error e) :
    Refusal e.answer := by
  cases number with
  | absent => cases h
  | invalid =>
    cases h
    exact refusal_http (by decide) _ _
  | int value =>
    rw [keyNumber] at h
    split at h
    · cases h
      exact refusal_http (by decide) _ _
    · cases h

/-- A request for keys that fails a check is refused before the store is
asked. -/
theorem enc_checked_error {req : EncRequest} {e : SimError}
    (h : (do
      requireSimToken cfg req.authorization
      requireSae cfg req.slaveSae
      keyNumber req.number : Except SimError Nat) = .error e) : Refusal e.answer := by
  rcases htoken : requireSimToken cfg req.authorization with e' | _
  · rw [htoken] at h
    cases h
    exact requireSimToken_refusal htoken
  · rcases hsae : requireSae cfg req.slaveSae with e' | _
    · rw [htoken, hsae] at h
      cases h
      exact requireSae_refusal hsae
    · rw [htoken, hsae] at h
      exact keyNumber_refusal h

/-- How a request for keys ends: refused, out of source, or answered. -/
inductive EncEffect (store : KeyStore) : KeyStore × Response → Prop
  | refused (resp : Response) (h200 : resp.status ≠ 200) (h503 : resp.status ≠ 503)
      (hkeys : ∀ keys, resp.reply ≠ .keys keys) : EncEffect store (store, resp)
  | failed : EncEffect store
      ({ store with failedKeyRequests := store.failedKeyRequests + 1 },
        (SimError.http 503 "source unavailable").answer)
  | answered (store' : KeyStore) (keys : List Key)
      (h : Minted { store with keyRequests := store.keyRequests + 1 } store' keys) :
    EncEffect store (store', keysReply keys)

theorem encEffect (req : EncRequest) : EncEffect store (encKeys cfg store req) := by
  unfold encKeys
  dsimp only
  split
  · rename_i e he
    obtain ⟨hstatus, hreply⟩ := enc_checked_error he
    refine .refused _ (fun h200 => ?_) (fun h503 => ?_) hreply
    · rw [h200] at hstatus
      exact absurd hstatus (by decide)
    · rw [h503] at hstatus
      exact absurd hstatus (by decide)
  · split
    · exact .answered _ _ (newKeys_minted _)
    · exact .failed

/-- What marking a key as retrieved preserves, a retrieval preserves. -/
theorem retrieveAll_invariant {P : KeyStore → Prop}
    (hspend : ∀ store key, key ∈ store.keys.rows → key.keyId ∉ store.consumedIds → P store →
      P (store.spend key.keyId))
    (keyIds : List Json) (h : P store) : P (retrieveAll store keyIds).2 := by
  induction keyIds generalizing store with
  | nil => exact h
  | cons keyId keyIds ih =>
    unfold retrieveAll
    by_cases hgood : Retrievable store keyId
    · obtain ⟨key, hkey, rfl, hret⟩ := retrieve_ok hgood
      obtain ⟨key', _, heq, hfresh⟩ := hgood
      rw [hret]
      exact ih (hspend store key hkey (Json.str.inj heq ▸ hfresh) h)
    · obtain ⟨e, he⟩ := retrieve_error hgood
      rw [he]
      exact h

variable (cfg) in
theorem decKeys_invariant {P : KeyStore → Prop}
    (hspend : ∀ store key, key ∈ store.keys.rows → key.keyId ∉ store.consumedIds → P store →
      P (store.spend key.keyId))
    (req : DecRequest) (h : P store) : P (decKeys cfg store req).1 := by
  unfold decKeys
  split
  · exact h
  · rename_i keyIds _
    have hall := retrieveAll_invariant hspend keyIds h
    split
    · rename_i hret
      rwa [hret] at hall
    · rename_i hret
      rw [hret] at hall
      split <;> exact hall

/-! ## The run -/

theorem issuedIds_concat (m : SimMoment) : issuedIds (past ++ [m]) = issuedIds past ++ issuedBy m := by
  simp [issuedIds]

theorem countP_concat (p : SimMoment → Bool) (m : SimMoment) :
    (past ++ [m]).countP p = past.countP p + if p m then 1 else 0 := by
  rw [List.countP_append, List.countP_singleton]

/-- A moment that neither issues nor counts leaves the accounts as they
are, if the store keeps what they are about. -/
theorem Accounts.quiet (h : Accounts past store) {m : SimMoment} (available : Bool)
    (hissued : issuedBy m = []) (h200 : answersWith 200 m = false)
    (h503 : answersWith 503 m = false) :
    Accounts (past ++ [m]) { store with sourceAvailable := available } := by
  constructor
  · rw [issuedIds_concat, hissued, List.append_nil]
    exact h.issued
  · rw [issuedIds_concat, hissued, List.append_nil]
    exact h.holds
  · exact h.spent
  · exact h.consumedKeys
  · exact h.consumedBits
  · exact h.deletedBits
  · rw [countP_concat, h200]
    exact h.keyRequests
  · rw [countP_concat, h503]
    exact h.failedKeyRequests

theorem Accounts.spend (h : Accounts past store) {key : Key} (hkey : key ∈ store.keys.rows)
    (hfresh : key.keyId ∉ store.consumedIds) : Accounts past (store.spend key.keyId) := by
  refine ⟨h.issued, h.holds, fun id hid => ?_, h.consumedKeys, h.consumedBits, ?_, h.keyRequests,
    h.failedKeyRequests⟩
  · rcases Finset.mem_insert.mp hid with rfl | hid
    · exact ⟨key, hkey, rfl⟩
    · exact h.spent id hid
  · show store.deletedBits + keyBits = keyBits * (insert key.keyId store.consumedIds).card
    rw [Finset.card_insert_of_notMem hfresh, h.deletedBits, Nat.mul_succ]

/-- A request that is answered with keys. -/
theorem Accounts.answered (h : Accounts past store) (req : EncRequest) {store' : KeyStore}
    {keys : List Key} (hm : Minted { store with keyRequests := store.keyRequests + 1 } store' keys) :
    Accounts (past ++ [⟨store, .encKeys req, keysReply keys, store'⟩]) store' := by
  have hissued : issuedBy ⟨store, .encKeys req, keysReply keys, store'⟩ = keys.map (·.keyId) := by
    simp [issuedBy, keysReply]
  constructor
  · rw [issuedIds_concat, hissued, List.length_append, List.length_map, hm.issuedCount]
    exact congrArg (· + keys.length) h.issued
  · intro id
    rw [issuedIds_concat, hissued, List.mem_append, hm.holds]
    exact or_congr (h.holds id) Iff.rfl
  · intro id hid
    rw [hm.consumedIds] at hid
    exact (hm.holds id).mpr (.inl (h.spent id hid))
  · rw [hm.consumedKeys, hm.issuedCount]
    exact congrArg (· + keys.length) h.consumedKeys
  · rw [hm.consumedBits, hm.issuedCount, Nat.mul_add]
    exact congrArg (· + keyBits * keys.length) h.consumedBits
  · rw [hm.deletedBits, hm.consumedIds]
    exact h.deletedBits
  · rw [hm.keyRequests, countP_concat]
    exact congrArg (· + 1) h.keyRequests
  · rw [hm.failedKeyRequests, countP_concat]
    exact h.failedKeyRequests

theorem Accounts.encKeys (h : Accounts past store) {req : EncRequest} {result : KeyStore × Response}
    (heff : EncEffect store result) :
    Accounts (past ++ [⟨store, .encKeys req, result.2, result.1⟩]) result.1 := by
  cases heff with
  | refused resp h200 h503 hkeys =>
    have hissued : issuedBy ⟨store, .encKeys req, resp, store⟩ = [] := by
      unfold issuedBy
      split
      · rename_i keys _ hreply
        exact absurd hreply (hkeys keys)
      · rfl
    refine h.quiet store.sourceAvailable hissued ?_ ?_
    · simpa [answersWith] using h200
    · simpa [answersWith] using h503
  | failed =>
    refine ⟨?_, ?_, h.spent, h.consumedKeys, h.consumedBits, h.deletedBits, ?_, ?_⟩
    · rw [issuedIds_concat]
      exact h.issued.trans (congrArg List.length (List.append_nil _).symm)
    · intro id
      rw [issuedIds_concat]
      exact (h.holds id).trans (iff_of_eq (congrArg (id ∈ ·) (List.append_nil _).symm))
    · simpa [countP_concat, answersWith, SimError.answer] using h.keyRequests
    · simpa [countP_concat, answersWith, SimError.answer] using h.failedKeyRequests
  | answered store' keys hm => exact h.answered req hm

variable (cfg store) in
theorem simSource_store (authorization : Option String) (body : Body) :
    ∃ available, (simSource cfg store authorization body).1 =
      { store with sourceAvailable := available } := by
  unfold simSource
  split
  · exact ⟨_, rfl⟩
  · split <;> exact ⟨_, rfl⟩

theorem accounts_step (h : Accounts past store) (req : SimRequest) :
    Accounts (past ++ [moment (simStep cfg) store req]) (simStep cfg store req).1 := by
  cases req with
  | encKeys req => exact h.encKeys (encEffect req)
  | decKeys req =>
    have hspent := decKeys_invariant cfg (P := Accounts past)
      (fun store key hkey hfresh h => h.spend hkey hfresh) req h
    exact hspent.quiet (decKeys cfg store req).1.sourceAvailable rfl rfl rfl
  | simSource authorization body =>
    obtain ⟨available, hstore⟩ := simSource_store cfg store authorization body
    show Accounts _ (simSource cfg store authorization body).1
    rw [hstore]
    exact h.quiet available rfl rfl rfl

/-- **The accounts of every run.** -/
theorem accounts_run (cfg : SimConfig) (reqs : List SimRequest) :
    Accounts (trace (simStep cfg) {} reqs) (exec (simStep cfg) {} reqs) := by
  refine trace_invariant Accounts (fun _ => True) ?_ ?_ fun _ _ => trivial
  · refine ⟨rfl, fun id => ?_, by rintro _ ⟨⟩, rfl, rfl, rfl, rfl, rfl⟩
    exact ⟨by rintro ⟨_, ⟨⟩, _⟩, by rintro ⟨⟩⟩
  · exact fun past store req h _ => accounts_step h req

end

/-! ## What the counters say -/

/-- Each number that the simulator reports is what the run shows. -/
structure Reports (inventory : Int) (past : List SimMoment) (store : KeyStore) : Prop where
  consumedKeys : store.consumedKeys = (issuedIds past).length
  consumedBits : store.consumedBits = 256 * (issuedIds past).length
  deletedBits : store.deletedBits = 256 * store.consumedIds.card
  issued : store.consumedIds ⊆ (issuedIds past).toFinset
  pending : store.pendingCount = ((issuedIds past).toFinset \ store.consumedIds).card
  keyRequests : store.keyRequests = past.countP (answersWith 200)
  failedKeyRequests : store.failedKeyRequests = past.countP (answersWith 503)
  available : store.available256bitKeys inventory + (issuedIds past).length = inventory

theorem Accounts.rows_card {past : List SimMoment} {store : KeyStore} (h : Accounts past store) :
    store.keys.rows.length = (issuedIds past).toFinset.card := by
  have hnodup : (store.keys.rows.map (·.keyId)).Nodup :=
    List.pairwise_map.mpr store.keys.unique
  have hids : (store.keys.rows.map (·.keyId)).toFinset = (issuedIds past).toFinset := by
    ext id
    rw [List.mem_toFinset, List.mem_toFinset, ← h.holds id, List.mem_map]
    rfl
  rw [← hids, List.toFinset_card_of_nodup hnodup, List.length_map]

theorem Accounts.reports {past : List SimMoment} {store : KeyStore} (h : Accounts past store)
    (inventory : Int) : Reports inventory past store := by
  have hissued : store.consumedIds ⊆ (issuedIds past).toFinset := fun id hid =>
    List.mem_toFinset.mpr ((h.holds id).mp (h.spent id hid))
  refine ⟨h.consumedKeys.trans h.issued, ?_, h.deletedBits, hissued, ?_, h.keyRequests,
    h.failedKeyRequests, ?_⟩
  · rw [h.consumedBits, h.issued]
    rfl
  · have hcard := Finset.card_sdiff_add_card_eq_card hissued
    unfold KeyStore.pendingCount
    rw [h.rows_card]
    omega
  · unfold KeyStore.available256bitKeys
    rw [h.issued]
    omega

/-- **Simulator accounting.** In every run each counter is what the run
shows. Nothing holds a request back when the inventory runs out: what is
reported as available is negative as soon as more keys were issued. -/
theorem simulator_accounting (cfg : SimConfig) (inventory : Int) (reqs : List SimRequest) :
    Reports inventory (trace (simStep cfg) {} reqs) (exec (simStep cfg) {} reqs) ∧
      ((exec (simStep cfg) {} reqs).available256bitKeys inventory < 0 ↔
        inventory < (issuedIds (trace (simStep cfg) {} reqs)).length) := by
  have h := accounts_run cfg reqs
  refine ⟨h.reports inventory, ?_⟩
  unfold KeyStore.available256bitKeys
  rw [h.issued]
  omega

/-- **An inventory of two keys issues three.** -/
theorem available_negative : ¬ ∀ (cfg : SimConfig) (inventory : Int) (reqs : List SimRequest),
    0 ≤ inventory →
      Reports inventory (trace (simStep cfg) {} reqs) (exec (simStep cfg) {} reqs) ∧
        0 ≤ (exec (simStep cfg) {} reqs).available256bitKeys inventory := by
  intro h
  have hall := h countingSim 2 [.encKeys { slaveSae := "QKD2", number := .int 3 }] (by decide)
  exact absurd hall.2 (by decide +kernel)

end QkdEkm.Qkdsim
