import QkdEkm.Ekm.Binding

/-!
# Units — a unit is in one place

A unit that the source delivers once is in the hand of the thread that
pulls, in the deque of one peer, or gone: bound, expired or lost. What is
gone does not come back, so in every run whose source delivers no key id
twice the pool holds nothing that was used.
-/

namespace QkdEkm.Ekm

open QkdEkm.Common QkdEkm.Lib

/-- Where a unit is before it is gone. -/
inductive Place
  | hand
  | deque (peer : String)

/-- The units that the thread holds and has not put into a deque. -/
def Pull.inHand : Pull → List Key
  | .received _ keys _ _ => keys
  | _ => []

/-- The key ids in a place. -/
def Process.ids (p : Process) : Place → List String
  | .hand => p.pull.inHand.map (·.keyId)
  | .deque peer => (p.pool.deques peer).map (·.1.keyId)

/-- No key id is in two places, none was used, and all were delivered. -/
structure Placed (ids : List String) (p : Process) : Prop where
  once : ∀ l, (p.ids l).Nodup
  apart : ∀ l l', l ≠ l' → List.Disjoint (p.ids l) (p.ids l')
  unused : ∀ l, ∀ id ∈ p.ids l, p.store.isConsumed id = false
  known : ∀ l, p.ids l ⊆ ids
  spent : ∀ id, p.store.isConsumed id = true → id ∈ ids

section

variable {aead : Aead} {cfg : Config} {p p' : Process} {ids : List String}

theorem placed_boot : Placed ids (boot .empty) where
  once := by rintro (_ | _) <;> exact List.nodup_nil
  apart := by
    rintro (_ | _) l' _ id h
    · cases h
    · cases h
  unused := by
    rintro (_ | _) id h
    · cases h
    · cases h
  known := by rintro (_ | _) <;> exact List.nil_subset _
  spent := by
    intro id h
    cases h

theorem Placed.more {ids' : List String} (h : Placed ids p) (hsub : ids ⊆ ids') :
    Placed ids' p where
  once := h.once
  apart := h.apart
  unused := h.unused
  known := fun l => List.Subset.trans (h.known l) hsub
  spent := fun id hid => hsub (h.spent id hid)

/-- Places that only lose units, of which the used ones are gone, stay in
order. -/
theorem Placed.shrink (h : Placed ids p) (hsub : ∀ l, (p'.ids l).Sublist (p.ids l))
    (hspent : ∀ id, p'.store.isConsumed id = true →
      p.store.isConsumed id = true ∨ (id ∈ ids ∧ ∀ l, id ∉ p'.ids l)) : Placed ids p' where
  once := fun l => (h.once l).sublist (hsub l)
  apart := fun l l' hne id hid hid' =>
    h.apart l l' hne ((hsub l).subset hid) ((hsub l').subset hid')
  unused := by
    intro l id hid
    by_contra hused
    rcases hspent id (Bool.not_eq_false _ ▸ hused) with hold | ⟨_, hgone⟩
    · rw [h.unused l id ((hsub l).subset hid)] at hold
      cases hold
    · exact hgone l hid
  known := fun l => List.Subset.trans (hsub l).subset (h.known l)
  spent := by
    intro id hid
    rcases hspent id hid with hold | ⟨hmem, _⟩
    · exact h.spent id hold
    · exact hmem

/-! ## Requests -/

theorem respond_cases (p : Process) (res : Except Stop Reply) :
    (respond p res).1 = p ∨ (respond p res).1 = boot p.store := by
  rcases res with (e | _) | reply
  · exact .inl rfl
  · exact .inr rfl
  · exact .inl rfl

/-- A request uses at most the unit that it took. -/
def Spends (cfg : Config) (p p' : Process) : Prop :=
  ∀ id, p'.store.isConsumed id = true → p.store.isConsumed id = true ∨
    ∃ peer key pool, Takes cfg p peer key pool ∧ id = key.keyId ∧ Shrinks pool p'.pool

theorem isConsumed_bind {s s' : Store} {q o peer id : String} {u : Purpose}
    (hb : s.bind q u o peer = .ok s') (h : s'.isConsumed id = true) :
    s.isConsumed id = true ∨ id = q := by
  obtain ⟨b, hmem, hid⟩ := isConsumed_iff.mp h
  rw [(bind_ok hb).2.2] at hmem
  rcases List.mem_append.mp hmem with hmem | hmem
  · exact .inl (isConsumed_iff.mpr ⟨b, hmem, hid⟩)
  · rw [List.mem_singleton.mp hmem] at hid
    exact .inr hid.symm

theorem FirstUse.spends {o : String} {fates : List Fate} {nonces : List Nonce}
    {r : Except Stop Bytes} {store : Store} {pool : KeyPool}
    (h : FirstUse aead cfg o p fates nonces r store pool) :
    Spends cfg p { p.checkRecovery with store, pool } := by
  intro id hid
  cases h with
  | refused _ | lost _ _ _ | rebound _ _ _ _ => exact .inl hid
  | bound ht _ hb _ =>
    rcases isConsumed_bind hb hid with hold | rfl
    · exact .inl hold
    · exact .inr ⟨_, _, _, ht, rfl, Shrinks.refl _⟩

theorem HandleEnds.spends {fates : List Fate} {nonces : List Nonce} {r : Request}
    {res : Except Stop Reply} (h : HandleEnds aead cfg p fates nonces r res p') :
    Spends cfg p p' := by
  cases h with
  | unwrap _ _ | malformed _ | other _ _ => exact fun id hid => .inl hid
  | wrap _ h =>
    cases h with
    | malformed _ | unreadable _ _ | known _ _ _ _ => exact fun id hid => .inl hid
    | first _ _ hf _ | stopped _ _ hf => exact hf.spends
  | new h =>
    cases h with
    | refused _ => exact fun id hid => .inl hid
    | bound _ ht hb _ =>
      intro id hid
      rcases isConsumed_bind hb hid with hold | rfl
      · exact .inl hold
      · exact .inr ⟨_, _, _, ht, rfl, Shrinks.refl _⟩

variable (aead cfg) in
theorem request_spends (p : Process) (r : Request) (fates : List Fate) (nonces : List Nonce) :
    Spends cfg p (step aead cfg p (.request r fates nonces)).1 := by
  obtain ⟨res, p', hends, hstep⟩ := step_request aead cfg p r fates nonces
  rw [hstep]
  rcases respond_cases p' res with heq | heq
  · rw [heq]
    exact hends.spends
  · rw [heq]
    intro id hid
    rcases hends.spends id hid with hold | ⟨peer, key, pool, ht, hkey, _⟩
    · exact .inl hold
    · exact .inr ⟨peer, key, pool, ht, hkey, shrinks_boot _ _⟩

/-- A pool that shrank, and a thread that went on or was lost. -/
theorem ids_sublist (hp : Shrinks p.pool p'.pool) (hpull : p'.pull = p.pull ∨ p'.pull = .idle)
    (l : Place) : (p'.ids l).Sublist (p.ids l) := by
  cases l with
  | hand =>
    rcases hpull with hpull | hpull
    · rw [Process.ids, Process.ids, hpull]
    · rw [Process.ids, hpull]
      exact List.nil_sublist _
  | deque peer => exact (hp peer).sublist.map _

/-- A unit that was taken is in no place. -/
theorem Placed.taken (h : Placed ids p) {peer : String} {key : Key} {pool : KeyPool}
    (ht : Takes cfg p peer key pool) (hp : Shrinks pool p'.pool)
    (hsub : ∀ l, (p'.ids l).Sublist (p.ids l)) :
    key.keyId ∈ ids ∧ ∀ l, key.keyId ∉ p'.ids l := by
  obtain ⟨receivedAt, rest, hdq, rfl⟩ := ht.popped
  have hids : p.ids (.deque peer) = key.keyId :: rest.map (·.1.keyId) := by
    rw [Process.ids, hdq, List.map_cons]
  have hhead : key.keyId ∈ p.ids (.deque peer) := hids ▸ List.mem_cons_self ..
  refine ⟨h.known _ hhead, fun l hid => ?_⟩
  by_cases hl : l = .deque peer
  · subst hl
    have honce := h.once (.deque peer)
    rw [hids, List.nodup_cons] at honce
    have hrest : (p'.pool.deques peer).Sublist rest := by
      have := (hp peer).sublist
      rwa [withDeque_deques, if_pos rfl] at this
    exact honce.1 ((hrest.map _).subset hid)
  · exact h.apart l _ hl ((hsub l).subset hid) hhead

theorem Placed.request (h : Placed ids p) (r : Request) (fates : List Fate)
    (nonces : List Nonce) : Placed ids (step aead cfg p (.request r fates nonces)).1 := by
  obtain ⟨hp, hpull⟩ := request_shrinks aead cfg p r fates nonces
  have hsub := ids_sublist hp hpull
  refine h.shrink hsub fun id hid => ?_
  rcases request_spends aead cfg p r fates nonces id hid with
    hold | ⟨peer, key, pool, ht, rfl, hpool⟩
  · exact .inl hold
  · exact .inr (h.taken ht hpool hsub)

/-! ## The thread -/

/-- New units in an empty hand. -/
theorem Placed.receive (h : Placed ids p) (pool : KeyPool) (pull : Pull)
    (hdeques : pool.deques = p.pool.deques)
    (hnew : (ids ++ pull.inHand.map (·.keyId)).Nodup) :
    Placed (ids ++ pull.inHand.map (·.keyId)) { p with pool, pull } := by
  obtain ⟨_, hnodup, hapart⟩ := List.nodup_append.mp hnew
  have hdeque : ∀ peer, Process.ids { p with pool, pull } (.deque peer) = p.ids (.deque peer) := by
    intro peer
    rw [Process.ids, Process.ids, hdeques]
  have hhand : ∀ id ∈ Process.ids { p with pool, pull } .hand, id ∉ ids :=
    fun id hid hmem => hapart id hmem id hid rfl
  constructor
  · rintro (_ | peer)
    · exact hnodup
    · rw [hdeque]
      exact h.once _
  · rintro (_ | peer) (_ | peer') hne id hid hid'
    · exact absurd rfl hne
    · rw [hdeque] at hid'
      exact hhand id hid (h.known _ hid')
    · rw [hdeque] at hid
      exact hhand id hid' (h.known _ hid)
    · rw [hdeque] at hid hid'
      refine h.apart (.deque peer) (.deque peer') (fun heq => hne heq) hid hid'
  · rintro (_ | peer) id hid
    · by_contra hused
      exact hhand id hid (h.spent id (Bool.not_eq_false _ ▸ hused))
    · rw [hdeque] at hid
      exact h.unused _ id hid
  · rintro (_ | peer)
    · exact List.subset_append_right _ _
    · rw [hdeque]
      exact List.Subset.trans (h.known _) (List.subset_append_left _ _)
  · exact fun id hid => List.mem_append_left _ (h.spent id hid)

/-- The thread puts the units in its hand behind a deque. -/
def Process.stores (p : Process) (peer : String) (keys : List Key) (receivedAt : Time)
    (rest : List String) : Process :=
  { p with
    pool := p.pool.withDeque peer (p.pool.deques peer ++ keys.map (·, receivedAt))
    pull := .next rest }

section

variable {peer : String} {keys : List Key} {receivedAt : Time} {rest : List String}

theorem stores_hand : (p.stores peer keys receivedAt rest).ids .hand = [] := rfl

theorem stores_deque (hpull : p.pull = .received peer keys receivedAt rest) (peer' : String) :
    (p.stores peer keys receivedAt rest).ids (.deque peer') =
      if peer' = peer then p.ids (.deque peer) ++ p.ids .hand else p.ids (.deque peer') := by
  have hhand : p.ids .hand = keys.map (·.keyId) := by
    rw [Process.ids, hpull, Pull.inHand]
  rw [hhand, Process.stores, Process.ids, Process.ids, withDeque_deques]
  split
  · simp [Function.comp_def]
  · rfl

/-- Every unit was somewhere before. -/
theorem mem_stores (hpull : p.pull = .received peer keys receivedAt rest) {l : Place} {id : String}
    (hid : id ∈ (p.stores peer keys receivedAt rest).ids l) :
    ∃ l', id ∈ p.ids l' ∧ (l' = l ∨ (l' = .hand ∧ l = .deque peer)) := by
  rcases l with _ | peer'
  · rw [stores_hand] at hid
    cases hid
  · rw [stores_deque hpull] at hid
    split at hid
    · rename_i heq
      rcases List.mem_append.mp hid with hid | hid
      · exact ⟨_, hid, .inl (heq ▸ rfl)⟩
      · exact ⟨_, hid, .inr ⟨rfl, heq ▸ rfl⟩⟩
    · exact ⟨_, hid, .inl rfl⟩

theorem Placed.store (h : Placed ids p) (hpull : p.pull = .received peer keys receivedAt rest) :
    Placed ids (p.stores peer keys receivedAt rest) where
  once := by
    rintro (_ | peer')
    · exact List.nodup_nil
    · rw [stores_deque hpull]
      split
      · refine List.nodup_append.mpr ⟨h.once _, h.once _, ?_⟩
        rintro id hid id' hid' rfl
        exact h.apart (.deque peer) .hand (by rintro ⟨⟩) hid hid'
      · exact h.once _
  apart := by
    intro l l' hne id hid hid'
    -- two places come from two, and the hand is empty
    obtain ⟨m, hm, hl⟩ := mem_stores hpull hid
    obtain ⟨m', hm', hl'⟩ := mem_stores hpull hid'
    obtain rfl : m = m' := by
      by_contra hmm
      exact h.apart m m' hmm hm hm'
    rcases hl with rfl | ⟨rfl, rfl⟩
    · rcases hl' with rfl | ⟨rfl, rfl⟩
      · exact hne rfl
      · cases hid
    · rcases hl' with rfl | ⟨_, rfl⟩
      · cases hid'
      · exact hne rfl
  unused := by
    intro l id hid
    obtain ⟨m, hm, _⟩ := mem_stores hpull hid
    exact h.unused m id hm
  known := by
    intro l id hid
    obtain ⟨m, hm, _⟩ := mem_stores hpull hid
    exact h.known m hm
  spent := h.spent

end

theorem Placed.pull (h : Placed ids p) (answer : EncKeys) (now : Time)
    (hnew : (ids ++ (deliveries (moment (step aead cfg) p (.pull answer now))).map
      (·.keyId)).Nodup) :
    Placed (ids ++ (deliveries (moment (step aead cfg) p (.pull answer now))).map (·.keyId))
      (step aead cfg p (.pull answer now)).1 := by
  -- the sections that neither fill nor empty the hand
  have hkeep : ∀ {more} (q : Process), q.store = p.store → q.pool.deques = p.pool.deques →
      q.pull.inHand = [] → Placed (ids ++ more) q := by
    intro more q hs hd hhand
    have hsub : ∀ l, (q.ids l).Sublist (p.ids l) := by
      rintro (_ | peer)
      · rw [Process.ids, hhand]
        exact List.nil_sublist _
      · rw [Process.ids, hd]
        exact List.Sublist.refl _
    exact (h.shrink hsub fun id hid => .inl (hs ▸ hid)).more (List.subset_append_left _ _)
  rw [step_pull]
  rcases hpull : p.pull with _ | (_ | ⟨peer, rest⟩) | ⟨peer, n, rest⟩ | ⟨peer, keys, at', rest⟩
  · exact hkeep _ rfl rfl rfl
  · exact hkeep _ rfl rfl rfl
  · refine hkeep _ rfl rfl ?_
    simp only [KeyPool.pull]
    split <;> rfl
  · cases answer with
    | keys keys =>
      have hdel : deliveries (moment (step aead cfg) p (.pull (.keys keys) now)) = keys := by
        simp only [deliveries, moment, hpull]
      rw [hdel] at hnew ⊢
      exact h.receive { p.pool with sourceAvailable := true } (.received peer keys now rest) rfl
        hnew
    | unavailable => exact hkeep _ rfl rfl rfl
    | failed => exact hkeep _ rfl rfl rfl
  · exact (h.store hpull).more (List.subset_append_left _ _)

/-- **Every step keeps the units in place**, as long as the source does
not deliver a key id again. -/
theorem placed_step (h : Placed ids p) (a : Act)
    (hnew : (ids ++ (deliveries (moment (step aead cfg) p a)).map (·.keyId)).Nodup) :
    Placed (ids ++ (deliveries (moment (step aead cfg) p a)).map (·.keyId))
      (step aead cfg p a).1 := by
  have hnone : ∀ {q : Process}, Shrinks p.pool q.pool → (q.pull = p.pull ∨ q.pull = .idle) →
      q.store = p.store → Placed ids q := fun hp hpull hs =>
    h.shrink (ids_sublist hp hpull) fun id hid => .inl (hs ▸ hid)
  cases a with
  | request r fates nonces =>
    exact (h.request r fates nonces).more (List.subset_append_left _ _)
  | pull answer now => exact h.pull answer now hnew
  | expire peer now =>
    have hp : Shrinks p.pool (step aead cfg p (.expire peer now)).1.pool :=
      shrinks_withDeque (List.dropWhile_suffix _)
    exact (hnone hp (.inl rfl) rfl).more (List.subset_append_left _ _)
  | restart =>
    have hp : Shrinks p.pool (step aead cfg p .restart).1.pool := shrinks_boot _ _
    exact (hnone hp (.inr rfl) rfl).more (List.subset_append_left _ _)

/-! ## Any run -/

variable (aead cfg) in
/-- **No unit is in two places and none in the pool was used**, along
every run from the empty database in which no key id is delivered twice. -/
theorem placed_run {acts : List Act} (h : ((delivered aead cfg acts).map (·.keyId)).Nodup) :
    Placed ((delivered aead cfg acts).map (·.keyId))
      (exec (step aead cfg) (boot .empty) acts) := by
  revert h
  refine trace_invariant (fun past p => ((past.flatMap deliveries).map (·.keyId)).Nodup →
    Placed ((past.flatMap deliveries).map (·.keyId)) p) (fun _ => True) (fun _ => placed_boot) ?_
    (fun _ _ => trivial)
  intro past p a ih _ hnodup
  simp only [List.flatMap_append, List.flatMap_singleton, List.map_append] at hnodup ⊢
  exact placed_step (ih (List.Nodup.of_append_left hnodup)) a hnodup

end

end QkdEkm.Ekm
