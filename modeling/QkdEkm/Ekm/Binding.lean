import QkdEkm.Ekm.Permanence

/-!
# Binding — is a wrapped key a bound key?

The KEK and its binding are two commits. What a step does to the store
is one of four things (`StoreStep`); only one of them, a first wrap
that loses its second write, leaves a KEK without a binding, and the
next wrap of that key id answers all the same. Along every run without
such a step the two tables agree.
-/

namespace QkdEkm.Ekm

open QkdEkm.Common QkdEkm.Lib

/-! ## What a step does to the store -/

/-- The unit that a first wrap of `o` takes. -/
def firstUnit (cfg : Config) (p : Process) (o : String) : Option Key :=
  if cfg.bindPeer ∈ cfg.pool.peers ∧ p.store.kekRow o = none then
    match p.pool.deques cfg.bindPeer with
    | [] => none
    | (key, _) :: _ => if p.store.isConsumed key.keyId then none else some key
  else none

/-- A well-formed first wrap that finds a unit and can seal it, and
whose first write commits while the second does not. -/
def LosesBinding (aead : Aead) (cfg : Config) (p : Process) (a : Act) : Prop :=
  ∃ r fates nonces o plaintext aad key row, a = .request r fates nonces ∧
    r.Wraps o plaintext aad ∧ firstUnit cfg p o = some key ∧
    KekOf aead cfg o key nonces row ∧ Loses fates

/-- What a step does to the store. -/
inductive StoreStep (aead : Aead) (cfg : Config) (p : Process) (a : Act) : Store → Prop
  | same : StoreStep aead cfg p a p.store
  | unbound {o key row nonces pool} (hn : p.store.kekRow o = none)
      (ht : Takes cfg p cfg.bindPeer key pool) (hk : KekOf aead cfg o key nonces row)
      (hwhy : LosesBinding aead cfg p a ∨
        ∃ b ∈ p.store.bindings.rows, b.purpose = .ekm ∧ b.objectId = o) :
    StoreStep aead cfg p a (p.store.putKek row)
  | wrapped {o key row nonces pool store} (hn : p.store.kekRow o = none)
      (ht : Takes cfg p cfg.bindPeer key pool) (hk : KekOf aead cfg o key nonces row)
      (hb : (p.store.putKek row).bind key.keyId .ekm o cfg.bindPeer = .ok store) :
    StoreStep aead cfg p a store
  | delivered {peer u key pool store} (hu : u ≠ .ekm) (ht : Takes cfg p peer key pool)
      (hb : p.store.bind key.keyId u (peer ++ ":" ++ key.keyId) peer = .ok store) :
    StoreStep aead cfg p a store

theorem newPurpose_ne_ekm {s : String} {u : Purpose} (h : newPurpose s = some u) : u ≠ .ekm := by
  unfold newPurpose at h
  split at h
  · cases h
    decide
  · cases h
    decide
  · cases h

section

variable {aead : Aead} {cfg : Config} {p : Process}

theorem Takes.firstUnit {o : String} {key : Key} {pool : KeyPool}
    (h : Takes cfg p cfg.bindPeer key pool) (hn : p.store.kekRow o = none) :
    firstUnit cfg p o = some key := by
  obtain ⟨receivedAt, rest, hdq, _⟩ := h.popped
  simp [Ekm.firstUnit, h.known, hn, hdq, h.fresh]

theorem FirstUse.storeStep {a : Act} {o : String} {fates : List Fate} {nonces : List Nonce}
    {r : Except Stop Bytes} {store : Store} {pool : KeyPool}
    (h : FirstUse aead cfg o p fates nonces r store pool) (hn : p.store.kekRow o = none)
    (ha : ∀ key row, firstUnit cfg p o = some key → KekOf aead cfg o key nonces row →
      Loses fates → LosesBinding aead cfg p a) : StoreStep aead cfg p a store := by
  cases h with
  | refused _ => exact .same
  | lost ht hk hl => exact .unbound hn ht hk (.inl (ha _ _ (ht.firstUnit hn) hk hl))
  | rebound ht hk hb _ => exact .unbound hn ht hk (.inr hb)
  | bound ht hk hb _ => exact .wrapped hn ht hk hb

/-- **Inversion of the store**: every step does one of the four things. -/
theorem step_store (p : Process) (a : Act) :
    StoreStep aead cfg p a (step aead cfg p a).1.store := by
  cases a with
  | request r fates nonces =>
    obtain ⟨res, p', hends, hstep⟩ := step_request aead cfg p r fates nonces
    rw [hstep, respond_store]
    cases hends with
    | unwrap _ _ | malformed _ | other _ _ => exact .same
    | wrap hop h =>
      cases h with
      | malformed _ | unreadable _ _ | known _ _ _ _ => exact .same
      | first hn hx hf _ | stopped hn hx hf =>
        refine hf.storeStep hn fun key row hu hk hl => ?_
        exact ⟨_, _, _, _, _, _, key, row, rfl, ⟨_, _, _, rfl, hop, hx⟩, hu, hk, hl⟩
    | new h =>
      cases h with
      | refused _ => exact .same
      | bound hu ht hb _ => exact .delivered (newPurpose_ne_ekm hu) ht hb
  | pull answer now => exact .same
  | expire peer now => exact .same
  | restart => exact .same

/-! ## The units in the pool were delivered -/

/-- The units that a step delivers: those the source answers to a call
of `enc_keys`. -/
def deliveries (m : Moment Process Act (Option Response)) : List Key :=
  match m.act, m.pre.pull with
  | .pull (.keys keys) _, .asking _ _ _ => keys
  | _, _ => []

/-- The pool holds nothing that was not delivered. -/
structure Supplied (units : List Key) (p : Process) : Prop where
  pooled : ∀ peer key receivedAt, (key, receivedAt) ∈ p.pool.deques peer → key ∈ units
  received : ∀ peer keys receivedAt rest, p.pull = .received peer keys receivedAt rest →
    ∀ key ∈ keys, key ∈ units

theorem supplied_boot (store : Store) : Supplied [] (boot store) where
  pooled := by
    intro peer key receivedAt h
    cases h
  received := by
    rintro _ _ _ _ ⟨⟩

theorem Supplied.shrink {units : List Key} {p' : Process} (h : Supplied units p)
    (hp : Shrinks p.pool p'.pool) (hpull : p'.pull = p.pull ∨ p'.pull = .idle) :
    Supplied units p' where
  pooled := fun peer key receivedAt hm => h.pooled peer key receivedAt ((hp peer).subset hm)
  received := by
    intro peer keys receivedAt rest hr
    rcases hpull with hpull | hpull
    · exact h.received peer keys receivedAt rest (hpull ▸ hr)
    · rw [hpull] at hr
      cases hr

theorem Supplied.more {units units' : List Key} (h : Supplied units p) (hsub : units ⊆ units') :
    Supplied units' p where
  pooled := fun peer key receivedAt hm => hsub (h.pooled peer key receivedAt hm)
  received := fun peer keys receivedAt rest hr key hk =>
    hsub (h.received peer keys receivedAt rest hr key hk)

theorem shrinks_boot (pool : KeyPool) (store : Store) : Shrinks pool (boot store).pool :=
  fun _ => List.nil_suffix

theorem FirstUse.shrinks {o : String} {fates : List Fate} {nonces : List Nonce}
    {r : Except Stop Bytes} {store : Store} {pool : KeyPool}
    (h : FirstUse aead cfg o p fates nonces r store pool) : Shrinks p.pool pool := by
  cases h with
  | refused hp => exact hp
  | lost ht _ _ | rebound ht _ _ _ | bound ht _ _ _ => exact ht.shrinks

variable (aead cfg) in
/-- A request only takes from the pool. -/
theorem request_shrinks (p : Process) (r : Request) (fates : List Fate) (nonces : List Nonce) :
    Shrinks p.pool (step aead cfg p (.request r fates nonces)).1.pool ∧
      ((step aead cfg p (.request r fates nonces)).1.pull = p.pull ∨
        (step aead cfg p (.request r fates nonces)).1.pull = .idle) := by
  obtain ⟨res, p', hends, hstep⟩ := step_request aead cfg p r fates nonces
  rw [hstep]
  have hends' : Shrinks p.pool p'.pool ∧ p'.pull = p.pull := by
    cases hends with
    | unwrap _ _ | malformed _ | other _ _ => exact ⟨Shrinks.refl _, rfl⟩
    | wrap _ h =>
      refine ⟨?_, rfl⟩
      cases h with
      | malformed _ | unreadable _ _ | known _ _ _ _ => exact Shrinks.refl _
      | first _ _ hf _ | stopped _ _ hf => exact hf.shrinks
    | new h =>
      refine ⟨?_, rfl⟩
      cases h with
      | refused hp => exact hp
      | bound _ ht _ _ => exact ht.shrinks
  rcases res with (e | _) | reply
  · exact ⟨hends'.1, .inl hends'.2⟩
  · exact ⟨shrinks_boot _ _, .inr rfl⟩
  · exact ⟨hends'.1, .inl hends'.2⟩

theorem step_pull (p : Process) (answer : EncKeys) (now : Time) :
    (step aead cfg p (.pull answer now)).1 =
      { p with
        pool := (p.pool.pull cfg.pool answer now p.pull).1
        pull := (p.pool.pull cfg.pool answer now p.pull).2 } :=
  rfl

theorem supplied_pull {units : List Key} (h : Supplied units p) (answer : EncKeys) (now : Time) :
    Supplied (units ++ deliveries (moment (step aead cfg) p (.pull answer now)))
      (step aead cfg p (.pull answer now)).1 := by
  have hkeep : ∀ {more pull} (source), (∀ peer keys at' rest, pull = .received peer keys at' rest →
        ∀ key ∈ keys, key ∈ units ++ more) →
      Supplied (units ++ more)
        { p with pool := { p.pool with sourceAvailable := source }, pull } :=
    fun _ hr => ⟨fun peer key at' hm => List.mem_append_left _ (h.pooled peer key at' hm), hr⟩
  rw [step_pull, deliveries, moment]
  rcases hpull : p.pull with _ | (_ | ⟨peer, rest⟩) | ⟨peer, n, rest⟩ | ⟨peer, keys, at', rest⟩
  · exact hkeep p.pool.sourceAvailable (by rintro _ _ _ _ ⟨⟩)
  · exact hkeep p.pool.sourceAvailable (by rintro _ _ _ _ ⟨⟩)
  · refine hkeep p.pool.sourceAvailable ?_
    intro peer' keys at' rest' hr
    simp only [KeyPool.pull] at hr
    split at hr <;> cases hr
  · cases answer with
    | keys keys =>
      refine hkeep true ?_
      rintro _ _ _ _ ⟨⟩ key hk
      exact List.mem_append_right _ hk
    | unavailable => exact hkeep false (by rintro _ _ _ _ ⟨⟩)
    | failed => exact hkeep p.pool.sourceAvailable (by rintro _ _ _ _ ⟨⟩)
  · refine ⟨fun peer' key receivedAt hm => List.mem_append_left _ ?_, by rintro _ _ _ _ ⟨⟩⟩
    simp only [KeyPool.pull, withDeque_deques] at hm
    split at hm
    · rcases List.mem_append.mp hm with hm | hm
      · exact h.pooled peer key receivedAt hm
      · obtain ⟨key', hk, ⟨⟩⟩ := List.mem_map.mp hm
        exact h.received peer keys at' rest hpull key hk
    · exact h.pooled peer' key receivedAt hm

/-- **The pool is supplied by the source**, through every step. -/
theorem supplied_step {units : List Key} (h : Supplied units p) (a : Act) :
    Supplied (units ++ deliveries (moment (step aead cfg) p a)) (step aead cfg p a).1 := by
  cases a with
  | request r fates nonces =>
    obtain ⟨hp, hpull⟩ := request_shrinks aead cfg p r fates nonces
    exact (h.shrink hp hpull).more (List.subset_append_left _ _)
  | pull answer now => exact supplied_pull h answer now
  | expire peer now =>
    have hp : Shrinks p.pool (step aead cfg p (.expire peer now)).1.pool :=
      shrinks_withDeque (List.dropWhile_suffix _)
    exact (h.shrink hp (.inl rfl)).more (List.subset_append_left _ _)
  | restart =>
    have hp : Shrinks p.pool (step aead cfg p .restart).1.pool := shrinks_boot _ _
    exact (h.shrink hp (.inr rfl)).more (List.subset_append_left _ _)

/-! ## The two tables agree -/

/-- Every KEK is the material of a unit of `units`, and every binding of
an object has the KEK of that object. -/
structure Backed (aead : Aead) (cfg : Config) (units : List Key) (s : Store) : Prop where
  unit : ∀ row ∈ s.kek.rows, ∃ kek, row.material aead cfg.localKey = some kek ∧
    ⟨row.qkdKeyId, kek⟩ ∈ units
  kek : ∀ b ∈ s.bindings.rows, b.purpose = .ekm →
    ∃ row ∈ s.kek.rows, row.objectId = b.objectId ∧ row.qkdKeyId = b.qkdKeyId

/-- Every KEK is bound. -/
def Bound (cfg : Config) (s : Store) : Prop :=
  ∀ row ∈ s.kek.rows, ⟨row.qkdKeyId, .ekm, row.objectId, cfg.bindPeer⟩ ∈ s.bindings.rows

theorem Takes.mem {units : List Key} {peer : String} {key : Key} {pool : KeyPool}
    (h : Takes cfg p peer key pool) (hs : Supplied units p) : key ∈ units := by
  obtain ⟨receivedAt, rest, hdq, _⟩ := h.popped
  exact hs.pooled peer key receivedAt (hdq ▸ List.mem_cons_self ..)

theorem Backed.more {units units' : List Key} {s : Store} (h : Backed aead cfg units s)
    (hsub : units ⊆ units') : Backed aead cfg units' s where
  unit := by
    intro row hrow
    obtain ⟨kek, hm, hu⟩ := h.unit row hrow
    exact ⟨kek, hm, hsub hu⟩
  kek := h.kek

/-- An object without a KEK has no binding. -/
theorem Backed.unbound {units : List Key} {s : Store} {o : String} (h : Backed aead cfg units s)
    (hn : s.kekRow o = none) : ∀ b ∈ s.bindings.rows, ¬ (b.purpose = .ekm ∧ b.objectId = o) := by
  rintro b hb ⟨hu, rfl⟩
  obtain ⟨row, hrow, ho, _⟩ := h.kek b hb hu
  rw [kekRow_eq_some.mpr ⟨hrow, ho⟩] at hn
  cases hn

theorem Backed.putKek {units : List Key} {s : Store} {o : String} {key : Key}
    {nonces : List Nonce} {row : KekRow} (h : Backed aead cfg units s) (hn : s.kekRow o = none)
    (hk : KekOf aead cfg o key nonces row) (hu : key ∈ units) :
    Backed aead cfg units (s.putKek row) where
  unit := by
    intro row' hrow'
    rcases mem_putKek.mp hrow' with rfl | ⟨hold, _⟩
    · exact ⟨_, hk.material, hk.qkdKey ▸ hu⟩
    · exact h.unit row' hold
  kek := by
    intro b hb hekm
    obtain ⟨row', hrow', ho, hq⟩ := h.kek b hb hekm
    refine ⟨row', mem_putKek.mpr (.inr ⟨hrow', fun heq => ?_⟩), ho, hq⟩
    exact h.unbound hn b hb ⟨hekm, ho.symm.trans (heq.trans hk.object)⟩

theorem Backed.step {units : List Key} {a : Act} {store : Store}
    (h : Backed aead cfg units p.store) (hs : Supplied units p)
    (hstep : StoreStep aead cfg p a store) : Backed aead cfg units store := by
  cases hstep with
  | same => exact h
  | unbound hn ht hk _ => exact h.putKek hn hk (ht.mem hs)
  | @wrapped o key row nonces pool _ hn ht hk hb =>
    have hput := h.putKek hn hk (ht.mem hs)
    obtain ⟨hkek, _, hrows⟩ := bind_ok hb
    refine ⟨hkek ▸ hput.unit, ?_⟩
    intro b hmem hekm
    rw [hkek]
    rw [hrows] at hmem
    rcases List.mem_append.mp hmem with hmem | hmem
    · exact hput.kek b hmem hekm
    · obtain rfl := List.mem_singleton.mp hmem
      exact ⟨row, mem_putKek.mpr (.inl rfl), hk.object, hk.qkdKey⟩
  | delivered hu _ hb =>
    obtain ⟨hkek, _, hrows⟩ := bind_ok hb
    refine ⟨hkek ▸ h.unit, ?_⟩
    intro b hmem hekm
    rw [hkek]
    rw [hrows] at hmem
    rcases List.mem_append.mp hmem with hmem | hmem
    · exact h.kek b hmem hekm
    · obtain rfl := List.mem_singleton.mp hmem
      exact absurd hekm hu

/-- **Only a lost second write leaves a KEK unbound.** -/
theorem Bound.step {units : List Key} {a : Act} {store : Store} (h : Bound cfg p.store)
    (hbacked : Backed aead cfg units p.store) (hl : ¬ LosesBinding aead cfg p a)
    (hstep : StoreStep aead cfg p a store) : Bound cfg store := by
  cases hstep with
  | same => exact h
  | unbound hn _ _ hwhy =>
    obtain ⟨b, hb, hekm⟩ := hwhy.resolve_left hl
    exact absurd hekm (hbacked.unbound hn b hb)
  | wrapped hn _ hk hb =>
    obtain ⟨hkek, _, hrows⟩ := bind_ok hb
    intro row hrow
    rw [hkek] at hrow
    rw [hrows]
    rcases mem_putKek.mp hrow with rfl | ⟨hold, _⟩
    · refine List.mem_append_right _ (List.mem_singleton.mpr ?_)
      rw [hk.qkdKey, hk.object]
    · exact List.mem_append_left _ (h row hold)
  | delivered _ _ hb =>
    obtain ⟨hkek, _, hrows⟩ := bind_ok hb
    intro row hrow
    rw [hkek] at hrow
    rw [hrows]
    exact List.mem_append_left _ (h row hrow)

/-- Bindings are only added, at the end. -/
theorem StoreStep.bindings {a : Act} {store : Store} (h : StoreStep aead cfg p a store) :
    p.store.bindings.rows <+: store.bindings.rows := by
  cases h with
  | same => exact List.prefix_refl _
  | unbound _ _ _ _ => exact List.prefix_refl _
  | wrapped _ _ _ hb | delivered _ _ hb =>
    rw [(bind_ok hb).2.2]
    exact List.prefix_append _ _

/-- **A binding never changes and never disappears.** -/
theorem bindings_exec (p : Process) (acts : List Act) :
    p.store.bindings.rows <+: (exec (step aead cfg) p acts).store.bindings.rows :=
  exec_rel (R := fun p p' : Process => p.store.bindings.rows <+: p'.store.bindings.rows)
    (fun _ => List.prefix_refl _) (fun _ _ _ => List.IsPrefix.trans)
    (fun p a => (step_store p a).bindings) p acts

/-! ## Any run -/

/-- What holds of a process that was supplied with `units`. -/
structure Sound (aead : Aead) (cfg : Config) (units : List Key) (p : Process) : Prop where
  supplied : Supplied units p
  backed : Backed aead cfg units p.store

theorem sound_boot : Sound aead cfg [] (boot .empty) where
  supplied := supplied_boot _
  backed := by
    constructor
    · rintro _ ⟨⟩
    · rintro _ ⟨⟩

theorem sound_step {units : List Key} (h : Sound aead cfg units p) (a : Act) :
    Sound aead cfg (units ++ deliveries (moment (step aead cfg) p a)) (step aead cfg p a).1 where
  supplied := supplied_step h.supplied a
  backed := (h.backed.step h.supplied (step_store p a)).more (List.subset_append_left _ _)

/-- The units delivered along a run from the empty database. -/
def delivered (aead : Aead) (cfg : Config) (acts : List Act) : List Key :=
  (trace (step aead cfg) (boot .empty) acts).flatMap deliveries

variable (aead cfg) in
theorem sound_run (acts : List Act) :
    Sound aead cfg (delivered aead cfg acts) (exec (step aead cfg) (boot .empty) acts) := by
  refine trace_invariant (fun past p => Sound aead cfg (past.flatMap deliveries) p)
    (fun _ => True) sound_boot ?_ (fun _ _ => trivial)
  intro past p a h _
  simpa using sound_step h a

theorem bound_run {acts : List Act}
    (hacts : ∀ m ∈ trace (step aead cfg) (boot .empty) acts, ¬ LosesBinding aead cfg m.pre m.act) :
    Bound cfg (exec (step aead cfg) (boot .empty) acts).store := by
  refine (trace_invariant (fun past p =>
    Sound aead cfg (past.flatMap deliveries) p ∧ Bound cfg p.store) _
    ⟨sound_boot, by rintro _ ⟨⟩⟩ ?_ hacts).2
  rintro past p a ⟨h, hb⟩ hl
  refine ⟨by simpa using sound_step h a, hb.step h.backed hl (step_store p a)⟩

/-- A wrap that answers is well formed. -/
theorem Request.WrapOf.wraps {r : Request} {o : String} {fates : List Fate} {nonces : List Nonce}
    {blob : String} (hr : r.WrapOf o)
    (hanswer : (step aead cfg p (.request r fates nonces)).2 = some ⟨200, .wrapped blob⟩) :
    ∃ plaintext aad, r.Wraps o plaintext aad := by
  obtain ⟨keyIdOp, body, rfl, hpath⟩ := hr
  obtain ⟨res, p', hends, hstep⟩ :=
    step_request aead cfg p (.keyOp keyIdOp body) fates nonces
  rw [hstep] at hanswer
  obtain ⟨rfl, _⟩ := respond_eq (by rintro _ ⟨⟩) hanswer
  cases hends with
  | unwrap _ h => cases h
  | other hk _ => cases hk
  | wrap hop h =>
    obtain rfl := parseKeyOp_wrap hop hpath
    cases h with
    | known _ _ hx _ | first _ hx _ _ => exact ⟨_, _, _, _, _, rfl, hop, hx⟩

/-- What the answer `blob` to a wrap under `o` promises of the database:
`o` has a KEK that seals the blob, it is the material of a unit, and
that unit is bound to `o`. -/
def Promised (aead : Aead) (cfg : Config) (units : List Key) (s : Store) (o blob : String)
    (plaintext aad : Bytes) : Prop :=
  ∃ row kek nonce sealedBlob, s.kekRow o = some row ∧
    ⟨row.qkdKeyId, .ekm, o, cfg.bindPeer⟩ ∈ s.bindings.rows ∧
    row.material aead cfg.localKey = some kek ∧ ⟨row.qkdKeyId, kek⟩ ∈ units ∧
    aesGcmWrap aead nonce kek plaintext aad = some sealedBlob ∧ blob = b64e sealedBlob

/-- **A wrapped key is a bound key**, now and ever after, in every run
from the empty database that loses no binding before the wrap answers. -/
theorem wrapped_key_bound (aead : Aead) (cfg : Config) {acts : List Act} {r : Request}
    {o blob : String} {fates : List Fate} {nonces : List Nonce}
    (hacts : ∀ m ∈ trace (step aead cfg) (boot .empty) (acts ++ [.request r fates nonces]),
      ¬ LosesBinding aead cfg m.pre m.act) (hr : r.WrapOf o)
    (hanswer : (step aead cfg (exec (step aead cfg) (boot .empty) acts)
      (.request r fates nonces)).2 = some ⟨200, .wrapped blob⟩) (later : List Act) :
    ∃ plaintext aad, r.Wraps o plaintext aad ∧
      Promised aead cfg (delivered aead cfg acts)
        (exec (step aead cfg) (boot .empty) (acts ++ .request r fates nonces :: later)).store
        o blob plaintext aad := by
  obtain ⟨plaintext, aad, hw⟩ := hr.wraps hanswer
  obtain ⟨row, kek, nonce, sealedBlob, hrow, hm, hs, hblob⟩ := wrapped_row hw hanswer
  have hbound := bound_run hacts
  have hsound := sound_step (sound_run aead cfg acts) (.request r fates nonces)
  simp only [exec_append, exec] at hbound ⊢
  obtain ⟨hmem, ho⟩ := kekRow_eq_some.mp hrow
  obtain ⟨kek', hm', hunit⟩ := hsound.backed.unit row hmem
  cases hm.symm.trans hm'
  refine ⟨plaintext, aad, hw, row, kek, nonce, sealedBlob, kekRow_exec later hrow, ?_, hm, ?_, hs,
    hblob⟩
  · exact (bindings_exec _ later).subset (ho ▸ hbound row hmem)
  · simpa [deliveries, moment] using hunit

end

/-- The thread delivers `firstKey` to the pool. -/
def pullFirst : List Act := List.replicate 4 (.pull (.keys [firstKey]) 0)

/-- The first wrap of `k`, of which the second write raises. -/
def wrapHiUnbound : Act := .request wrapHi [.commits, .raises] []

/-- A run that loses no binding. -/
theorem wrapped_key_bound_first :
    ∃ plaintext aad, wrapHi.Wraps "k" plaintext aad ∧
      Promised .tagging onePeer (delivered .tagging onePeer pullFirst)
        (exec (step .tagging onePeer) (boot .empty)
          (pullFirst ++ .request wrapHi [] [] :: [.restart])).store
        "k" "AAAAAAAAAAAAAAAAaGkAAAAAAAAAAAAAAAAAAAAA" plaintext aad := by
  have hwrap : wrapHi.WrapOf "k" := ⟨_, _, rfl, rfl⟩
  have hanswer : (step .tagging onePeer (exec (step .tagging onePeer) (boot .empty) pullFirst)
      (.request wrapHi [] [])).2 =
      some ⟨200, .wrapped "AAAAAAAAAAAAAAAAaGkAAAAAAAAAAAAAAAAAAAAA"⟩ := rfl
  refine wrapped_key_bound .tagging onePeer ?_ hwrap hanswer [.restart]
  rintro m hm ⟨_, fates, _, _, _, _, _, _, hact, _, _, _, hl⟩
  simp only [pullFirst, List.replicate, List.cons_append, List.nil_append, trace, List.mem_cons,
    List.not_mem_nil, or_false] at hm
  rcases hm with rfl | rfl | rfl | rfl | rfl <;> cases hact
  exact absurd hl (by decide)

/-- **The retry answers without a binding**: the wrap that met the error
left the KEK, and the next one finds it and never binds. -/
theorem wrapped_key_unbound :
    ¬ ∀ (acts : List Act) (r : Request) (fates : List Fate) (nonces : List Nonce)
      (o blob : String), r.WrapOf o →
      (step .tagging onePeer (exec (step .tagging onePeer) (boot .empty) acts)
        (.request r fates nonces)).2 = some ⟨200, .wrapped blob⟩ →
      ∃ plaintext aad, Promised .tagging onePeer (delivered .tagging onePeer acts)
        (exec (step .tagging onePeer) (boot .empty) (acts ++ [.request r fates nonces])).store
        o blob plaintext aad := by
  intro h
  obtain ⟨_, _, row, _, _, _, _, hb, _⟩ := h (pullFirst ++ [wrapHiUnbound]) wrapHi [] [] "k"
    "AAAAAAAAAAAAAAAAaGkAAAAAAAAAAAAAAAAAAAAA" ⟨_, _, rfl, rfl⟩ rfl
  have hnone : (exec (step .tagging onePeer) (boot .empty)
      (pullFirst ++ [wrapHiUnbound] ++ [.request wrapHi [] []])).store.bindings.rows = [] := rfl
  rw [hnone] at hb
  cases hb

end QkdEkm.Ekm
