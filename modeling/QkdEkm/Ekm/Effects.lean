import QkdEkm.Ekm.App
import QkdEkm.Lib.Wp

/-!
# Effects — what one request can do

The inversion of the handlers. `WrapEnds` and `NewEnds` list the ways in
which a wrap and an allocation end, with the store and the pool they
leave behind; every other request leaves both alone. Later results
split on these and never unfold a handler.
-/

namespace QkdEkm.Ekm

open QkdEkm.Common QkdEkm.Lib

/-! ## The primitives -/

section Primitives

variable {α : Type} {R : Except Stop α → World → Prop} {w : World}

theorem wp_lift {r : Except Exn α} : Wp (lift r) R w ↔
    match r with
    | .ok a => R (.ok a) w
    | .error e => R (.error (.raised e)) w := by
  cases r <;> rfl

theorem lift_ok_bind {β : Type} {b : β} {f : β → Handler α} : (lift (.ok b) >>= f) = f b := rfl

/-- What a caught exception leaves to be shown. -/
theorem Wp.catching {x h : Handler α} {e : Exn} {P : Except Stop α → World → Prop}
    (hx : Wp x P w) (hok : ∀ a t, P (.ok a) t → R (.ok a) t)
    (hcaught : ∀ t, P (.error (.raised e)) t → Wp h R t)
    (hpass : ∀ stop t, stop ≠ .raised e → P (.error stop) t → R (.error stop) t) :
    Wp (catching x e h) R w := by
  unfold Ekm.catching
  rw [wp_tryCatch]
  refine hx.mono fun r t hp => ?_
  cases r with
  | ok a => exact hok a t hp
  | error stop =>
    dsimp only
    split
    · rename_i heq
      exact hcaught t (heq ▸ hp)
    · rename_i hne
      exact hpass stop t hne hp

theorem wp_urandom {R : Except Stop Nonce → World → Prop} :
    Wp urandom R w ↔ R (.ok (w.nonces.headD .zero)) { w with nonces := w.nonces.tail } := Iff.rfl

/-- A write of `store'` commits, with or without the process. -/
def Commits (fates : List Fate) (r : Except Stop PUnit) : Prop :=
  (fates.headD .commits = .commits ∧ r = .ok ⟨⟩) ∨
    (fates.headD .commits = .crashAfter ∧ r = .error .crashed)

/-- The ways a write of `result` ends. -/
inductive WriteEnds (result : Except Exn Store) (store : Store) (fates : List Fate) :
    Except Stop PUnit → Store → Prop
  | wrote {store' r} (hw : result = .ok store') (hc : Commits fates r) :
    WriteEnds result store fates r store'
  | refused {e} (hw : result = .error e) (hf : fates.headD .commits = .commits) :
    WriteEnds result store fates (.error (.raised e)) store
  | failed (hf : fates.headD .commits = .raises) :
    WriteEnds result store fates (.error (.raised .sqliteError)) store
  | died (hf : fates.headD .commits = .crashBefore ∨
      (fates.headD .commits = .crashAfter ∧ ∃ e, result = .error e)) :
    WriteEnds result store fates (.error .crashed) store

theorem commit_spec (write : Store → Except Exn Store) : Wp (commit write) (fun r w' =>
    ∃ store', WriteEnds (write w.process.store) w.process.store w.fates r store' ∧
      w' = { w with fates := w.fates.tail }.withStore store') w := by
  unfold Wp commit
  cases hf : w.fates.headD .commits <;> cases hw : write w.process.store <;>
    simp only
  · exact ⟨_, .refused rfl hf, rfl⟩
  · exact ⟨_, .wrote rfl (.inl ⟨hf, rfl⟩), rfl⟩
  · exact ⟨_, .failed hf, rfl⟩
  · exact ⟨_, .failed hf, rfl⟩
  · exact ⟨_, .died (.inl hf), rfl⟩
  · exact ⟨_, .died (.inl hf), rfl⟩
  · exact ⟨_, .died (.inr ⟨hf, _, rfl⟩), rfl⟩
  · exact ⟨_, .wrote rfl (.inr ⟨hf, rfl⟩), rfl⟩

end Primitives

/-! ## Allocation -/

variable {aead : Aead} {cfg : Config}

/-- Every deque lost at most some of its oldest units. -/
def Shrinks (pool pool' : KeyPool) : Prop := ∀ peer, pool'.deques peer <:+ pool.deques peer

theorem Shrinks.refl (pool : KeyPool) : Shrinks pool pool := fun _ => List.suffix_refl _

/-- The oldest unit of a known peer, unconsumed, leaves the pool. -/
structure Takes (cfg : Config) (p : Process) (peer : String) (key : Key) (pool' : KeyPool) :
    Prop where
  known : peer ∈ cfg.pool.peers
  fresh : p.store.isConsumed key.keyId = false
  popped : ∃ receivedAt rest, p.pool.deques peer = (key, receivedAt) :: rest ∧
    pool' = p.pool.withDeque peer rest

theorem shrinks_withDeque {pool : KeyPool} {peer : String} {dq : List (Key × Time)}
    (h : dq <:+ pool.deques peer) : Shrinks pool (pool.withDeque peer dq) :=
  fun peer' => withDeque_suffix h peer'

theorem Takes.shrinks {p : Process} {peer : String} {key : Key} {pool' : KeyPool}
    (h : Takes cfg p peer key pool') : Shrinks p.pool pool' := by
  obtain ⟨receivedAt, rest, hdq, rfl⟩ := h.popped
  exact shrinks_withDeque (hdq ▸ List.suffix_cons _ _)

/-- The ways an allocation ends. -/
inductive AllocEnds (cfg : Config) (p : Process) (peer : String) :
    Except Stop Key → KeyPool → Prop
  | refused {e pool'} (h : Shrinks p.pool pool') : AllocEnds cfg p peer (.error (.raised e)) pool'
  | taken {key pool'} (h : Takes cfg p peer key pool') : AllocEnds cfg p peer (.ok key) pool'

/-- The same for the pool's own result. -/
theorem keyPool_allocate {p : Process} {peer : String} {r : Except Exn Key} {pool' : KeyPool}
    (h : p.pool.allocate cfg.pool p.store peer = (r, pool')) :
    (∀ key, r = .ok key → Takes cfg p peer key pool') ∧ Shrinks p.pool pool' := by
  have hshrinks : Shrinks p.pool pool' := by
    have hsuffix := allocate_suffix cfg.pool p.pool p.store peer
    rwa [h] at hsuffix
  refine ⟨?_, hshrinks⟩
  rintro key rfl
  unfold KeyPool.allocate at h
  split at h
  · rename_i hp
    split at h
    · cases h
    · rename_i key' receivedAt rest hdq
      obtain ⟨hr, rfl⟩ := Prod.mk.inj h
      split at hr
      · cases hr
      · rename_i hc
        cases hr
        exact ⟨hp, Bool.eq_false_iff.mpr hc, receivedAt, rest, hdq, rfl⟩
  · cases h

/-- What an allocation leaves behind. -/
def Allocated (cfg : Config) (peer : String) (w : World) (r : Except Stop Key) (w' : World) :
    Prop :=
  ∃ pool', w' = w.withPool pool' ∧ AllocEnds cfg w.process peer r pool'

theorem poolAllocate_spec (peer : String) (w : World) :
    Wp (poolAllocate cfg peer) (Allocated cfg peer w) w := by
  unfold Wp poolAllocate
  rcases h : w.process.pool.allocate cfg.pool w.process.store peer with ⟨_ | key, pool'⟩
  · exact ⟨pool', rfl, .refused (keyPool_allocate h).2⟩
  · exact ⟨pool', rfl, .taken ((keyPool_allocate h).1 key rfl)⟩

theorem allocate_spec (peer : String) (w : World) :
    Wp (allocate cfg peer) (Allocated cfg peer w) w := by
  have hcaught : ∀ {e e' : Exn} {t : World}, Allocated cfg peer w (.error (.raised e)) t →
      Wp (raise e' : Handler Key) (Allocated cfg peer w) t := by
    rintro e e' t ⟨pool', rfl, h⟩
    cases h with
    | refused h => exact ⟨pool', rfl, .refused h⟩
  have hinner : Wp (catching (poolAllocate cfg peer) .keyError
      (raise (httpError 404 ("unknown peer " ++ peer)))) (Allocated cfg peer w) w :=
    Wp.catching (poolAllocate_spec peer w) (fun _ _ h => h) (fun _ h => hcaught h)
      fun _ _ _ h => h
  exact Wp.catching hinner (fun _ _ h => h) (fun _ h => hcaught h) fun _ _ _ h => h

/-! ## The first wrap of a key id -/

/-- The row of `o` for the material of `key`, sealed under the next nonce. -/
def KekOf (aead : Aead) (cfg : Config) (o : String) (key : Key) (nonces : List Nonce)
    (row : KekRow) : Prop :=
  Store.encKek aead cfg.localKey (nonces.headD .zero) o key.keyId key.key = .ok row

section

variable {o : String} {key : Key} {nonces : List Nonce} {row : KekRow}

theorem KekOf.object (h : KekOf aead cfg o key nonces row) : row.objectId = o := (encKek_ok h).1

theorem KekOf.qkdKey (h : KekOf aead cfg o key nonces row) : row.qkdKeyId = key.keyId :=
  (encKek_ok h).2.1

theorem KekOf.material (h : KekOf aead cfg o key nonces row) :
    row.material aead cfg.localKey = some key.key := (encKek_ok h).2.2

end

/-- What a write of the row of `key` leaves behind. -/
def KekPut (aead : Aead) (cfg : Config) (o : String) (key : Key) (w : World)
    (r : Except Stop PUnit) (w' : World) : Prop :=
  (w'.process = w.process ∧ ∃ stop, r = .error stop) ∨
    ∃ row, KekOf aead cfg o key w.nonces row ∧ Commits w.fates r ∧ w'.fates = w.fates.tail ∧
      w'.process = { w.process with store := w.process.store.putKek row }

theorem putKek_spec (o : String) (key : Key) (w : World) :
    Wp (putKek aead cfg o key.keyId key.key) (KekPut aead cfg o key w) w := by
  unfold putKek
  rw [wp_bind, wp_urandom]
  refine wp_bind.mpr (wp_lift.mpr ?_)
  split
  · rename_i row hrow
    refine (commit_spec _).mono ?_
    rintro r w' ⟨store', hw, rfl⟩
    cases hw with
    | wrote hw hc =>
      cases hw
      exact .inr ⟨row, hrow, hc, rfl, rfl⟩
    | refused hw hf => cases hw
    | failed hf => exact .inl ⟨rfl, _, rfl⟩
    | died hf => exact .inl ⟨rfl, _, rfl⟩
  · exact .inl ⟨rfl, _, rfl⟩

/-- The KEK is durable and its binding is not: the process died right
after the first write, or the second failed. -/
def Loses (fates : List Fate) : Prop :=
  fates.headD .commits = .crashAfter ∨
    (fates.headD .commits = .commits ∧
      (fates.tail.headD .commits = .raises ∨ fates.tail.headD .commits = .crashBefore))

instance : DecidablePred Loses := fun fates => by
  unfold Loses
  infer_instance

/-- The ways the first use of `o` ends. -/
inductive FirstUse (aead : Aead) (cfg : Config) (o : String) (p : Process) (fates : List Fate)
    (nonces : List Nonce) :
    Except Stop Bytes → Store → KeyPool → Prop
  | refused {stop pool} (hp : Shrinks p.pool pool) :
    FirstUse aead cfg o p fates nonces (.error stop) p.store pool
  | lost {key row stop pool} (ht : Takes cfg p cfg.bindPeer key pool)
      (hk : KekOf aead cfg o key nonces row) (hl : Loses fates) :
    FirstUse aead cfg o p fates nonces (.error stop) (p.store.putKek row) pool
  | rebound {key row pool r} (ht : Takes cfg p cfg.bindPeer key pool)
      (hk : KekOf aead cfg o key nonces row)
      (hb : ∃ b ∈ p.store.bindings.rows, b.purpose = .ekm ∧ b.objectId = o)
      (hr : r = .ok key.key ∨ r = .error .crashed) :
    FirstUse aead cfg o p fates nonces r (p.store.putKek row) pool
  | bound {key row pool store r} (ht : Takes cfg p cfg.bindPeer key pool)
      (hk : KekOf aead cfg o key nonces row)
      (hb : (p.store.putKek row).bind key.keyId .ekm o cfg.bindPeer = .ok store)
      (hr : r = .ok key.key ∨ r = .error .crashed) :
    FirstUse aead cfg o p fates nonces r store pool

/-- A clash of an unconsumed key is one of the object. -/
theorem clash_object {p : Process} {peer : String} {key : Key} {pool : KeyPool}
    (ht : Takes cfg p peer key pool) {u : Purpose} {o peer' : String}
    (hc : ∃ b ∈ p.store.bindings.rows, BindingRow.Clash b ⟨key.keyId, u, o, peer'⟩) :
    ∃ b ∈ p.store.bindings.rows, b.purpose = u ∧ b.objectId = o := by
  obtain ⟨b, hb, hq | ho⟩ := hc
  · have := isConsumed_iff.mpr ⟨b, hb, hq⟩
    rw [ht.fresh] at this
    cases this
  · exact ⟨b, hb, ho⟩

/-- The second write of a first use, a clash of which is passed over. -/
theorem firstUse_bind {o : String} {p : Process} {fates : List Fate}
    {nonces : List Nonce} {key : Key} {row : KekRow}
    {pool : KeyPool} (ht : Takes cfg p cfg.bindPeer key pool) (hk : KekOf aead cfg o key nonces row)
    {w : World} (hw : w.process = { p with store := p.store.putKek row, pool })
    (hf : fates.headD .commits = .commits) (hfates : w.fates = fates.tail) :
    Wp (catching (storeBind key.keyId .ekm o cfg.bindPeer) .alreadyBound (pure ⟨⟩))
      (fun r w' => ∃ store, FirstUse aead cfg o p fates nonces (r.map fun _ => key.key) store pool ∧
        w'.process = { p with store, pool }) w := by
  have hclash : ∀ {e}, (p.store.putKek row).bind key.keyId .ekm o cfg.bindPeer = .error e →
      e = .alreadyBound ∧ ∃ b ∈ p.store.bindings.rows, b.purpose = .ekm ∧ b.objectId = o :=
    fun he => ⟨(bind_error he).1, clash_object ht (bind_error he).2⟩
  refine Wp.catching (commit_spec _) ?_ ?_ ?_
  · rintro ⟨⟩ _ ⟨store, hwrite, rfl⟩
    rw [hw] at hwrite
    cases hwrite with
    | wrote hb hc => exact ⟨store, .bound ht hk hb (.inl rfl), by simp [World.withStore, hw]⟩
  · rintro _ ⟨store, hwrite, rfl⟩
    rw [hw] at hwrite
    cases hwrite with
    | wrote hb hc => obtain ⟨_, ⟨⟩⟩ | ⟨_, ⟨⟩⟩ := hc
    | refused he _ =>
      exact ⟨_, .rebound ht hk (hclash he).2 (.inl rfl), by simp [World.withStore, hw]⟩
  · rintro stop _ hne ⟨store, hwrite, rfl⟩
    rw [hw, hfates] at hwrite
    refine ⟨store, ?_, by simp [World.withStore, hw]⟩
    cases hwrite with
    | wrote hb hc =>
      obtain ⟨_, ⟨⟩⟩ | ⟨_, ⟨⟩⟩ := hc
      exact .bound ht hk hb (.inr rfl)
    | refused he _ => exact absurd (congrArg Stop.raised (hclash he).1) hne
    | failed hr => exact .lost ht hk (.inr ⟨hf, .inl hr⟩)
    | died hd =>
      obtain hd | ⟨_, e, he⟩ := hd
      · exact .lost ht hk (.inr ⟨hf, .inr hd⟩)
      · exact .rebound ht hk (hclash he).2 (.inr rfl)

theorem firstUse_spec (o : String) (w : World) :
    Wp (firstUse aead cfg o) (fun r w' => ∃ store pool,
      FirstUse aead cfg o w.process w.fates w.nonces r store pool ∧
        w'.process = { w.process with store, pool }) w := by
  unfold firstUse
  refine Wp.bind (allocate_spec _ w) ?_ ?_
  · rintro key _ ⟨pool, rfl, ⟨⟩ | ht⟩
    refine Wp.bind (putKek_spec o key _) ?_ ?_
    · rintro ⟨⟩ w₁ (⟨_, _, ⟨⟩⟩ | ⟨row, hk, hc, hfates, hp⟩)
      obtain ⟨hf, _⟩ | ⟨_, ⟨⟩⟩ := hc
      refine Wp.bind (firstUse_bind ht hk hp hf hfates) ?_ ?_
      · rintro ⟨⟩ t ⟨store, hends, ht⟩
        exact ⟨store, pool, hends, ht⟩
      · rintro stop t ⟨store, hends, ht⟩
        exact ⟨store, pool, hends, ht⟩
    · rintro stop w₁ (⟨hp, _⟩ | ⟨row, hk, hc, hfates, hp⟩)
      · exact ⟨_, _, .refused ht.shrinks, hp⟩
      · refine ⟨_, _, .lost ht hk ?_, hp⟩
        obtain ⟨_, ⟨⟩⟩ | ⟨hf, _⟩ := hc
        exact .inl hf
  · rintro stop _ ⟨pool, rfl, hp | _⟩
    exact ⟨_, _, .refused hp, rfl⟩

/-! ## Wrapping -/

/-- The ways the KEK of `o` is read. -/
inductive GetEnds (aead : Aead) (cfg : Config) (o : String) (p : Process) :
    Except Stop (Option Bytes) → Prop
  | absent (hrow : p.store.kekRow o = none) : GetEnds aead cfg o p (.ok none)
  | found {row kek} (hrow : p.store.kekRow o = some row)
      (hm : row.material aead cfg.localKey = some kek) : GetEnds aead cfg o p (.ok (some kek))
  | unreadable {row} (hrow : p.store.kekRow o = some row)
      (hm : row.material aead cfg.localKey = none) :
    GetEnds aead cfg o p (.error (.raised .valueError))

theorem getKek_spec (o : String) (w : World) :
    Wp (getKek aead cfg o) (fun r w' => w' = w ∧ GetEnds aead cfg o w.process r) w := by
  unfold getKek
  rw [wp_bind, wp_get, then_ok, wp_lift]
  rcases hrow : w.process.store.kekRow o with _ | row
  · rw [getKek_of_none hrow]
    exact ⟨rfl, .absent hrow⟩
  · rw [getKek_of_some hrow]
    rcases hm : row.material aead cfg.localKey with _ | kek
    · exact ⟨rfl, .unreadable hrow hm⟩
    · exact ⟨rfl, .found hrow hm⟩

/-- A blob sealed under `kek`, or the cipher refuses the key. -/
def Sealed (aead : Aead) (kek plaintext aad : Bytes) (r : Except Stop Reply) : Prop :=
  (∃ nonce blob, aesGcmWrap aead nonce kek plaintext aad = some blob ∧
    r = .ok (.wrapped (b64e blob))) ∨ r = .error (.raised .valueError)

/-- The ways a wrap under `o` ends. -/
inductive WrapEnds (aead : Aead) (cfg : Config) (o : String) (body : Fields) (aad : Bytes)
    (p : Process) (fates : List Fate)
    (nonces : List Nonce) : Except Stop Reply → Store → KeyPool → Prop
  | malformed {e} (he : b64dField (body.get "plaintext") = .error e) :
    WrapEnds aead cfg o body aad p fates nonces (.error (.raised e)) p.store p.pool
  | unreadable {row} (hrow : p.store.kekRow o = some row)
      (hm : row.material aead cfg.localKey = none) :
    WrapEnds aead cfg o body aad p fates nonces (.error (.raised .valueError)) p.store p.pool
  | known {row kek plaintext r} (hrow : p.store.kekRow o = some row)
      (hm : row.material aead cfg.localKey = some kek)
      (hx : b64dField (body.get "plaintext") = .ok plaintext)
      (hr : Sealed aead kek plaintext aad r) :
    WrapEnds aead cfg o body aad p fates nonces r p.store p.pool
  | first {kek plaintext store pool r} (hrow : p.store.kekRow o = none)
      (hx : b64dField (body.get "plaintext") = .ok plaintext)
      (hf : FirstUse aead cfg o p fates nonces (.ok kek) store pool)
      (hr : Sealed aead kek plaintext aad r) :
    WrapEnds aead cfg o body aad p fates nonces r store pool
  | stopped {stop plaintext store pool} (hrow : p.store.kekRow o = none)
      (hx : b64dField (body.get "plaintext") = .ok plaintext)
      (hf : FirstUse aead cfg o p fates nonces (.error stop) store pool) :
    WrapEnds aead cfg o body aad p fates nonces (.error stop) store pool

theorem sealBlob_spec {kek plaintext aad : Bytes} {w : World} :
    Wp (do
        let blob ← sealBlob aead kek plaintext aad
        pure (.wrapped (b64e blob)))
      (fun r w' => w'.process = w.process ∧ Sealed aead kek plaintext aad r) w := by
  unfold sealBlob
  rw [wp_bind, wp_bind, wp_urandom]
  unfold Then
  dsimp only
  split
  · rename_i blob hblob
    exact ⟨rfl, .inl ⟨_, blob, hblob, rfl⟩⟩
  · exact ⟨rfl, .inr rfl⟩

/-- A first use reads the store and the pool, not the control state. -/
theorem FirstUse.of_checkRecovery {o : String} {p : Process} {fates : List Fate}
    {nonces : List Nonce} {r : Except Stop Bytes} {store : Store} {pool : KeyPool}
    (h : FirstUse aead cfg o p.checkRecovery fates nonces r store pool) :
    FirstUse aead cfg o p fates nonces r store pool := by
  have htakes : ∀ {key pool}, Takes cfg p.checkRecovery cfg.bindPeer key pool →
      Takes cfg p cfg.bindPeer key pool := fun ht => ⟨ht.known, ht.fresh, ht.popped⟩
  cases h with
  | refused hp => exact .refused hp
  | lost ht hk hl => exact .lost (htakes ht) hk hl
  | rebound ht hk hb hr => exact .rebound (htakes ht) hk hb hr
  | bound ht hk hb hr => exact .bound (htakes ht) hk hb hr

theorem wrap_spec (o : String) (body : Fields) (aad : Bytes) (w : World) :
    Wp (wrap aead cfg o body aad) (fun r w' => ∃ store pool,
      WrapEnds aead cfg o body aad w.process w.fates w.nonces r store pool ∧
        w'.process = { w.process.checkRecovery with store, pool }) w := by
  unfold wrap checkRecovery
  rw [wp_bind, wp_modify, then_ok]
  refine wp_bind.mpr (wp_lift.mpr ?_)
  split
  swap
  · rename_i e he
    exact ⟨_, _, .malformed he, rfl⟩
  rename_i plaintext hx
  rw [then_ok]
  refine Wp.bind (getKek_spec o _) ?_ ?_
  · rintro found _ ⟨rfl, hg⟩
    cases hg with
    | absent hrow =>
      refine Wp.bind (firstUse_spec o _) ?_ ?_
      · rintro kek w₁ ⟨store, pool, hf, hp⟩
        refine sealBlob_spec.mono ?_
        rintro r w' ⟨hw', hr⟩
        exact ⟨store, pool, .first hrow hx hf.of_checkRecovery hr, hw'.trans hp⟩
      · rintro stop w₁ ⟨store, pool, hf, hp⟩
        exact ⟨store, pool, .stopped hrow hx hf.of_checkRecovery, hp⟩
    | found hrow hm =>
      refine sealBlob_spec.mono ?_
      rintro r w' ⟨hw', hr⟩
      exact ⟨_, _, .known hrow hm hx hr, hw'⟩
  · rintro stop _ ⟨rfl, hg⟩
    cases hg with
    | unreadable hrow hm => exact ⟨_, _, .unreadable hrow hm, rfl⟩

/-! ## Unwrapping -/

/-- The ways an unwrap under `o` ends. -/
inductive UnwrapEnds (aead : Aead) (cfg : Config) (o : String) (body : Fields) (aad : Bytes)
    (p : Process) : Except Stop Reply → Prop
  | unknown (hrow : p.store.kekRow o = none) :
    UnwrapEnds aead cfg o body aad p (.error (.raised (httpError 404 ("unknown key " ++ o))))
  | unreadable {row} (hrow : p.store.kekRow o = some row)
      (hm : row.material aead cfg.localKey = none) :
    UnwrapEnds aead cfg o body aad p (.error (.raised .valueError))
  | malformed {row kek e} (hrow : p.store.kekRow o = some row)
      (hm : row.material aead cfg.localKey = some kek)
      (he : b64dField (body.get "wrappedBlob") = .error e) :
    UnwrapEnds aead cfg o body aad p (.error (.raised e))
  | opened {row kek blob plaintext} (hrow : p.store.kekRow o = some row)
      (hm : row.material aead cfg.localKey = some kek)
      (hx : b64dField (body.get "wrappedBlob") = .ok blob)
      (hp : aesGcmUnwrap aead kek blob aad = some plaintext) :
    UnwrapEnds aead cfg o body aad p (.ok (.unwrapped (b64e plaintext)))
  | refused {row kek blob} (hrow : p.store.kekRow o = some row)
      (hm : row.material aead cfg.localKey = some kek)
      (hx : b64dField (body.get "wrappedBlob") = .ok blob)
      (hp : aesGcmUnwrap aead kek blob aad = none) :
    UnwrapEnds aead cfg o body aad p (.error (.raised (httpError 400 "unwrap failed")))

theorem unwrap_spec (o : String) (body : Fields) (aad : Bytes) (w : World) :
    Wp (unwrap aead cfg o body aad) (fun r w' => w'.process = w.process ∧
      UnwrapEnds aead cfg o body aad w.process r) w := by
  unfold unwrap
  refine Wp.bind (getKek_spec o _) ?_ ?_
  · rintro found _ ⟨rfl, hg⟩
    cases hg with
    | absent hrow => exact ⟨rfl, .unknown hrow⟩
    | found hrow hm =>
      refine wp_bind.mpr (wp_lift.mpr ?_)
      split
      · rename_i blob hx
        rw [then_ok]
        split
        · rename_i plaintext hp
          exact ⟨rfl, .opened hrow hm hx hp⟩
        · rename_i hp
          exact ⟨rfl, .refused hrow hm hx hp⟩
      · rename_i e he
        exact ⟨rfl, .malformed hrow hm he⟩
  · rintro stop _ ⟨rfl, hg⟩
    cases hg with
    | unreadable hrow hm => exact ⟨rfl, .unreadable hrow hm⟩

/-! ## Key delivery -/

/-- The ways a delivery of a new key of `peer` ends. -/
inductive NewEnds (cfg : Config) (peer purpose : String) (p : Process) :
    Except Stop Reply → Store → KeyPool → Prop
  | refused {stop pool} (hp : Shrinks p.pool pool) :
    NewEnds cfg peer purpose p (.error stop) p.store pool
  | bound {u key pool store r} (hu : newPurpose purpose = some u)
      (ht : Takes cfg p peer key pool)
      (hb : p.store.bind key.keyId u (peer ++ ":" ++ key.keyId) peer = .ok store)
      (hr : r = .ok (.newKey key.keyId (b64e key.key) peer) ∨ r = .error .crashed) :
    NewEnds cfg peer purpose p r store pool

theorem newKey_spec (peer purpose : String) (w : World) :
    Wp (newKey cfg peer purpose) (fun r w' => ∃ store pool,
      NewEnds cfg peer purpose w.process r store pool ∧
        w'.process = { w.process with store, pool }) w := by
  unfold newKey
  split
  · exact ⟨_, _, .refused (Shrinks.refl _), rfl⟩
  · rename_i u hu
    refine Wp.bind (allocate_spec peer w) ?_ ?_
    · rintro key _ ⟨pool, rfl, ⟨⟩ | ht⟩
      have hbind : Wp (bind key.keyId u (peer ++ ":" ++ key.keyId) peer) (fun r w' =>
          ∃ store, NewEnds cfg peer purpose w.process
              (r.map fun _ => .newKey key.keyId (b64e key.key) peer) store pool ∧
            w'.process = { w.process with store, pool }) (w.withPool pool) := by
        refine Wp.catching (commit_spec _) ?_ ?_ ?_
        · rintro ⟨⟩ _ ⟨store, hwrite, rfl⟩
          cases hwrite with
          | wrote hb hc => exact ⟨store, .bound hu ht hb (.inl rfl), rfl⟩
        · rintro _ ⟨store, hwrite, rfl⟩
          cases hwrite with
          | wrote hb hc => obtain ⟨_, ⟨⟩⟩ | ⟨_, ⟨⟩⟩ := hc
          | refused he _ => exact ⟨_, .refused ht.shrinks, rfl⟩
        · rintro stop _ _ ⟨store, hwrite, rfl⟩
          cases hwrite with
          | wrote hb hc =>
            obtain ⟨_, ⟨⟩⟩ | ⟨_, ⟨⟩⟩ := hc
            exact ⟨store, .bound hu ht hb (.inr rfl), rfl⟩
          | refused _ _ | failed _ | died _ => exact ⟨_, .refused ht.shrinks, rfl⟩
      refine Wp.bind hbind ?_ ?_
      · rintro ⟨⟩ t ⟨store, hends, ht⟩
        exact ⟨store, pool, hends, ht⟩
      · rintro stop t ⟨store, hends, ht⟩
        exact ⟨store, pool, hends, ht⟩
    · rintro stop _ ⟨pool, rfl, hp | _⟩
      exact ⟨_, _, .refused hp, rfl⟩

/-! ## Any request -/

/-- Whether a reply carries a key or something made with one. -/
def Reply.plain : Reply → Bool
  | .wrapped _ | .unwrapped _ | .newKey _ _ _ => false
  | _ => true

/-- Whether a request is for a key. -/
def Request.keyed : Request → Bool
  | .keyOp _ _ | .new _ _ => true
  | _ => false

/-- The ways a request ends. -/
inductive HandleEnds (aead : Aead) (cfg : Config) (p : Process) (fates : List Fate)
    (nonces : List Nonce) :
    Request → Except Stop Reply → Process → Prop
  | wrap {keyIdOp body o fields aad r store pool}
      (hop : parseKeyOp keyIdOp body = .ok (.wrap o fields aad))
      (h : WrapEnds aead cfg o fields aad p fates nonces r store pool) :
    HandleEnds aead cfg p fates nonces (.keyOp keyIdOp body) r { p.checkRecovery with store, pool }
  | unwrap {keyIdOp body o fields aad r}
      (hop : parseKeyOp keyIdOp body = .ok (.unwrap o fields aad))
      (h : UnwrapEnds aead cfg o fields aad p r) :
    HandleEnds aead cfg p fates nonces (.keyOp keyIdOp body) r p
  | malformed {keyIdOp body e} (hop : parseKeyOp keyIdOp body = .error e) :
    HandleEnds aead cfg p fates nonces (.keyOp keyIdOp body) (.error (.raised e)) p
  | new {peer purpose r store pool} (h : NewEnds cfg peer purpose p r store pool) :
    HandleEnds aead cfg p fates nonces (.new peer purpose) r { p with store, pool }
  | other {r res control} (hk : r.keyed = false)
      (hr : ∀ reply, res = .ok reply → reply.plain = true) :
    HandleEnds aead cfg p fates nonces r res { p with control }

variable (aead cfg) in
theorem handle_spec (r : Request) (w : World) : Wp (handle aead cfg r) (fun res w' =>
    HandleEnds aead cfg w.process w.fates w.nonces r res w'.process) w := by
  have hplain : ∀ {reply : Reply}, reply.plain = true →
      ∀ reply', (Except.ok reply : Except Stop Reply) = .ok reply' → reply'.plain = true := by
    rintro reply h _ ⟨⟩
    exact h
  cases r with
  | healthz => exact .other rfl (hplain rfl)
  | keyOp keyIdOp body =>
    refine wp_bind.mpr (wp_lift.mpr ?_)
    split
    · rename_i op hop
      rw [then_ok]
      cases op with
      | wrap o fields aad =>
        refine (wrap_spec o fields aad w).mono ?_
        rintro r w' ⟨store, pool, h, hp⟩
        rw [hp]
        exact .wrap hop h
      | unwrap o fields aad =>
        refine (unwrap_spec o fields aad w).mono ?_
        rintro r w' ⟨hp, h⟩
        rw [hp]
        exact .unwrap hop h
    · rename_i e he
      exact .malformed he
  | describe keyIdOp =>
    change Wp (describeKey keyIdOp) _ w
    unfold describeKey
    split
    · exact .other rfl (by rintro _ ⟨⟩)
    · exact .other rfl (hplain rfl)
  | state => exact .other rfl (hplain rfl)
  | authority value =>
    cases value with
    | none => exact .other rfl (by rintro _ ⟨⟩)
    | some value => exact .other rfl (hplain rfl)
  | ack => exact .other rfl (hplain rfl)
  | new peer purpose =>
    refine (newKey_spec peer purpose w).mono ?_
    rintro r w' ⟨store, pool, h, hp⟩
    rw [hp]
    exact .new h

/-- What the handler does is what the step does. -/
theorem step_of_wp {p : Process} {r : Request} {fates : List Fate} {nonces : List Nonce}
    {R : Except Stop Reply → World → Prop}
    (h : Wp (handle aead cfg r) R { process := p, fates, nonces }) :
    ∃ res w, R res w ∧ step aead cfg p (.request r fates nonces) = respond w.process res := by
  unfold step
  dsimp only
  split
  · rename_i hx
    exact ⟨_, _, h.ok hx, rfl⟩
  · rename_i hx
    exact ⟨_, _, h.error hx, rfl⟩

variable (aead cfg) in
/-- **Inversion of a request**: it ends in one of the listed ways. -/
theorem step_request (p : Process) (r : Request) (fates : List Fate) (nonces : List Nonce) :
    ∃ res p', HandleEnds aead cfg p fates nonces r res p' ∧
      step aead cfg p (.request r fates nonces) = respond p' res := by
  obtain ⟨res, w, hends, hstep⟩ :=
    step_of_wp (handle_spec aead cfg r { process := p, fates, nonces })
  exact ⟨res, w.process, hends, hstep⟩

section

variable {p : Process} {keyIdOp o : String} {body : Body} {fields : Fields} {aad : Bytes}

theorem step_malformed {e : Exn} (hop : parseKeyOp keyIdOp body = .error e) (fates : List Fate)
    (nonces : List Nonce) : step aead cfg p (.request (.keyOp keyIdOp body) fates nonces) =
      respond p (.error (.raised e)) := by
  obtain ⟨res, p', hends, hstep⟩ := step_request aead cfg p (.keyOp keyIdOp body) fates nonces
  rw [hstep]
  cases hends with
  | wrap hop' _ | unwrap hop' _ => cases hop.symm.trans hop'
  | malformed hop' =>
    cases hop.symm.trans hop'
    rfl
  | other hk _ => cases hk

theorem step_wrap (hop : parseKeyOp keyIdOp body = .ok (.wrap o fields aad)) (fates : List Fate)
    (nonces : List Nonce) :
    ∃ res store pool, WrapEnds aead cfg o fields aad p fates nonces res store pool ∧
      step aead cfg p (.request (.keyOp keyIdOp body) fates nonces) =
        respond { p.checkRecovery with store, pool } res := by
  obtain ⟨res, p', hends, hstep⟩ := step_request aead cfg p (.keyOp keyIdOp body) fates nonces
  cases hends with
  | wrap hop' h =>
    cases hop.symm.trans hop'
    exact ⟨_, _, _, h, hstep⟩
  | unwrap hop' _ | malformed hop' => cases hop.symm.trans hop'
  | other hk _ => cases hk

theorem step_unwrap (hop : parseKeyOp keyIdOp body = .ok (.unwrap o fields aad))
    (fates : List Fate) (nonces : List Nonce) :
    ∃ res, UnwrapEnds aead cfg o fields aad p res ∧
      step aead cfg p (.request (.keyOp keyIdOp body) fates nonces) = respond p res := by
  obtain ⟨res, p', hends, hstep⟩ := step_request aead cfg p (.keyOp keyIdOp body) fates nonces
  cases hends with
  | unwrap hop' h =>
    cases hop.symm.trans hop'
    exact ⟨_, h, hstep⟩
  | wrap hop' _ | malformed hop' => cases hop.symm.trans hop'
  | other hk _ => cases hk

variable (aead cfg p) in
theorem step_new (peer purpose : String) (fates : List Fate) (nonces : List Nonce) :
    ∃ res store pool, NewEnds cfg peer purpose p res store pool ∧
      step aead cfg p (.request (.new peer purpose) fates nonces) =
        respond { p with store, pool } res := by
  obtain ⟨res, p', hends, hstep⟩ := step_request aead cfg p (.new peer purpose) fates nonces
  cases hends with
  | new h => exact ⟨_, _, _, h, hstep⟩
  | other hk _ => cases hk

end

@[simp] theorem respond_store (p : Process) (res : Except Stop Reply) :
    (respond p res).1.store = p.store := by
  rcases res with (e | _) | reply <;> rfl

/-- An answer that is not an error is what the handler returned. -/
theorem respond_eq {p : Process} {res : Except Stop Reply} {status : Nat} {reply : Reply}
    (hreply : ∀ detail, reply ≠ .error detail)
    (h : (respond p res).2 = some ⟨status, reply⟩) :
    res = .ok reply ∧ (respond p res).1 = p := by
  rcases res with (e | _) | reply'
  · cases h
    exact absurd rfl (hreply _)
  · cases h
  · cases h
    exact ⟨rfl, rfl⟩

end QkdEkm.Ekm
