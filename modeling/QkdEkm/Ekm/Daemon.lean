import QkdEkm.Ekm.Release

/-!
# Daemon — the EKM from its state directory

The service starts over two files. The database is written commit by
commit; the local wrapping key is created empty, written, and from then
on read back as it is. The process may be killed between any two of
these steps: `Stage` says what it has in memory, `Disk` what survives.
Every KEK at rest is sealed under the local key, so a file that was
created and never written leaves nothing that works.
-/

namespace QkdEkm.Ekm

open QkdEkm.Common QkdEkm.Lib

/-! ## The state directory -/

/-- The local key file, if there is one, and the database. -/
structure Disk where
  localKey : Option Bytes := none
  store : Store := .empty

/-- 32 bytes of `os.urandom`. -/
structure LocalKey where
  bytes : Bytes
  length_eq : bytes.length = 32

/-- What the process has in memory: nothing, a key whose file it has
created and not yet written, or the service. -/
inductive Stage
  | down
  | created (key : Bytes)
  | up (localKey : Bytes) (p : Process)

structure Daemon where
  disk : Disk := {}
  stage : Stage := .down

/-- The next filesystem step of a start, the next step of the service,
or a kill. -/
inductive DaemonAct
  | start (fresh : LocalKey)
  | write
  | serve (a : Act)
  | kill

/-- The configuration of a service that read or made the local key. -/
def Config.withLocalKey (cfg : Config) (localKey : Bytes) : Config := { cfg with localKey }

namespace Daemon

/-- `load_local_key` looks for the file and either creates it, to be
written next, or reads it. A step of the service ends on the disk. -/
def step (aead : Aead) (cfg : Config) (d : Daemon) : DaemonAct → Daemon × Option Response
  | .start fresh =>
    match d.stage, d.disk.localKey with
    | .down, none =>
      ({ disk := { d.disk with localKey := some [] }, stage := .created fresh.bytes }, none)
    | .down, some key => ({ d with stage := .up key (boot d.disk.store) }, none)
    | _, _ => (d, none)
  | .write =>
    match d.stage with
    | .created key =>
      ({ disk := { d.disk with localKey := some key }, stage := .up key (boot d.disk.store) },
        none)
    | _ => (d, none)
  | .serve a =>
    match d.stage with
    | .up key p =>
      let (p, out) := Ekm.step aead (cfg.withLocalKey key) p a
      ({ disk := { d.disk with store := p.store },
         stage := if died a out then .down else .up key p },
        out)
    | _ => (d, none)
  | .kill => ({ d with stage := .down }, none)

end Daemon

/-! ## A wrap that finds everything in order answers -/

/-- The key lengths that AES-GCM takes. -/
def keyLengths : List Nat := [16, 24, 32]

/-- What the code relies on: AES-GCM takes every key of these lengths,
for data shorter than 2^31 bytes. -/
def Accepts (aead : Aead) : Prop :=
  ∀ key nonce plaintext aad : Bytes, key.length ∈ keyLengths → nonce.length = 12 →
    plaintext.length < 2 ^ 31 → aad.length < 2 ^ 31 →
    ∃ ciphertext, aead.encrypt key nonce plaintext aad = some ciphertext

theorem tagging_accepts : Accepts .tagging := by
  intro key nonce plaintext aad hk _ _ _
  exact ⟨_, if_pos hk⟩

section

variable {aead : Aead} {cfg : Config} {w : World}

theorem Accepts.wrap (h : Accepts aead) {kek plaintext aad : Bytes} (nonce : Nonce)
    (hk : kek.length ∈ keyLengths) (hp : plaintext.length < 2 ^ 31) (ha : aad.length < 2 ^ 31) :
    ∃ blob, aesGcmWrap aead nonce kek plaintext aad = some blob := by
  obtain ⟨ciphertext, hc⟩ := h kek nonce.bytes plaintext aad hk nonce.length_eq hp ha
  exact ⟨_, by rw [aesGcmWrap, hc]; rfl⟩

/-- The oldest unit of a peer can be allocated. -/
structure Ready (cfg : Config) (p : Process) (peer : String) (key : Key) : Prop where
  known : peer ∈ cfg.pool.peers
  fresh : p.store.isConsumed key.keyId = false
  oldest : ∃ receivedAt rest, p.pool.deques peer = (key, receivedAt) :: rest

theorem allocate_ok {peer : String} {key : Key} (h : Ready cfg w.process peer key) :
    Wp (allocate cfg peer) (fun r w' => r = .ok key ∧ ∃ pool, w' = w.withPool pool) w := by
  obtain ⟨receivedAt, rest, hdq⟩ := h.oldest
  have hpool : Wp (poolAllocate cfg peer)
      (fun r w' => r = .ok key ∧ ∃ pool, w' = w.withPool pool) w := by
    refine Wp.of_ok (a := key) (t := w.withPool (w.process.pool.withDeque peer rest)) ?_
      ⟨rfl, _, rfl⟩
    simp [poolAllocate, KeyPool.allocate, h.known, hdq, h.fresh]
  -- nothing is raised, so nothing is caught
  have hcatch : ∀ {x handler : Handler Key} {e : Exn},
      Wp x (fun r w' => r = .ok key ∧ ∃ pool, w' = w.withPool pool) w →
      Wp (catching x e handler) (fun r w' => r = .ok key ∧ ∃ pool, w' = w.withPool pool) w := by
    intro x handler e hx
    refine Wp.catching hx (fun _ _ h => h) ?_ (fun _ _ _ h => h)
    rintro t ⟨⟨⟩, _⟩
  exact hcatch (hcatch hpool)

/-- A write that the environment lets commit. -/
theorem commit_ok {write : Store → Except Exn Store} (hf : w.fates.headD .commits = .commits) :
    Wp (commit write) (fun r w' => w'.fates = w.fates.tail ∧
      ((∃ store, write w.process.store = .ok store ∧ r = .ok ⟨⟩) ∨
        ∃ e, write w.process.store = .error e ∧ r = .error (.raised e))) w := by
  unfold Wp commit
  rw [hf]
  cases hw : write w.process.store with
  | ok store => exact ⟨rfl, .inl ⟨store, rfl, rfl⟩⟩
  | error e => exact ⟨rfl, .inr ⟨e, rfl, rfl⟩⟩

theorem putKek_ok (h : Accepts aead) (hlocal : cfg.localKey.length ∈ keyLengths) {o : String}
    {key : Key} (ho : o.toUTF8.toList.length < 2 ^ 31) (hkey : key.key.length < 2 ^ 31)
    (hf : w.fates.headD .commits = .commits) :
    Wp (putKek aead cfg o key.keyId key.key)
      (fun r w' => r = .ok ⟨⟩ ∧ w'.fates = w.fates.tail) w := by
  obtain ⟨sealedKey, hseal⟩ := h.wrap (w.nonces.headD .zero) hlocal hkey ho
  unfold putKek
  rw [wp_bind, wp_urandom, then_ok]
  refine wp_bind.mpr (wp_lift.mpr ?_)
  simp only [Store.encKek, hseal, then_ok]
  refine Wp.mono (commit_ok hf (w := { w with nonces := w.nonces.tail })) ?_
  rintro r w' ⟨hfates, ⟨store, _, rfl⟩ | ⟨e, ⟨⟩, _⟩⟩
  exact ⟨rfl, hfates⟩

/-- The second write of a first use only ever meets a clash. -/
theorem storeBind_ok {qkdKeyId objectId peer : String} {u : Purpose}
    (hf : w.fates.headD .commits = .commits) :
    Wp (catching (storeBind qkdKeyId u objectId peer) .alreadyBound (pure ⟨⟩))
      (fun r _ => r = .ok ⟨⟩) w := by
  refine Wp.catching (commit_ok hf) ?_ (fun _ _ => rfl) ?_
  · rintro ⟨⟩ t _
    rfl
  · rintro stop t hne ⟨_, ⟨_, _, ⟨⟩⟩ | ⟨e, he, heq⟩⟩
    cases heq
    exact absurd (congrArg Stop.raised (bind_error he).1) hne

theorem firstUse_ok (h : Accepts aead) (hlocal : cfg.localKey.length ∈ keyLengths) {o : String}
    {key : Key} (ho : o.toUTF8.toList.length < 2 ^ 31) (hkey : key.key.length < 2 ^ 31)
    (hready : Ready cfg w.process cfg.bindPeer key) (hf : w.fates.headD .commits = .commits)
    (hf' : w.fates.tail.headD .commits = .commits) :
    Wp (firstUse aead cfg o) (fun r _ => r = .ok key.key) w := by
  unfold firstUse
  refine Wp.bind (allocate_ok hready) ?_ ?_
  · rintro _ _ ⟨⟨⟩, pool, rfl⟩
    refine Wp.bind (putKek_ok h hlocal ho hkey hf) ?_ ?_
    · rintro ⟨⟩ w₁ ⟨_, hfates⟩
      refine Wp.bind (storeBind_ok (hfates ▸ hf')) ?_ ?_
      · rintro ⟨⟩ t _
        rfl
      · rintro stop t ⟨⟩
    · rintro stop t ⟨⟨⟩, _⟩
  · rintro stop t ⟨⟨⟩, _⟩

theorem sealBlob_ok (h : Accepts aead) {kek plaintext aad : Bytes}
    (hk : kek.length ∈ keyLengths) (hp : plaintext.length < 2 ^ 31) (ha : aad.length < 2 ^ 31) :
    Wp (do
        let blob ← sealBlob aead kek plaintext aad
        pure (Reply.wrapped (b64e blob)))
      (fun r _ => ∃ blob, r = .ok (.wrapped blob)) w := by
  obtain ⟨blob, hblob⟩ := h.wrap (w.nonces.headD .zero) hk hp ha
  unfold sealBlob
  rw [wp_bind, wp_bind, wp_urandom]
  unfold Then
  simp only [hblob]
  exact ⟨_, rfl⟩

/-- Every KEK at rest opens under the local key and is one that the
cipher takes. -/
def Readable (aead : Aead) (localKey : Bytes) (s : Store) : Prop :=
  ∀ row ∈ s.kek.rows, ∃ kek, row.material aead localKey = some kek ∧ kek.length ∈ keyLengths

theorem Readable.row {localKey : Bytes} {s : Store} (h : Readable aead localKey s) {o : String}
    {row : KekRow} (hrow : s.kekRow o = some row) :
    ∃ kek, row.material aead localKey = some kek ∧ kek.length ∈ keyLengths :=
  h row (kekRow_eq_some.mp hrow).1

/-- A pool for a peer, not empty, whose units were never used and have
32 bytes. -/
structure Stocked (cfg : Config) (p : Process) (peer : String) : Prop where
  known : peer ∈ cfg.pool.peers
  nonempty : p.pool.deques peer ≠ []
  fresh : ∀ key receivedAt, (key, receivedAt) ∈ p.pool.deques peer →
    p.store.isConsumed key.keyId = false
  length_eq : ∀ key receivedAt, (key, receivedAt) ∈ p.pool.deques peer → key.key.length = 32

theorem Stocked.ready {p : Process} {peer : String} (h : Stocked cfg p peer) :
    ∃ key, Ready cfg p peer key ∧ key.key.length = 32 := by
  obtain ⟨⟨key, receivedAt⟩, rest, hdq⟩ := List.exists_cons_of_ne_nil h.nonempty
  have hm : (key, receivedAt) ∈ p.pool.deques peer := hdq ▸ List.mem_cons_self ..
  exact ⟨key, ⟨h.known, h.fresh key receivedAt hm, receivedAt, rest, hdq⟩,
    h.length_eq key receivedAt hm⟩

/-- **A well-formed wrap answers** if its key id has a KEK that reads, or if
there is a unit to make one of, and its writes commit. -/
theorem wrap_served (h : Accepts aead) {p : Process} (hlocal : cfg.localKey.length ∈ keyLengths)
    {r : Request} {o : String} {plaintext aad : Bytes}
    (hrow : ∀ row, p.store.kekRow o = some row →
      ∃ kek, row.material aead cfg.localKey = some kek ∧ kek.length ∈ keyLengths)
    (hunit : p.store.kekRow o = none →
      ∃ key, Ready cfg p cfg.bindPeer key ∧ key.key.length = 32)
    (hr : r.Wraps o plaintext aad) (ho : o.toUTF8.toList.length < 2 ^ 31)
    (hp : plaintext.length < 2 ^ 31) (ha : aad.length < 2 ^ 31) {fates : List Fate}
    (hf : ∀ fate ∈ fates, fate = .commits) (nonces : List Nonce) :
    ∃ blob, (step aead cfg p (.request r fates nonces)).2 = some ⟨200, .wrapped blob⟩ := by
  obtain ⟨keyIdOp, body, fields, rfl, hop, hx⟩ := hr
  have hwp : Wp (handle aead cfg (.keyOp keyIdOp body))
      (fun r _ => ∃ blob, r = .ok (.wrapped blob)) { process := p, fates, nonces } := by
    show Wp (wrapOrUnwrap aead cfg keyIdOp body) _ _
    unfold wrapOrUnwrap
    rw [hop, lift_ok_bind]
    show Wp (wrap aead cfg o fields aad) _ _
    unfold wrap checkRecovery
    rw [wp_bind, wp_modify, then_ok, hx, lift_ok_bind]
    refine Wp.bind (getKek_spec o _) ?_ ?_
    · rintro found _ ⟨rfl, hg⟩
      cases hg with
      | found hsome hm =>
        obtain ⟨kek, hm', hlen⟩ := hrow _ hsome
        cases hm.symm.trans hm'
        exact sealBlob_ok h hlen hp ha
      -- without a row, the unit is ready for a first use
      | absent hnone =>
        obtain ⟨key, hready, hlen⟩ := hunit hnone
        refine Wp.bind (firstUse_ok h hlocal ho (by omega)
          ⟨hready.known, hready.fresh, hready.oldest⟩ (Act.Faultless.headD hf)
          (Act.Faultless.headD fun fate hm => hf fate (List.mem_of_mem_tail hm))) ?_ ?_
        · rintro _ t ⟨⟩
          exact sealBlob_ok h (by rw [hlen]; decide) hp ha
        · rintro stop t ⟨⟩
    · rintro stop _ ⟨rfl, hg⟩
      cases hg with
      | unreadable hsome hm =>
        obtain ⟨kek, hm', _⟩ := hrow _ hsome
        cases hm.symm.trans hm'
  obtain ⟨_, w, ⟨blob, rfl⟩, hstep⟩ := step_of_wp hwp
  rw [hstep]
  exact ⟨blob, rfl⟩

/-! ## What a step leaves in the KEK table -/

/-- The first write of a request takes effect. -/
def Lands (fates : List Fate) : Prop :=
  fates.headD .commits = .commits ∨ fates.headD .commits = .crashAfter

theorem Commits.lands {fates : List Fate} {r : Except Stop PUnit} (h : Commits fates r) :
    Lands fates := h.imp And.left And.left

theorem firstUse_lands (o : String) (w : World) : Wp (firstUse aead cfg o)
    (fun _ w' => w'.process.store = w.process.store ∨ Lands w.fates) w := by
  unfold firstUse
  refine Wp.bind (allocate_spec _ w) ?_ ?_
  · rintro key _ ⟨pool, rfl, _⟩
    refine Wp.bind (putKek_spec o key _) ?_ ?_
    · rintro ⟨⟩ t (⟨_, _, ⟨⟩⟩ | ⟨row, _, hc, _, _⟩)
      exact Wp.of_forall fun _ _ => .inr hc.lands
    · rintro stop t (⟨hp, _⟩ | ⟨row, _, hc, _, _⟩)
      · rw [hp]
        exact .inl rfl
      · exact .inr hc.lands
  · rintro stop _ ⟨pool, rfl, _⟩
    exact .inl rfl

theorem wrap_lands (o : String) (fields : Fields) (aad : Bytes) (w : World) :
    Wp (wrap aead cfg o fields aad)
      (fun _ w' => w'.process.store = w.process.store ∨ Lands w.fates) w := by
  unfold wrap checkRecovery
  rw [wp_bind, wp_modify, then_ok]
  refine wp_bind.mpr (wp_lift.mpr ?_)
  split
  swap
  · exact .inl rfl
  rw [then_ok]
  refine Wp.bind (getKek_spec o _) ?_ ?_
  · rintro found _ ⟨rfl, hg⟩
    cases hg with
    | absent hrow =>
      refine Wp.bind (firstUse_lands o _) ?_ (fun _ _ h => h)
      intro kek t h
      refine sealBlob_spec.mono ?_
      rintro r w' ⟨hw', _⟩
      rw [hw']
      exact h
    | found hrow hm =>
      refine sealBlob_spec.mono ?_
      rintro r w' ⟨hw', _⟩
      rw [hw']
      exact .inl rfl
  · rintro stop _ ⟨rfl, _⟩
    exact .inl rfl

theorem keyOp_lands (p : Process) (keyIdOp : String) (body : Body) (fates : List Fate)
    (nonces : List Nonce) :
    (step aead cfg p (.request (.keyOp keyIdOp body) fates nonces)).1.store = p.store ∨
      Lands fates := by
  have h : Wp (handle aead cfg (.keyOp keyIdOp body))
      (fun _ w' => w'.process.store = p.store ∨ Lands fates) { process := p, fates, nonces } := by
    refine wp_bind.mpr (wp_lift.mpr ?_)
    split
    · rename_i op hop
      rw [then_ok]
      cases op with
      | wrap o fields aad => exact wrap_lands o fields aad _
      | unwrap o fields aad =>
        refine (unwrap_spec o fields aad _).mono ?_
        rintro r w' ⟨hp, _⟩
        rw [hp]
        exact .inl rfl
    · exact .inl rfl
  obtain ⟨res, w, hs, hstep⟩ := step_of_wp h
  rw [hstep, respond_store]
  exact hs

/-- A first wrap of the step makes a KEK of `key`: it is well formed,
takes the unit and seals it, and the first write takes effect. -/
def MakesKek (aead : Aead) (cfg : Config) (p : Process) (a : Act) (key : Key) : Prop :=
  ∃ r fates nonces o plaintext aad row, a = .request r fates nonces ∧
    r.Wraps o plaintext aad ∧ firstUnit cfg p o = some key ∧
    KekOf aead cfg o key nonces row ∧ Lands fates

/-- A KEK row after a first use is an old one or that of the unit it takes. -/
theorem FirstUse.kek_rows {p : Process} {o : String} {fates : List Fate} {nonces : List Nonce}
    {r : Except Stop Bytes} {store : Store} {pool : KeyPool} {row : KekRow}
    (h : FirstUse aead cfg o p fates nonces r store pool) (hrow : row ∈ store.kek.rows) :
    row ∈ p.store.kek.rows ∨ ∃ key pool', Takes cfg p cfg.bindPeer key pool' ∧
      KekOf aead cfg o key nonces row := by
  have hput : ∀ {key row' pool'}, Takes cfg p cfg.bindPeer key pool' →
      KekOf aead cfg o key nonces row' → row ∈ (p.store.putKek row').kek.rows →
      row ∈ p.store.kek.rows ∨ ∃ key pool', Takes cfg p cfg.bindPeer key pool' ∧
        KekOf aead cfg o key nonces row := by
    intro key row' pool' ht hk hrow
    rcases mem_putKek.mp hrow with rfl | ⟨hold, _⟩
    · exact .inr ⟨key, pool', ht, hk⟩
    · exact .inl hold
  cases h with
  | refused _ => exact .inl hrow
  | lost ht hk _ | rebound ht hk _ _ => exact hput ht hk hrow
  | bound ht hk hb _ => exact hput ht hk ((bind_ok hb).1 ▸ hrow)

/-- A KEK row is an old one, or the step made it. -/
theorem kek_step {p : Process} {a : Act} {row : KekRow}
    (hrow : row ∈ (step aead cfg p a).1.store.kek.rows) :
    row ∈ p.store.kek.rows ∨
      ∃ key, MakesKek aead cfg p a key ∧ row.material aead cfg.localKey = some key.key := by
  cases a with
  | pull answer now => exact .inl hrow
  | expire peer now => exact .inl hrow
  | restart => exact .inl hrow
  | request r fates nonces =>
    obtain ⟨res, p', hends, hstep⟩ := step_request aead cfg p r fates nonces
    have hsame : (step aead cfg p (.request r fates nonces)).1.store = p'.store := by
      rw [hstep, respond_store]
    rw [hsame] at hrow
    cases hends with
    | unwrap _ _ | malformed _ | other _ _ => exact .inl hrow
    | new h =>
      cases h with
      | refused _ => exact .inl hrow
      | bound _ _ hb _ => exact .inl ((bind_ok hb).1 ▸ hrow)
    | @wrap keyIdOp body o fields aad _ store pool hop h =>
      -- a write that did not take effect leaves the rows as they were
      rcases keyOp_lands p keyIdOp body fates nonces with hs | hl
      · exact .inl ((hsame.symm.trans hs) ▸ hrow)
      · have hfirst : ∀ {plaintext r}, p.store.kekRow o = none →
            b64dField (fields.get "plaintext") = .ok plaintext →
            FirstUse aead cfg o p fates nonces r store pool → row ∈ p.store.kek.rows ∨
              ∃ key, MakesKek aead cfg p (.request (.keyOp keyIdOp body) fates nonces) key ∧
                row.material aead cfg.localKey = some key.key := by
          intro plaintext r hn hx hf
          rcases hf.kek_rows hrow with hold | ⟨key, pool', ht, hk⟩
          · exact .inl hold
          · exact .inr ⟨key, ⟨_, _, _, o, plaintext, aad, row, rfl, ⟨_, _, _, rfl, hop, hx⟩,
              ht.firstUnit hn, hk, hl⟩, hk.material⟩
        cases h with
        | malformed _ | unreadable _ _ | known _ _ _ _ => exact .inl hrow
        | first hn hx hf _ | stopped hn hx hf => exact hfirst hn hx hf

/-! ## Where a daemon can stand -/

/-- The process is killed between the creation of the local key file and
the write to it. -/
def Torn (m : Moment Daemon DaemonAct (Option Response)) : Prop :=
  m.act = .kill ∧ ∃ key, m.pre.stage = .created key

/-- A unit that is no key of the cipher becomes a KEK. -/
def Misfit (aead : Aead) (cfg : Config) (m : Moment Daemon DaemonAct (Option Response)) : Prop :=
  ∃ localKey p a key, m.pre.stage = .up localKey p ∧ m.act = .serve a ∧
    MakesKek aead (cfg.withLocalKey localKey) p a key ∧ key.key.length ∉ keyLengths

/-- The daemons that work or will work once started. -/
inductive Intact (aead : Aead) : Daemon → Prop
  | new : Intact aead { disk := { localKey := none, store := .empty }, stage := .down }
  | creating {key} (hlen : key.length = 32) :
    Intact aead { disk := { localKey := some [], store := .empty }, stage := .created key }
  | down {key store} (hlen : key.length = 32) (hrows : Readable aead key store) :
    Intact aead { disk := { localKey := some key, store }, stage := .down }
  | up {key p} (hlen : key.length = 32) (hrows : Readable aead key p.store) :
    Intact aead { disk := { localKey := some key, store := p.store }, stage := .up key p }

theorem readable_empty (localKey : Bytes) : Readable aead localKey .empty := by
  rintro _ ⟨⟩

theorem Readable.step {p : Process} {a : Act} (h : Readable aead cfg.localKey p.store)
    (hfit : ∀ key, MakesKek aead cfg p a key → key.key.length ∈ keyLengths) :
    Readable aead cfg.localKey (step aead cfg p a).1.store := by
  intro row hrow
  rcases kek_step hrow with hold | ⟨key, hmakes, hm⟩
  · exact h row hold
  · exact ⟨key.key, hm, hfit key hmakes⟩

/-- **A daemon stays intact**, whatever is killed, through every step but
the two. -/
theorem intact_step {d : Daemon} {a : DaemonAct} (h : Intact aead d)
    (htorn : ¬ Torn (moment (Daemon.step aead cfg) d a))
    (hfit : ¬ Misfit aead cfg (moment (Daemon.step aead cfg) d a)) :
    Intact aead (Daemon.step aead cfg d a).1 := by
  cases h with
  | new =>
    cases a with
    | start fresh => exact .creating fresh.length_eq
    | write | serve _ | kill => exact .new
  | @creating key hlen =>
    cases a with
    | start _ | serve _ => exact .creating hlen
    | write => exact .up (p := boot .empty) hlen (readable_empty key)
    -- the empty file would stay, and be read as the key
    | kill => exact absurd ⟨rfl, key, rfl⟩ htorn
  | @down key store hlen hrows =>
    cases a with
    | start fresh => exact .up (p := boot store) hlen hrows
    | write | serve _ | kill => exact .down hlen hrows
  | @up key p hlen hrows =>
    cases a with
    | start _ | write => exact .up hlen hrows
    | kill => exact .down hlen hrows
    | serve a =>
      have hrows' : Readable aead key (step aead (cfg.withLocalKey key) p a).1.store := by
        refine Readable.step (show Readable aead (cfg.withLocalKey key).localKey p.store from hrows)
          fun unit hmakes => ?_
        -- a unit of another length would be a misfit
        by_contra hlen'
        exact hfit ⟨key, p, a, unit, rfl, rfl, hmakes, hlen'⟩
      unfold Daemon.step
      dsimp only
      split
      · exact .down hlen hrows'
      · exact .up hlen hrows'

/-! ## What an answered wrap leaves on the disk -/

/-- The step answers a wrap of `plaintext` under `o` with `blob`. -/
def Answers (m : Moment Daemon DaemonAct (Option Response)) (o : String) (plaintext aad : Bytes)
    (blob : String) : Prop :=
  ∃ r fates nonces, m.act = .serve (.request r fates nonces) ∧ r.Wraps o plaintext aad ∧
    m.out = some ⟨200, .wrapped blob⟩

/-- The disk holds what it takes to open `blob`. -/
def Kept (aead : Aead) (disk : Disk) (o : String) (plaintext aad : Bytes) (blob : String) : Prop :=
  ∃ localKey row kek nonce sealedBlob, disk.localKey = some localKey ∧
    disk.store.kekRow o = some row ∧ row.material aead localKey = some kek ∧
    aesGcmWrap aead nonce kek plaintext aad = some sealedBlob ∧ blob = b64e sealedBlob

section

variable {d : Daemon} {a : DaemonAct} {o : String} {plaintext aad : Bytes} {blob : String}

/-- **What the disk keeps it keeps**, through every step. -/
theorem kept_step (h : Intact aead d) (hk : Kept aead d.disk o plaintext aad blob) :
    Kept aead (Daemon.step aead cfg d a).1.disk o plaintext aad blob := by
  have hkept := hk
  obtain ⟨localKey, row, kek, nonce, sealedBlob, hlocal, hrow, hrest⟩ := hk
  cases h with
  | new => cases hlocal
  -- the local key is written before the first row
  | creating hlen => cases hrow
  | down hlen hrows => cases a <;> exact hkept
  | @up key p hlen hrows =>
    cases a with
    | start _ | write | kill => exact hkept
    | serve a => exact ⟨_, row, kek, nonce, sealedBlob, hlocal, kekRow_step a hrow, hrest⟩

theorem answers_kept (h : Intact aead d)
    (ha : Answers (moment (Daemon.step aead cfg) d a) o plaintext aad blob) :
    Kept aead (Daemon.step aead cfg d a).1.disk o plaintext aad blob := by
  obtain ⟨r, fates, nonces, hact, hw, hout⟩ := ha
  obtain rfl : a = .serve (.request r fates nonces) := hact
  cases h with
  | new | creating _ | down _ _ => cases hout
  | @up key p hlen hrows =>
    have hanswer : (step aead (cfg.withLocalKey key) p (.request r fates nonces)).2 =
      some ⟨200, .wrapped blob⟩ := hout
    obtain ⟨row, kek, nonce, sealedBlob, hrow, hm, hs, hb⟩ := wrapped_row hw hanswer
    exact ⟨key, row, kek, nonce, sealedBlob, rfl, hrow, hm, hs, hb⟩

end

/-! ## Any run -/

/-- What holds of a daemon that took the steps `past`. -/
structure Recovered (aead : Aead) (past : List (Moment Daemon DaemonAct (Option Response)))
    (d : Daemon) : Prop where
  intact : Intact aead d
  kept : ∀ m ∈ past, ∀ o plaintext aad blob, Answers m o plaintext aad blob →
    Kept aead d.disk o plaintext aad blob

theorem recovered_run {acts : List DaemonAct}
    (hacts : ∀ m ∈ trace (Daemon.step aead cfg) {} acts, ¬ Torn m ∧ ¬ Misfit aead cfg m) :
    Recovered aead (trace (Daemon.step aead cfg) {} acts)
      (exec (Daemon.step aead cfg) {} acts) := by
  refine trace_invariant (Recovered aead) _ ⟨.new, by rintro _ ⟨⟩⟩ ?_ hacts
  rintro past d a ⟨hintact, hkept⟩ ⟨htorn, hfit⟩
  refine ⟨intact_step hintact htorn hfit, ?_⟩
  intro m hm o plaintext aad blob ha
  rcases List.mem_append.mp hm with hm | hm
  · exact kept_step hintact (hkept m hm o plaintext aad blob ha)
  · obtain rfl := List.mem_singleton.mp hm
    exact answers_kept hintact ha

/-- A daemon that is down comes up over its database. -/
theorem comes_up {d : Daemon} (h : d.stage = .down) (fresh : LocalKey) :
    ∃ localKey, (exec (Daemon.step aead cfg) d [.start fresh, .write]).stage =
      .up localKey (boot d.disk.store) := by
  obtain ⟨⟨_ | localKey, store⟩, stage⟩ := d
  · obtain rfl : stage = .down := h
    exact ⟨fresh.bytes, rfl⟩
  · obtain rfl : stage = .down := h
    exact ⟨localKey, rfl⟩

/-- The sizes that AES-GCM takes. -/
def Fits (o : String) (plaintext aad : Bytes) : Prop :=
  o.toUTF8.toList.length < 2 ^ 31 ∧ plaintext.length < 2 ^ 31 ∧ aad.length < 2 ^ 31

variable (cfg) in
/-- **The service recovers from every crash but one.** In every run from
an empty state directory in which the process is not killed between the
two steps that make the local key file (and no unit that is no key of
the cipher becomes a KEK): the service comes up whenever it is down;
once up, a well-formed wrap answers over a stocked pool, and every blob
it ever answered unwraps to its plaintext. -/
theorem crash_recovery (hc : Accepts aead) {acts : List DaemonAct}
    (hacts : ∀ m ∈ trace (Daemon.step aead cfg) {} acts, ¬ Torn m ∧ ¬ Misfit aead cfg m) :
    let d := exec (Daemon.step aead cfg) {} acts
    (d.stage = .down → ∀ fresh, ∃ localKey,
      (exec (Daemon.step aead cfg) d [.start fresh, .write]).stage =
        .up localKey (boot d.disk.store)) ∧
    ∀ localKey p, d.stage = .up localKey p →
      (Stocked cfg p cfg.bindPeer → ∀ r o plaintext aad fates nonces,
        Request.Wraps r o plaintext aad → Fits o plaintext aad →
        (∀ fate ∈ fates, fate = Fate.commits) →
        ∃ blob, (Daemon.step aead cfg d (.serve (.request r fates nonces))).2 =
          some ⟨200, .wrapped blob⟩) ∧
      (∀ m ∈ trace (Daemon.step aead cfg) {} acts, ∀ o plaintext aad blob,
        Answers m o plaintext aad blob → ∀ r fates nonces sealedBlob,
        b64d blob = some sealedBlob → Request.Unwraps r o sealedBlob aad →
        (Daemon.step aead cfg d (.serve (.request r fates nonces))).2 =
          some ⟨200, .unwrapped (b64e plaintext)⟩) := by
  intro d
  refine ⟨comes_up, ?_⟩
  intro localKey p hup
  obtain ⟨hintact, hkept⟩ := recovered_run hacts
  have hd : exec (Daemon.step aead cfg) {} acts = d := rfl
  rw [hd] at hintact hkept
  generalize hpast : trace (Daemon.step aead cfg) {} acts = past at hkept
  clear_value d
  cases hintact with
  | new | creating _ | down _ _ => cases hup
  | up hlen hrows =>
    cases hup
    have hlocal : (cfg.withLocalKey localKey).localKey.length ∈ keyLengths := by
      show localKey.length ∈ keyLengths
      rw [hlen]
      decide
    refine ⟨?_, ?_⟩
    · rintro ⟨hknown, hne, hfresh, hsize⟩ r o plaintext aad fates nonces hr ⟨ho, hp, ha⟩ hf
      have hstock : Stocked (cfg.withLocalKey localKey) p cfg.bindPeer :=
        ⟨hknown, hne, hfresh, hsize⟩
      exact wrap_served hc hlocal (fun _ hrow => hrows.row hrow) (fun _ => hstock.ready) hr ho hp
        ha hf nonces
    · intro m hm o plaintext aad blob hans r fates nonces sealedBlob hb hr
      -- what the disk keeps opens the blob, in whatever process runs over it
      obtain ⟨_, row, kek, nonce, sealedBlob', ⟨⟩, hrow, hmat, hs, rfl⟩ :=
        hkept m hm o plaintext aad blob hans
      rw [b64d_b64e] at hb
      cases hb
      have hkek : row.material aead (cfg.withLocalKey localKey).localKey = some kek := hmat
      exact unwrap_answer hr hrow hkek (aesGcmUnwrap_wrap aead hs)

end

/-- A unit that becomes a KEK is in the pool. -/
theorem MakesKek.mem {aead : Aead} {cfg : Config} {p : Process} {a : Act} {key : Key}
    (h : MakesKek aead cfg p a key) :
    ∃ receivedAt, (key, receivedAt) ∈ p.pool.deques cfg.bindPeer := by
  obtain ⟨_, _, _, o, _, _, _, _, _, hu, _, _⟩ := h
  unfold firstUnit at hu
  split at hu
  · split at hu
    · cases hu
    · rename_i key' receivedAt rest hdq
      split at hu
      · cases hu
      · cases hu
        exact ⟨receivedAt, hdq ▸ List.mem_cons_self ..⟩
  · cases hu

def someKey : LocalKey := ⟨List.replicate 32 7, by decide⟩

/-- A first start, up to a unit in the pool. -/
def firstStart : List DaemonAct := [.start someKey, .write] ++ pullFirst.map .serve

/-- A wrap, a kill and a second start. -/
def killedUp : List DaemonAct :=
  firstStart ++ .serve (.request wrapHi [] []) :: [.kill, .start someKey]

theorem crash_recovery_killedUp :
    (Daemon.step .tagging onePeer (exec (Daemon.step .tagging onePeer) {} killedUp)
      (.serve (.request (.keyOp "k:unwrap" (.json (.obj
        [("wrappedBlob", .str "AAAAAAAAAAAAAAAAaGkAAAAAAAAAAAAAAAAAAAAA")]))) [] []))).2 =
      some ⟨200, .unwrapped (b64e [104, 105])⟩ := by
  have hacts : ∀ m ∈ trace (Daemon.step .tagging onePeer) {} killedUp,
      ¬ Torn m ∧ ¬ Misfit .tagging onePeer m := by
    intro m hm
    simp only [killedUp, firstStart, pullFirst, List.replicate, List.map, List.cons_append,
      List.nil_append, trace, List.mem_cons, List.not_mem_nil, or_false] at hm
    refine ⟨?_, ?_⟩
    · rintro ⟨hact, key, hstage⟩
      rcases hm with rfl | rfl | rfl | rfl | rfl | rfl | rfl | rfl | rfl <;> cases hact
      cases hstage
    · rintro ⟨localKey, p, a, key, hstage, hact, hmakes, hlen⟩
      have hkey := hmakes.mem
      obtain ⟨_, _, _, _, _, _, _, rfl, _⟩ := hmakes
      rcases hm with rfl | rfl | rfl | rfl | rfl | rfl | rfl | rfl | rfl <;> cases hact
      cases hstage
      obtain ⟨receivedAt, hkey⟩ := hkey
      obtain ⟨rfl, _⟩ := Prod.mk.inj (List.mem_singleton.mp hkey)
      exact hlen (by decide)
  obtain ⟨_, hup⟩ := crash_recovery onePeer tagging_accepts hacts
  have hm : moment (Daemon.step .tagging onePeer)
      (exec (Daemon.step .tagging onePeer) {} firstStart) (.serve (.request wrapHi [] [])) ∈
        trace (Daemon.step .tagging onePeer) {} killedUp :=
    mem_trace_append _ _ _ _
  exact (hup someKey.bytes _ rfl).2 _ hm "k" [104, 105] [] _
    ⟨wrapHi, [], [], rfl, ⟨_, _, _, rfl, rfl, rfl⟩, rfl⟩ _ _ _ _ rfl ⟨_, _, _, rfl, rfl, rfl⟩

/-- A first start that is killed before the key is written, and a second. -/
def killedTorn : List DaemonAct :=
  [.start someKey, .kill, .start someKey] ++ pullFirst.map .serve

/-- **An empty key file is read back**: the service comes up, and no wrap
answers. -/
theorem crash_unrecovered :
    ¬ ∀ (acts : List DaemonAct) (localKey : Bytes) (p : Process),
      (exec (Daemon.step .tagging onePeer) {} acts).stage = .up localKey p →
      Stocked onePeer p onePeer.bindPeer → ∀ r o plaintext aad fates nonces,
      Request.Wraps r o plaintext aad → Fits o plaintext aad →
      (∀ fate ∈ fates, fate = Fate.commits) →
      ∃ blob, (Daemon.step .tagging onePeer (exec (Daemon.step .tagging onePeer) {} acts)
        (.serve (.request r fates nonces))).2 = some ⟨200, .wrapped blob⟩ := by
  intro h
  have hpool : ∀ key receivedAt, (key, receivedAt) ∈ [(firstKey, (0 : Time))] → key = firstKey :=
    fun key receivedAt hm => (Prod.mk.inj (List.mem_singleton.mp hm)).1
  have hstocked : Stocked onePeer
      (exec (step .tagging (onePeer.withLocalKey [])) (boot .empty) pullFirst) "QKD2" :=
    { known := by decide
      nonempty := by rintro ⟨⟩
      fresh := fun key receivedAt hm => by rw [hpool key receivedAt hm]; rfl
      length_eq := fun key receivedAt hm => by rw [hpool key receivedAt hm]; rfl }
  obtain ⟨blob, hblob⟩ := h killedTorn [] _ rfl hstocked wrapHi "k" [104, 105] [] [] []
    ⟨_, _, _, rfl, rfl, rfl⟩ ⟨by decide +kernel, by decide, by decide⟩ (by rintro _ ⟨⟩)
  have h500 : (Daemon.step .tagging onePeer (exec (Daemon.step .tagging onePeer) {} killedTorn)
      (.serve (.request wrapHi [] []))).2.map (·.status) = some 500 := rfl
  rw [hblob] at h500
  cases h500

end QkdEkm.Ekm
