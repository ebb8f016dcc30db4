import QkdEkm.Ekm.Daemon

/-!
# Indicator — what `fresh_allocation` promises

`GET /api/state` reports that keys can be allocated if the deques of all
peers together hold one. A wrap takes its key from the deque of the bind
peer and a delivery from that of the peer it is asked for, so with more
than one peer the report holds exactly if every deque has a unit that
can be bound.
-/

namespace QkdEkm.Ekm

open QkdEkm.Common QkdEkm.Lib

def Reply.freshAllocation? : Reply → Option Bool
  | .state modes _ _ _ _ _ => some modes.freshAllocation
  | _ => none

/-- `GET /api/state` reports `fresh_allocation = true`. -/
def ReportsFresh (aead : Aead) (cfg : Config) (p : Process) : Prop :=
  ∃ reply, (step aead cfg p (.request .state [] [])).2 = some ⟨200, reply⟩ ∧
    reply.freshAllocation? = some true

/-- Every first wrap is answered, and every delivery for a configured
peer, if the writes commit. -/
structure Serves (aead : Aead) (cfg : Config) (p : Process) : Prop where
  wraps : ∀ r o plaintext aad nonces, r.Wraps o plaintext aad → p.store.kekRow o = none →
    Fits o plaintext aad →
    ∃ blob, (step aead cfg p (.request r [] nonces)).2 = some ⟨200, .wrapped blob⟩
  delivers : ∀ peer ∈ cfg.pool.peers, ∀ purpose u, newPurpose purpose = some u →
    ∃ keyId key, (step aead cfg p (.request (.new peer purpose) [] [])).2 =
      some ⟨200, .newKey keyId key peer⟩

/-- The buffered units have 32 bytes and were never used. -/
structure Unused (p : Process) : Prop where
  length_eq : ∀ peer key receivedAt, (key, receivedAt) ∈ p.pool.deques peer → key.key.length = 32
  fresh : ∀ peer key receivedAt, (key, receivedAt) ∈ p.pool.deques peer →
    p.store.isConsumed key.keyId = false

/-- Every configured peer has a unit of its own, and nothing was ever
delivered under the object that its oldest unit would get. -/
def Supplies (cfg : Config) (p : Process) : Prop :=
  ∀ peer ∈ cfg.pool.peers, ∃ key receivedAt rest,
    p.pool.deques peer = (key, receivedAt) :: rest ∧
      ∀ b ∈ p.store.bindings.rows, b.purpose ≠ .ekm → b.objectId ≠ peer ++ ":" ++ key.keyId

section

variable {aead : Aead} {cfg : Config} {p : Process}

/-! ## The report -/

theorem step_state (aead : Aead) (cfg : Config) (p : Process) :
    (step aead cfg p (.request .state [] [])).1 = p.checkRecovery := rfl

theorem sum_sizes_pos {peers : List String} {pool : KeyPool} :
    0 < ((peers.eraseDups.map fun peer => (peer, pool.size peer)).map (·.2)).sum ↔
      ∃ peer ∈ peers, pool.deques peer ≠ [] := by
  rw [List.sum_pos_iff_exists_pos_nat]
  simp [KeyPool.size, List.length_pos_iff]

/-- A unit anywhere is reported, unless a recovery is pending. -/
theorem reportsFresh_iff : ReportsFresh aead cfg p ↔
    p.checkRecovery.control.recoveryPending = false ∧
      ∃ peer ∈ cfg.pool.peers, p.pool.deques peer ≠ [] := by
  rw [← sum_sizes_pos]
  have hreport : ReportsFresh aead cfg p ↔
      (derive p.checkRecovery.pool.sourceAvailable true
        ((cfg.pool.peers.eraseDups.map fun peer => (peer, p.pool.size peer)).map (·.2)).sum
        (decide (0 < p.checkRecovery.store.count)) p.checkRecovery.control.continuityAuthority
        p.checkRecovery.control.recoveryPending).freshAllocation = true := by
    constructor
    · rintro ⟨reply, heq, hfresh⟩
      cases heq
      exact Option.some.inj hfresh
    · intro h
      exact ⟨_, rfl, congrArg some h⟩
  rw [hreport]
  generalize ((cfg.pool.peers.eraseDups.map fun peer => (peer, p.pool.size peer)).map (·.2)).sum = n
  by_cases hn : 0 < n <;> cases p.checkRecovery.control.recoveryPending <;>
    cases p.checkRecovery.pool.sourceAvailable <;> simp [derive, deriveMode, hn]

/-! ## What the handlers need -/

/-- A first wrap that finds a unit answers. -/
theorem first_wrap_answers (h : Accepts aead) (hlocal : cfg.localKey.length = 32) {key : Key}
    (hready : Ready cfg p cfg.bindPeer key) (hkey : key.key.length = 32) {r : Request} {o : String}
    {plaintext aad : Bytes} (hr : r.Wraps o plaintext aad) (hnew : p.store.kekRow o = none)
    (hfits : Fits o plaintext aad) (nonces : List Nonce) :
    ∃ blob, (step aead cfg p (.request r [] nonces)).2 = some ⟨200, .wrapped blob⟩ := by
  obtain ⟨ho, hp, ha⟩ := hfits
  have hrow : ∀ row, p.store.kekRow o = some row →
      ∃ kek, row.material aead cfg.localKey = some kek ∧ kek.length ∈ keyLengths := by
    intro row hsome
    rw [hnew] at hsome
    cases hsome
  exact wrap_served h (by rw [hlocal]; decide) hrow (fun _ => ⟨key, hready, hkey⟩) hr ho hp ha
    (by rintro _ ⟨⟩) nonces

/-- A delivery that answers took a unit and bound it. -/
theorem newKey_delivered {peer purpose keyId key : String} {u : Purpose}
    (hu : newPurpose purpose = some u)
    (h : (step aead cfg p (.request (.new peer purpose) [] [])).2 =
      some ⟨200, .newKey keyId key peer⟩) :
    ∃ unit receivedAt rest, p.pool.deques peer = (unit, receivedAt) :: rest ∧
      ∀ b ∈ p.store.bindings.rows,
        ¬ BindingRow.Clash b ⟨unit.keyId, u, peer ++ ":" ++ unit.keyId, peer⟩ := by
  obtain ⟨res, store, pool, hends, hstep⟩ := step_new aead cfg p peer purpose [] []
  rw [hstep] at h
  obtain ⟨rfl, _⟩ := respond_eq (by rintro _ ⟨⟩) h
  cases hends with
  | bound hu' ht hb _ =>
    cases hu.symm.trans hu'
    obtain ⟨receivedAt, rest, hdq, _⟩ := ht.popped
    exact ⟨_, receivedAt, rest, hdq, Table.not_clash (bind_ok hb).2.1⟩

/-- A delivery that finds a unit and an object that are not bound answers. -/
theorem newKey_answers {peer purpose : String} {u : Purpose} {key : Key}
    (hu : newPurpose purpose = some u) (hready : Ready cfg p peer key)
    (hobject : ∀ b ∈ p.store.bindings.rows,
      ¬ BindingRow.Clash b ⟨key.keyId, u, peer ++ ":" ++ key.keyId, peer⟩) :
    ∃ keyId key, (step aead cfg p (.request (.new peer purpose) [] [])).2 =
      some ⟨200, .newKey keyId key peer⟩ := by
  have hbind : ∃ store,
      p.store.bind key.keyId u (peer ++ ":" ++ key.keyId) peer = .ok store := by
    cases hb : p.store.bind key.keyId u (peer ++ ":" ++ key.keyId) peer with
    | ok store => exact ⟨store, rfl⟩
    | error e =>
      obtain ⟨b, hmem, hclash⟩ := (bind_error hb).2
      exact absurd hclash (hobject b hmem)
  obtain ⟨store, hb⟩ := hbind
  have hwp : Wp (newKey cfg peer purpose)
      (fun r _ => ∃ keyId key, r = .ok (.newKey keyId key peer))
      { process := p, fates := [], nonces := [] } := by
    unfold newKey
    rw [hu]
    refine Wp.bind (allocate_ok hready) ?_ ?_
    · rintro _ _ ⟨⟨⟩, pool, rfl⟩
      have hcommit : Wp (bind key.keyId u (peer ++ ":" ++ key.keyId) peer)
          (fun r _ => r = .ok ⟨⟩)
          (World.withPool { process := p, fates := [], nonces := [] } pool) := by
        refine Wp.catching (commit_ok rfl) ?_ ?_ ?_
        · rintro ⟨⟩ t _
          rfl
        · rintro t ⟨_, ⟨_, _, ⟨⟩⟩ | ⟨e, he, _⟩⟩
          cases hb.symm.trans he
        · rintro stop t _ ⟨_, ⟨_, _, ⟨⟩⟩ | ⟨e, he, _⟩⟩
          cases hb.symm.trans he
      refine Wp.bind hcommit ?_ ?_
      · rintro ⟨⟩ t _
        exact ⟨_, _, rfl⟩
      · rintro stop t ⟨⟩
    · rintro stop t ⟨⟨⟩, _⟩
  have hhandle : Wp (handle aead cfg (.new peer purpose))
      (fun r _ => ∃ keyId key, r = .ok (.newKey keyId key peer))
      { process := p, fates := [], nonces := [] } := hwp
  obtain ⟨_, w, ⟨keyId, key, rfl⟩, hstep⟩ := step_of_wp hhandle
  rw [hstep]
  exact ⟨keyId, key, rfl⟩

/-! ## The promise -/

theorem newPurpose_vpn : newPurpose "vpn" = some .vpn := rfl

theorem newPurpose_file : newPurpose "file" = some .file := rfl

/-- **Both operations are served exactly if every peer is supplied.** -/
theorem serves_iff (h : Accepts aead) (hlocal : cfg.localKey.length = 32)
    (hbind : cfg.bindPeer ∈ cfg.pool.peers) (hunits : Unused p) :
    Serves aead cfg p ↔ Supplies cfg p := by
  constructor
  · intro hserves peer hpeer
    obtain ⟨_, _, hvpn⟩ := hserves.delivers peer hpeer "vpn" .vpn rfl
    obtain ⟨_, _, hfile⟩ := hserves.delivers peer hpeer "file" .file rfl
    obtain ⟨key, receivedAt, rest, hdq, hnovpn⟩ := newKey_delivered newPurpose_vpn hvpn
    obtain ⟨key', _, _, hdq', hnofile⟩ := newKey_delivered newPurpose_file hfile
    cases hdq.symm.trans hdq'
    refine ⟨key, receivedAt, rest, hdq, fun b hb hne ho => ?_⟩
    rcases hpurpose : b.purpose with _ | _ | _
    · exact hne hpurpose
    · exact hnovpn b hb (.inr ⟨hpurpose, ho⟩)
    · exact hnofile b hb (.inr ⟨hpurpose, ho⟩)
  · intro hsupplies
    have hready : ∀ peer ∈ cfg.pool.peers, ∃ key, Ready cfg p peer key ∧ key.key.length = 32 ∧
        ∀ b ∈ p.store.bindings.rows, b.purpose ≠ .ekm →
          b.objectId ≠ peer ++ ":" ++ key.keyId := by
      intro peer hpeer
      obtain ⟨key, receivedAt, rest, hdq, hobject⟩ := hsupplies peer hpeer
      have hmem : (key, receivedAt) ∈ p.pool.deques peer := hdq ▸ List.mem_cons_self ..
      exact ⟨key, ⟨hpeer, hunits.fresh peer key receivedAt hmem, receivedAt, rest, hdq⟩,
        hunits.length_eq peer key receivedAt hmem, hobject⟩
    constructor
    · intro r o plaintext aad nonces hr hnew hfits
      obtain ⟨key, hready, hkey, _⟩ := hready cfg.bindPeer hbind
      exact first_wrap_answers h hlocal hready hkey hr hnew hfits nonces
    · intro peer hpeer purpose u hu
      obtain ⟨key, hready, _, hobject⟩ := hready peer hpeer
      refine newKey_answers hu hready fun b hb hclash => ?_
      rcases hclash with hq | ⟨hpurpose, ho⟩
      · have := isConsumed_iff.mpr ⟨b, hb, hq⟩
        rw [hready.fresh] at this
        cases this
      · exact hobject b hb (hpurpose ▸ newPurpose_ne_ekm hu) ho

end

/-- **The report of `fresh_allocation` is honest** in exactly the states
in which a recovery is pending or every deque is empty, so that nothing
is reported, or every configured peer is supplied. -/
theorem fresh_allocation_honest_iff {aead : Aead} (h : Accepts aead) {cfg : Config}
    (hlocal : cfg.localKey.length = 32) (hbind : cfg.bindPeer ∈ cfg.pool.peers) {p : Process}
    (hunits : Unused p) :
    (ReportsFresh aead cfg p →
      Serves aead cfg (step aead cfg p (.request .state [] [])).1) ↔
    p.checkRecovery.control.recoveryPending = true ∨
      (∀ peer ∈ cfg.pool.peers, p.pool.deques peer = []) ∨ Supplies cfg p := by
  have hafter : Unused p.checkRecovery := ⟨hunits.length_eq, hunits.fresh⟩
  have hsupplies : Supplies cfg p.checkRecovery ↔ Supplies cfg p := Iff.rfl
  rw [step_state, serves_iff h hlocal hbind hafter, hsupplies, reportsFresh_iff]
  constructor
  · intro hhonest
    by_cases hpending : p.checkRecovery.control.recoveryPending = true
    · exact .inl hpending
    · by_cases hempty : ∀ peer ∈ cfg.pool.peers, p.pool.deques peer = []
      · exact .inr (.inl hempty)
      · have hsome : ∃ peer ∈ cfg.pool.peers, p.pool.deques peer ≠ [] := by
          simpa using hempty
        exact .inr (.inr (hhonest ⟨Bool.eq_false_iff.mpr hpending, hsome⟩))
  · rintro (hpending | hempty | hsupplies) ⟨hnot, peer, hpeer, hne⟩
    · rw [hnot] at hpending
      cases hpending
    · exact absurd (hempty peer hpeer) hne
    · exact hsupplies

theorem unused_stocked : Unused stocked := by
  have hunit : ∀ {peer key receivedAt}, (key, receivedAt) ∈ stocked.pool.deques peer →
      key = firstKey := by
    intro peer key receivedAt hm
    simp only [stocked] at hm
    split at hm
    · cases List.mem_singleton.mp hm
      rfl
    · cases hm
  refine ⟨fun peer key receivedAt hm => ?_, fun peer key receivedAt hm => ?_⟩
  · rw [hunit hm]
    rfl
  · rw [hunit hm]
    rfl

/-- With one peer the sum is the deque. -/
theorem fresh_allocation_honest_stocked : ReportsFresh .tagging onePeer stocked ∧
    Serves .tagging onePeer (step .tagging onePeer stocked (.request .state [] [])).1 := by
  have hsupplies : Supplies onePeer stocked := by
    intro peer hpeer
    cases List.mem_singleton.mp hpeer
    exact ⟨firstKey, 0, [], rfl, by rintro b ⟨⟩⟩
  have hreports : ReportsFresh .tagging onePeer stocked := ⟨_, rfl, rfl⟩
  exact ⟨hreports, (fresh_allocation_honest_iff tagging_accepts rfl (by decide)
    unused_stocked).mpr (.inr (.inr hsupplies)) hreports⟩

/-- Two peers, of which the first is the bind peer. -/
def twoPeers : Config where
  pool := { peers := ["QKD2", "QKD3"] }
  localKey := List.replicate 32 7

/-- A round in which the source has a key for the second peer only. -/
def pullSecond : List Act :=
  [.pull .failed 0, .pull .failed 0, .pull .failed 0, .pull .failed 0,
    .pull (.keys [firstKey]) 0, .pull .failed 0]

/-- **A unit of the wrong peer is reported**: `fresh_allocation` is true,
and a first wrap and a delivery for the other peer are refused. -/
theorem fresh_allocation_misleads :
    ¬ ∀ (cfg : Config) (acts : List Act), cfg.localKey.length = 32 →
      cfg.bindPeer ∈ cfg.pool.peers →
      Unused (exec (step .tagging cfg) (boot .empty) acts) →
      ReportsFresh .tagging cfg (exec (step .tagging cfg) (boot .empty) acts) →
      Serves .tagging cfg (step .tagging cfg (exec (step .tagging cfg) (boot .empty) acts)
        (.request .state [] [])).1 := by
  intro h
  have hunit : ∀ {peer key receivedAt}, (key, receivedAt) ∈
      (exec (step .tagging twoPeers) (boot .empty) pullSecond).pool.deques peer →
      key = firstKey := by
    intro peer key receivedAt hm
    have hdq : (exec (step .tagging twoPeers) (boot .empty) pullSecond).pool.deques =
        Function.update (fun _ => []) "QKD3" [(firstKey, 0)] := rfl
    rw [hdq, Function.update_apply] at hm
    split at hm
    · cases List.mem_singleton.mp hm
      rfl
    · cases hm
  have hunused : Unused (exec (step .tagging twoPeers) (boot .empty) pullSecond) :=
    ⟨fun _ _ _ hm => by rw [hunit hm]; rfl, fun _ _ _ hm => by rw [hunit hm]; rfl⟩
  obtain ⟨_, hwrap⟩ := (h twoPeers pullSecond rfl (by decide) hunused ⟨_, rfl, rfl⟩).wraps
    wrapHi "k" [104, 105] [] [] ⟨_, _, _, rfl, rfl, rfl⟩ rfl
    (by unfold Fits; decide +kernel)
  cases hwrap

end QkdEkm.Ekm
