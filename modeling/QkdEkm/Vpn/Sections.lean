import QkdEkm.Vpn.Addresses
import QkdEkm.Vpn.Calls

/-!
# Sections — what one section of the server can do

`Effect` is the inversion of `step`: it lists the ways a section ends,
with the whole server it leaves behind and what it sends. A set-up that
fails for whatever reason ends as if the request had never been resumed,
so every record, on disk or in memory, is of a peer that WireGuard
accepted.
-/

namespace QkdEkm.Vpn

open QkdEkm.Common QkdEkm.Lib

/-- The server without a suspended handler. -/
def Server.dropCall (s : Server) (c : Nat) : Server := { s with calls := s.calls.erase c }

/-- The EKM refuses a key, no tunnel address is free for a new peer, or
WireGuard does not take the peer. -/
def SetupFails (settings : VpnSettings) (s : Server) (k : String)
    (answer : Except EkmError (String × Bytes)) (env : Env) : Prop :=
  (∃ e, answer = .error e) ∨
    (k ∉ s.peers ∧ ∀ host ∈ settings.tunnelCidr.hosts, host ≠ settings.serverAddress →
      Held s.peers host) ∨
    ∃ e, env.setPeer = .error e

/-- The call gets no key into force. -/
def Call.Fails (settings : VpnSettings) (s : Server) (answer : Except EkmError (String × Bytes))
    (env : Env) : Call → Prop
  | .start k _ => SetupFails settings s k answer env
  | .refresh _ _ => ∃ e, answer = .error e

/-- An action that finds nothing to do. -/
def Act.Idle (s : Server) : Act → Prop
  | .start _ _ | .restart => False
  | .refresh k => s.peers.lookup k = none
  | .answer c _ _ => s.calls.lookup c = none
  | .fire t _ => s.tasks.lookup t = none
  | .status => True

/-- The ways a section ends. -/
inductive Effect (settings : VpnSettings) (s : Server) : Act → Server → Output → Prop
  | idle {a out} (ha : a.Idle s) (hout : ∀ c q, out ≠ .asks c q) : Effect settings s a s out
  | startAsked {k q} :
    Effect settings s (.start k q) (s.suspend (.start k q)).2 (.asks s.nextId q)
  | refreshAsked {k record} (hrec : s.peers.lookup k = some record) :
    Effect settings s (.refresh k) (s.suspend (.refresh k record.qkdId)).2
      (.asks s.nextId record.qkdId)
  | refused {c call answer env r} (hc : s.calls.lookup c = some call)
      (hfail : call.Fails settings s answer env) (hr : r.status ≠ 200) :
    Effect settings s (.answer c answer env) (s.dropCall c) (.answers r)
  | installed {c k q keyId key env record new peers r}
      (hc : s.calls.lookup c = some (.start k q))
      (hrec : recordFor settings s.peers k q = some (record, new, peers))
      (hwg : env.setPeer = .ok ())
      (hr : r.status = 200 ↔ ∃ publicKey, env.publicKey = .ok publicKey) :
    Effect settings s (.answer c (.ok (keyId, key)) env)
      ((({ s.dropCall c with peers } : Server).withKey settings env k record keyId key).reschedule
        settings.refreshS (.due k)) (.answers r)
  | announced {c k q keyId key env r} (hc : s.calls.lookup c = some (.refresh k q)) :
    Effect settings s (.answer c (.ok (keyId, key)) env)
      ((s.dropCall c).reschedule settings.activationDelayS (.activate k keyId key)) (.answers r)
  | flagged {t delay k env record} (ht : s.tasks.lookup t = some ⟨delay, .due k⟩)
      (hrec : s.peers.lookup k = some record) :
    Effect settings s (.fire t env)
      { s.cancel t with
        peers := s.peers.assign k { record with refreshDue := true }
        file := some (s.peers.assign k { record with refreshDue := true }) } .nothing
  | activated {t delay k keyId key env record}
      (ht : s.tasks.lookup t = some ⟨delay, .activate k keyId key⟩)
      (hrec : s.peers.lookup k = some record) (hwg : env.setPeer = .ok ()) :
    Effect settings s (.fire t env)
      (((s.cancel t).withKey settings env k record keyId key).reschedule settings.refreshS
        (.due k)) .nothing
  | failed {t delay k keyId key env e}
      (ht : s.tasks.lookup t = some ⟨delay, .activate k keyId key⟩)
      (hwg : env.setPeer = .error e) :
    Effect settings s (.fire t env) (s.cancel t) .nothing
  | restarted : Effect settings s .restart (boot s.file s.wg) .nothing

section

variable {settings : VpnSettings} {env : Env} {s : Server} {k : String}

/-! ## Inversion -/

theorem recordFor_none {peers : PeerTable} {q : String} :
    recordFor settings peers k q = none ↔
      k ∉ peers ∧ ∀ host ∈ settings.tunnelCidr.hosts, host ≠ settings.serverAddress →
        Held peers host := by
  rw [← allocateIp_none, ← AList.lookup_eq_none]
  unfold recordFor
  cases peers.lookup k <;> simp

/-- A start that fails leaves the server alone and does not answer 200. -/
theorem startConnection_fails {q : String} {answer : Except EkmError (String × Bytes)}
    (h : SetupFails settings s k answer env) :
    ∃ r, s.startConnection settings env k q answer = (s, r) ∧ r.status ≠ 200 := by
  rcases answer with e | ⟨keyId, key⟩
  · exact ⟨_, rfl, noKey_status e⟩
  · simp only [Server.startConnection]
    cases hrec : recordFor settings s.peers k q with
    | none => exact ⟨_, rfl, by simp [httpError]⟩
    | some found =>
      obtain ⟨record, new, peers⟩ := found
      -- the EKM answered and there is an address, so it was WireGuard
      obtain ⟨e, hwg⟩ : ∃ e, env.setPeer = .error e := by
        rcases h with ⟨_, ⟨⟩⟩ | hnone | hwg
        · rw [recordFor_none.mpr hnone] at hrec
          cases hrec
        · exact hwg
      have hback : (if new then ({ s with peers := peers.erase k } : Server)
          else { s with peers }) = s := by
        rcases recordFor_cases hrec with ⟨_, rfl, rfl⟩ | ⟨hnew, _, rfl, rfl⟩
        · rfl
        · simp [Dict.erase_assign hnew]
      simp only [applyKey_error hwg, hback]
      cases e with
      | runtimeError message => exact ⟨_, rfl, by simp [httpError]⟩
      | other => exact ⟨_, rfl, by simp [unhandled]⟩

/-- A start that does not fail installs the key it was given. -/
theorem startConnection_installs {q keyId : String} {key : Bytes}
    (h : ¬ SetupFails settings s k (.ok (keyId, key)) env) :
    ∃ record new peers r, recordFor settings s.peers k q = some (record, new, peers) ∧
      env.setPeer = .ok () ∧ (r.status = 200 ↔ ∃ publicKey, env.publicKey = .ok publicKey) ∧
      s.startConnection settings env k q (.ok (keyId, key)) =
        ((({ s with peers } : Server).withKey settings env k record keyId key).reschedule
          settings.refreshS (.due k), r) := by
  simp only [SetupFails, reduceCtorEq, exists_false, false_or, not_or, ← recordFor_none
    (q := q)] at h
  obtain ⟨hrec, hwg⟩ := h
  obtain ⟨⟨record, new, peers⟩, hrec⟩ := Option.ne_none_iff_exists'.mp hrec
  have hwg : env.setPeer = .ok () := by
    cases hset : env.setPeer with
    | ok _ => rfl
    | error e => exact absurd ⟨e, hset⟩ hwg
  simp only [Server.startConnection, hrec, applyKey_ok hwg]
  cases hpub : env.publicKey with
  | error e => exact ⟨record, new, peers, unhandled, rfl, hwg, by simp [unhandled], rfl⟩
  | ok publicKey =>
    refine ⟨record, new, peers, _, rfl, hwg, ?_, rfl⟩
    simp

theorem resume_effect {c : Nat} {call : Call} (hc : s.calls.lookup c = some call)
    (answer : Except EkmError (String × Bytes)) :
    Effect settings s (.answer c answer env)
      ((s.dropCall c).resume settings env call answer).1
      (.answers ((s.dropCall c).resume settings env call answer).2) := by
  cases call with
  | start k q =>
    by_cases hfail : SetupFails settings s k answer env
    · obtain ⟨r, heq, hr⟩ := startConnection_fails (s := s.dropCall c) (q := q) hfail
      simp only [Server.resume, heq]
      exact .refused hc hfail hr
    · rcases answer with e | ⟨keyId, key⟩
      · exact absurd (.inl ⟨e, rfl⟩) hfail
      · obtain ⟨record, new, peers, r, hrec, hwg, hr, heq⟩ :=
          startConnection_installs (s := s.dropCall c) (q := q) hfail
        simp only [Server.resume, heq]
        exact .installed hc hrec hwg hr
  | refresh k q =>
    rcases answer with e | ⟨keyId, key⟩
    · exact .refused hc ⟨e, rfl⟩ (noKey_status e)
    · exact .announced hc

theorem fire_effect (h : Wf s) {t : Nat} {task : Task} (ht : s.tasks.lookup t = some task) :
    Effect settings s (.fire t env) ((s.cancel t).run settings env task.work) .nothing := by
  obtain ⟨record, hrec⟩ :=
    Option.isSome_iff_exists.mp (AList.lookup_isSome.mpr (h.known t task ht))
  obtain ⟨delay, work⟩ := task
  have hrec' : (s.cancel t).peers.lookup work.pubkey = some record := hrec
  cases work with
  | due k =>
    simp only [Work.pubkey] at hrec hrec'
    simp only [Server.run, hrec']
    exact .flagged ht hrec
  | activate k keyId key =>
    simp only [Work.pubkey] at hrec hrec'
    simp only [Server.run, hrec']
    cases hwg : env.setPeer with
    | ok _ =>
      rw [applyKey_ok hwg]
      exact .activated ht hrec hwg
    | error e =>
      rw [applyKey_error hwg]
      exact .failed ht hwg

variable (settings) in
/-- **Inversion of a section**: it ends in one of the listed ways. -/
theorem step_effect (h : Wf s) (a : Act) :
    Effect settings s a (step settings s a).1 (step settings s a).2 := by
  cases a with
  | start k q => exact .startAsked
  | refresh k =>
    cases hrec : s.peers.lookup k with
    | none =>
      simp only [step, hrec]
      exact .idle hrec (by rintro _ _ ⟨⟩)
    | some record =>
      simp only [step, hrec]
      exact .refreshAsked hrec
  | answer c answer env =>
    cases hc : s.calls.lookup c with
    | none =>
      simp only [step, hc]
      exact .idle hc (by rintro _ _ ⟨⟩)
    | some call =>
      simp only [step, hc]
      exact resume_effect hc answer
  | fire t env =>
    cases ht : s.tasks.lookup t with
    | none =>
      simp only [step, ht]
      exact .idle ht (by rintro _ _ ⟨⟩)
    | some task =>
      simp only [step, ht]
      exact fire_effect h ht
  | status => exact .idle trivial (by rintro _ _ ⟨⟩)
  | restart => exact .restarted

/-! ## One record -/

/-- The record after `apply_key` installed a key. -/
def PeerRecord.installed (settings : VpnSettings) (env : Env) (record : PeerRecord)
    (keyId : String) : PeerRecord :=
  { record with
    presharedKeyId := some keyId
    refreshDue := false
    nextRefreshAt := some (env.installedAt + settings.refreshS) }

/-- What a section does to the record of `k`. -/
inductive RecordStep (settings : VpnSettings) (s : Server) (k : String) :
    Act → Option PeerRecord → Prop
  | kept {a} : RecordStep settings s k a (s.peers.lookup k)
  | flagged {t delay env record} (ht : s.tasks.lookup t = some ⟨delay, .due k⟩)
      (hrec : s.peers.lookup k = some record) :
    RecordStep settings s k (.fire t env) (some { record with refreshDue := true })
  | started {c q keyId key env record new peers} (hc : s.calls.lookup c = some (.start k q))
      (hrec : recordFor settings s.peers k q = some (record, new, peers))
      (hwg : env.setPeer = .ok ()) :
    RecordStep settings s k (.answer c (.ok (keyId, key)) env)
      (some (record.installed settings env keyId))
  | activated {t delay keyId key env record}
      (ht : s.tasks.lookup t = some ⟨delay, .activate k keyId key⟩)
      (hrec : s.peers.lookup k = some record) (hwg : env.setPeer = .ok ()) :
    RecordStep settings s k (.fire t env) (some (record.installed settings env keyId))

theorem reschedule_peers (s : Server) (delay : Time) (work : Work) :
    (s.reschedule delay work).peers = s.peers := (reschedule_tables s delay work).1

theorem withKey_lookup (s : Server) (k' : String) (record : PeerRecord) (keyId : String)
    (key : Bytes) : (s.withKey settings env k' record keyId key).peers.lookup k =
      if k = k' then some (record.installed settings env keyId) else s.peers.lookup k :=
  Dict.lookup_assign _ _ _ _

/-- A restart reloads the table that was saved. -/
theorem Effect.record {a : Act} {s' : Server} {out : Output} (h : Effect settings s a s' out)
    (hfile : s.file.getD ∅ = s.peers) (k : String) :
    RecordStep settings s k a (s'.peers.lookup k) := by
  cases h with
  | idle _ _ | startAsked | refreshAsked _ | refused _ _ _ | failed _ _ => exact .kept
  | announced _ =>
    rw [reschedule_peers]
    exact .kept
  | restarted =>
    have hboot : (boot s.file s.wg).peers = s.peers := hfile
    rw [hboot]
    exact .kept
  | installed hc hrec hwg _ =>
    rw [reschedule_peers, withKey_lookup]
    split
    · rename_i hk
      subst hk
      exact .started hc hrec hwg
    · rename_i hne
      have hsame := recordFor_lookup hrec k
      rw [if_neg hne] at hsame
      exact hsame ▸ .kept
  | flagged ht hrec =>
    simp only [Dict.lookup_assign]
    split
    · rename_i hk
      subst hk
      exact .flagged ht hrec
    · exact .kept
  | activated ht hrec hwg =>
    rw [reschedule_peers, withKey_lookup]
    split
    · rename_i hk
      subst hk
      exact .activated ht hrec hwg
    · exact .kept

/-- `wg.set_peer` is called for `k` and returns. -/
inductive Installs (settings : VpnSettings) (k : String) (m : Moment Server Act Output) : Prop
  | start {c q keyId key env} (ha : m.act = .answer c (.ok (keyId, key)) env)
      (hc : m.pre.calls.lookup c = some (.start k q))
      (hrec : recordFor settings m.pre.peers k q ≠ none) (hwg : env.setPeer = .ok ())
  | activation {t delay keyId key env} (ha : m.act = .fire t env)
      (ht : m.pre.tasks.lookup t = some ⟨delay, .activate k keyId key⟩)
      (hwg : env.setPeer = .ok ())

/-! ## Any run -/

/-- The tasks and the addresses are in order. -/
structure Sane (settings : VpnSettings) (s : Server) : Prop where
  wf : Wf s
  addressed : Addressed settings s

theorem sane_run (settings : VpnSettings) (wg : String → Option WgPeer) (acts : List Act) :
    Sane settings (exec (step settings) (boot none wg) acts) := by
  obtain ⟨hwf, h⟩ := addressed_exec (wf_boot none wg) (addressed_boot settings wg) acts
  exact ⟨hwf, h⟩

theorem Sane.step (h : Sane settings s) (a : Act) : Sane settings (step settings s a).1 :=
  ⟨wf_step settings h.wf a, addressed_step h.wf h.addressed a⟩

theorem Sane.record (h : Sane settings s) (a : Act) (k : String) :
    RecordStep settings s k a ((Vpn.step settings s a).1.peers.lookup k) :=
  (step_effect settings h.wf a).record h.addressed.file k

/-- Every record names a key, and is of a peer that WireGuard accepted. -/
def Accepted (settings : VpnSettings) (past : List (Moment Server Act Output)) (s : Server) :
    Prop :=
  ∀ k r, s.peers.lookup k = some r →
    r.presharedKeyId ≠ none ∧ ∃ m ∈ past, Installs settings k m

theorem accepted_step {past : List (Moment Server Act Output)} (hs : Sane settings s)
    (h : Accepted settings past s) (a : Act) :
    Accepted settings (past ++ [moment (step settings) s a]) (step settings s a).1 := by
  have hpast : ∀ {k r}, s.peers.lookup k = some r → r.presharedKeyId ≠ none ∧
      ∃ m ∈ past ++ [moment (step settings) s a], Installs settings k m := by
    intro k r hr
    obtain ⟨hid, m, hm, hinst⟩ := h k r hr
    exact ⟨hid, m, List.mem_append_left _ hm, hinst⟩
  intro k r hr
  have hrec := hs.record a k
  rw [hr] at hrec
  generalize hsome : some r = found at hrec
  cases hrec with
  | kept => exact hpast hsome.symm
  | flagged ht hrec =>
    cases hsome
    exact ⟨(hpast hrec).1, (hpast hrec).2⟩
  | started hc hrec hwg =>
    cases hsome
    exact ⟨by simp [PeerRecord.installed], _, List.mem_append_right _
      (List.mem_singleton_self _), .start rfl hc (Option.ne_none_iff_exists'.mpr ⟨_, hrec⟩) hwg⟩
  | activated ht hrec hwg =>
    cases hsome
    exact ⟨by simp [PeerRecord.installed], _, List.mem_append_right _
      (List.mem_singleton_self _), .activation rfl ht hwg⟩

theorem accepted_run (settings : VpnSettings) (wg : String → Option WgPeer) (acts : List Act) :
    Accepted settings (trace (step settings) (boot none wg) acts)
      (exec (step settings) (boot none wg) acts) := by
  have hboot : Accepted settings [] (boot none wg) := by
    rintro k r ⟨⟩
  refine (trace_invariant (fun past s => Sane settings s ∧ Accepted settings past s)
    (fun _ => True) ⟨sane_run settings wg [], hboot⟩ ?_ (fun _ _ => trivial)).2
  rintro past s a ⟨hs, h⟩ _
  exact ⟨hs.step a, accepted_step hs h a⟩

end

/-- **A failed set-up leaves no trace.** After every run from a server
without a peers file, with whatever failures and restarts: a start
waits for its key outside the tables, one that fails ends as if its
handler had never been resumed, and the address it held is free; an
activation that fails leaves all but itself; and every record in
`peers.json` names a key, and is of a peer that WireGuard accepted. -/
theorem failed_setup_leaves_no_trace (settings : VpnSettings) (wg : String → Option WgPeer)
    (acts : List Act) :
    let s := exec (step settings) (boot none wg) acts
    (∀ k q, (step settings s (.start k q)).1 =
      { s with calls := s.calls.insert s.nextId (.start k q), nextId := s.nextId + 1 }) ∧
    (∀ c k q answer env, s.calls.lookup c = some (.start k q) → SetupFails settings s k answer env →
      (step settings s (.answer c answer env)).1 = { s with calls := s.calls.erase c } ∧
      (∀ record peers, recordFor settings s.peers k q = some (record, true, peers) →
        ¬ Held (step settings s (.answer c answer env)).1.peers record.clientIp) ∧
      ∃ r, (step settings s (.answer c answer env)).2 = .answers r ∧ r.status ≠ 200) ∧
    (∀ t delay k keyId key env e, s.tasks.lookup t = some ⟨delay, .activate k keyId key⟩ →
      env.setPeer = .error e →
      (step settings s (.fire t env)).1 = { s with tasks := s.tasks.erase t }) ∧
    (∀ file, s.file = some file → ∀ k r, file.lookup k = some r → r.presharedKeyId ≠ none ∧
      ∃ m ∈ trace (step settings) (boot none wg) acts, Installs settings k m) := by
  intro s
  have hs : Sane settings s := sane_run settings wg acts
  refine ⟨fun k q => rfl, ?_, ?_, ?_⟩
  · intro c k q answer env hc hfail
    obtain ⟨r, heq, hr⟩ := startConnection_fails (s := s.dropCall c) (q := q) hfail
    have hstep : step settings s (.answer c answer env) = (s.dropCall c, .answers r) := by
      change (s.dropCall c).startConnection settings env k q answer = _ at heq
      simp only [step, hc, Server.resume]
      exact congrArg (fun x : Server × Response => (x.1, Output.answers x.2)) heq
    rw [hstep]
    refine ⟨rfl, ?_, r, rfl, hr⟩
    intro record peers hrec
    rcases recordFor_cases hrec with ⟨_, ⟨⟩, _⟩ | ⟨_, halloc, _, _⟩
    exact (allocateIp_some halloc).2.2
  · intro t delay k keyId key env e ht hwg
    have heff := step_effect settings hs.wf (.fire t env)
    generalize (step settings s (.fire t env)).1 = s' at heff ⊢
    generalize (step settings s (.fire t env)).2 = out at heff
    -- no other end of a section is that of this task
    cases heff with
    | idle ha _ =>
      rw [Act.Idle, ht] at ha
      cases ha
    | flagged ht' _ => cases ht.symm.trans ht'
    | activated _ _ hwg' => cases hwg.symm.trans hwg'
    | failed _ _ => rfl
  · intro file hfile k r hr
    have hpeers : file = s.peers := by
      have := hs.addressed.file
      rwa [hfile] at this
    exact accepted_run settings wg acts k r (hpeers ▸ hr)

end QkdEkm.Vpn
