import QkdEkm.Lib.Machine
import QkdEkm.Vpn.Slots

/-!
# Addresses — who has which tunnel address

A record enters the table with an address that nobody has, and stays
there once a section has ended with it. `TableStep` says what a section
does to the table and to `peers.json`: nothing, a reload of one from the
other, or one record put into both.
-/

namespace QkdEkm.Vpn

open QkdEkm.Common QkdEkm.Lib

/-! ## Allocation -/

/-- Some record has the address. -/
def Held (peers : PeerTable) (address : Address) : Prop :=
  ∃ k r, peers.lookup k = some r ∧ r.clientIp = address

section

variable {settings : VpnSettings} {peers : PeerTable}

theorem mem_taken {address : Address} :
    address ∈ settings.serverAddress :: peers.items.map (·.2.clientIp) ↔
      address = settings.serverAddress ∨ Held peers address := by
  rw [List.mem_cons, List.mem_map]
  refine or_congr Iff.rfl ⟨?_, ?_⟩
  · rintro ⟨⟨k, r⟩, hm, hip⟩
    exact ⟨k, r, Dict.mem_items.mp hm, hip⟩
  · rintro ⟨k, r, hr, hip⟩
    exact ⟨(k, r), Dict.mem_items.mpr hr, hip⟩

/-- What is allocated is a host address that nobody has. -/
theorem allocateIp_some {address : Address} (h : allocateIp settings peers = some address) :
    address ∈ settings.tunnelCidr.hosts ∧ address ≠ settings.serverAddress ∧
      ¬ Held peers address := by
  have hfree := List.find?_some h
  simp only [decide_eq_true_eq, mem_taken, not_or] at hfree
  exact ⟨List.mem_of_find?_eq_some h, hfree⟩

/-- Nothing is allocated only when everything is taken. -/
theorem allocateIp_none : allocateIp settings peers = none ↔
    ∀ host ∈ settings.tunnelCidr.hosts, host ≠ settings.serverAddress → Held peers host := by
  unfold allocateIp
  simp only [List.find?_eq_none, decide_eq_true_eq, not_not, mem_taken]
  exact forall₂_congr fun host _ => or_iff_not_imp_left

end

/-! ## What a section does to the table -/

/-- The ways a section that began with `old` and `file` leaves the table
and the file. -/
inductive TableStep (settings : VpnSettings) (old : PeerTable) (file : Option PeerTable) :
    PeerTable → Option PeerTable → Prop
  | same : TableStep settings old file old file
  | reloaded : TableStep settings old file (file.getD ∅) file
  | put {k record peers}
      (hlookup : ∀ k', peers.lookup k' = if k' = k then some record else old.lookup k')
      (hip : (∃ r, old.lookup k = some r ∧ record.clientIp = r.clientIp) ∨
        (k ∉ old ∧ allocateIp settings old = some record.clientIp)) :
    TableStep settings old file peers (some peers)

/-- The client address that an answer names. -/
def Reply.clientIp? : Reply → Option Address
  | .connected _ _ _ _ clientIp _ _ _ => some clientIp
  | _ => none

/-- What a handler that was given a key leaves behind: its peer has a
record if the answer is 200, with the address the answer names. -/
structure Answered (settings : VpnSettings) (s : Server) (k : String)
    (result : Server × Response) : Prop where
  tables : TableStep settings s.peers s.file result.1.peers result.1.file
  record : result.2.status = 200 → ∃ r, result.1.peers.lookup k = some r ∧
    ∀ address, result.2.reply.clientIp? = some address → address = r.clientIp

section

variable {settings : VpnSettings} {env : Env} {s : Server} {k : String}

/-- The ways a record is found or invented. -/
theorem recordFor_cases {peers peers' : PeerTable} {record : PeerRecord} {new : Bool}
    {qkdId : String} (h : recordFor settings peers k qkdId = some (record, new, peers')) :
    (peers.lookup k = some record ∧ new = false ∧ peers' = peers) ∨
      (k ∉ peers ∧ allocateIp settings peers = some record.clientIp ∧ new = true ∧
        peers' = peers.assign k record) := by
  unfold recordFor at h
  split at h
  · rename_i hfound
    cases h
    exact .inl ⟨hfound, rfl, rfl⟩
  · rename_i hnone
    obtain ⟨clientIp, hip, heq⟩ := Option.map_eq_some_iff.mp h
    cases heq
    exact .inr ⟨AList.lookup_eq_none.mp hnone, hip, rfl, rfl⟩

variable (env) in
/-- A key that is installed for a record leaves the record with its
address in the table and in the file. -/
theorem withKey_tables (keyId : String) (key : Bytes) {record : PeerRecord} {peers : PeerTable}
    (hold : ∀ k', peers.lookup k' = if k' = k then some record else s.peers.lookup k')
    (hip : (∃ r, s.peers.lookup k = some r ∧ record.clientIp = r.clientIp) ∨
      (k ∉ s.peers ∧ allocateIp settings s.peers = some record.clientIp)) :
    let s' := ({ s with peers } : Server).withKey settings env k record keyId key
    TableStep settings s.peers s.file s'.peers s'.file ∧
      ∃ r, s'.peers.lookup k = some r ∧ r.clientIp = record.clientIp := by
  intro s'
  have hlookup : ∀ k', s'.peers.lookup k' = if k' = k then
      some { record with
        presharedKeyId := some keyId
        refreshDue := false
        nextRefreshAt := some (env.installedAt + settings.refreshS) }
      else s.peers.lookup k' := by
    intro k'
    refine (Dict.lookup_assign _ _ _ _).trans ?_
    split
    · rfl
    · rename_i hne
      rw [hold k', if_neg hne]
  exact ⟨.put hlookup hip, _, (hlookup k).trans (if_pos rfl), rfl⟩

/-- Rescheduling leaves the table and the file alone. -/
theorem reschedule_tables (s : Server) (delay : Time) (work : Work) :
    (s.reschedule delay work).peers = s.peers ∧ (s.reschedule delay work).file = s.file := by
  obtain ⟨tasks, timers, activations, heq⟩ := reschedule_eq s delay work
  rw [heq]
  exact ⟨rfl, rfl⟩

variable (env) in
/-- `apply_key` for a record of `record_for`: it is installed, or the
table is as before. -/
theorem applyKey_tables (keyId : String) (key : Bytes) {record : PeerRecord} {new : Bool}
    {peers : PeerTable} {qkdId : String}
    (h : recordFor settings s.peers k qkdId = some (record, new, peers)) :
    let s' := (({ s with peers } : Server).applyKey settings env k record keyId key new).2
    TableStep settings s.peers s.file s'.peers s'.file ∧ (env.setPeer = .ok () →
      ∃ r, s'.peers.lookup k = some r ∧ r.clientIp = record.clientIp) := by
  intro s'
  cases hwg : env.setPeer with
  | ok _ =>
    have hip : (∃ r, s.peers.lookup k = some r ∧ record.clientIp = r.clientIp) ∨
        (k ∉ s.peers ∧ allocateIp settings s.peers = some record.clientIp) := by
      rcases recordFor_cases h with ⟨hfound, _⟩ | ⟨hnew, hip, _⟩
      · exact .inl ⟨record, hfound, rfl⟩
      · exact .inr ⟨hnew, hip⟩
    obtain ⟨htables, hrecord⟩ := withKey_tables env keyId key (recordFor_lookup h) hip
    have hs' : s' = _ := congrArg Prod.snd (applyKey_ok hwg new)
    obtain ⟨hpeers, hfile⟩ := reschedule_tables
      (({ s with peers } : Server).withKey settings env k record keyId key) settings.refreshS
      (.due k)
    rw [hs', hpeers, hfile]
    exact ⟨htables, fun _ => hrecord⟩
  | error e =>
    have hs' : s' = _ := congrArg Prod.snd (applyKey_error hwg new)
    rw [hs']
    refine ⟨?_, by rintro ⟨⟩⟩
    rcases recordFor_cases h with ⟨_, rfl, rfl⟩ | ⟨hnew, _, rfl, rfl⟩
    · exact .same
    · -- the record that was held is released
      have herase : (s.peers.assign k record).erase k = s.peers := Dict.erase_assign hnew _
      simp only [if_true, herase]
      exact .same

variable (settings env s k) in
theorem startConnection_answered (qkdId : String) (answer : Except EkmError (String × Bytes)) :
    Answered settings s k (s.startConnection settings env k qkdId answer) := by
  unfold Server.startConnection
  cases answer with
  | error e =>
    refine ⟨.same, fun h => ?_⟩
    cases e <;> exact absurd h (by simp [Server.noKey, httpError, unhandled])
  | ok answer =>
    obtain ⟨keyId, key⟩ := answer
    cases hrec : recordFor settings s.peers k qkdId with
    | none => exact ⟨.same, fun h => absurd h (by simp [httpError])⟩
    | some found =>
      obtain ⟨record, new, peers⟩ := found
      obtain ⟨htables, hrecord⟩ := applyKey_tables env keyId key hrec
      cases hwg : env.setPeer with
      | error e =>
        simp only [applyKey_error hwg] at htables ⊢
        cases e with
        | runtimeError message => exact ⟨htables, fun h => absurd h (by simp [httpError])⟩
        | other => exact ⟨htables, fun h => absurd h (by simp [unhandled])⟩
      | ok _ =>
        obtain ⟨r, hr, hip⟩ := hrecord hwg
        simp only [applyKey_ok hwg] at htables hr ⊢
        cases env.publicKey with
        | error e => exact ⟨htables, fun h => absurd h (by simp [unhandled])⟩
        | ok publicKey =>
          refine ⟨htables, fun _ => ⟨r, hr, fun address haddress => ?_⟩⟩
          cases haddress
          exact hip.symm

variable (settings env) in
theorem refreshConnection_answered (hk : k ∈ s.peers) (answer : Except EkmError (String × Bytes)) :
    Answered settings s k (s.refreshConnection settings env k answer) := by
  cases answer with
  | error e =>
    refine ⟨.same, fun h => ?_⟩
    cases e <;>
      exact absurd h (by simp [Server.refreshConnection, Server.noKey, httpError, unhandled])
  | ok answer =>
    obtain ⟨keyId, key⟩ := answer
    obtain ⟨hpeers, hfile⟩ := reschedule_tables s settings.activationDelayS (.activate k keyId key)
    obtain ⟨r, hr⟩ := Option.isSome_iff_exists.mp (AList.lookup_isSome.mpr hk)
    simp only [Server.refreshConnection]
    refine ⟨?_, fun _ => ⟨r, hpeers ▸ hr, by rintro _ ⟨⟩⟩⟩
    rw [hpeers, hfile]
    exact .same

variable (settings env s) in
theorem resume_answered {call : Call} (hcall : ∀ k q, call = .refresh k q → k ∈ s.peers)
    (answer : Except EkmError (String × Bytes)) :
    Answered settings s call.pubkey (s.resume settings env call answer) := by
  cases call with
  | start k qkdId => exact startConnection_answered settings env s k qkdId answer
  | refresh k qkdId => exact refreshConnection_answered settings env (hcall k qkdId rfl) answer

variable (settings env s) in
/-- A task whose sleep is over rewrites the record of its peer. -/
theorem run_tables (work : Work) :
    TableStep settings s.peers s.file (s.run settings env work).peers
      (s.run settings env work).file := by
  cases work with
  | due k =>
    simp only [Server.run]
    split
    · exact .same
    · rename_i record hrec
      exact .put (fun k' => Dict.lookup_assign _ _ _ _) (.inl ⟨record, hrec, rfl⟩)
  | activate k keyId key =>
    simp only [Server.run]
    split
    · exact .same
    · rename_i record hrec
      have hfor : recordFor settings s.peers k record.qkdId = some (record, false, s.peers) := by
        simp only [recordFor, hrec]
      exact (applyKey_tables env keyId key hfor).1

variable (settings) in
/-- **Inversion of a section, on the table and the file.** -/
theorem step_tables (h : Wf s) (a : Act) :
    TableStep settings s.peers s.file (step settings s a).1.peers (step settings s a).1.file := by
  cases a with
  | start k qkdId => exact .same
  | refresh k =>
    simp only [step]
    split <;> exact .same
  | answer c answer env =>
    simp only [step]
    split
    · exact .same
    · rename_i call hcall
      exact (resume_answered settings env { s with calls := s.calls.erase c }
        (h.called c call hcall).2 answer).tables
  | fire t env =>
    simp only [step]
    split
    · exact .same
    · rename_i task htask
      exact run_tables settings env (s.cancel t) task.work
  | status => exact .same
  | restart => exact .reloaded

/-! ## The addresses -/

/-- Every record has a host address of its own, and the file has what
the table has. -/
structure Addressed (settings : VpnSettings) (s : Server) : Prop where
  file : s.file.getD ∅ = s.peers
  host : ∀ k r, s.peers.lookup k = some r →
    r.clientIp ∈ settings.tunnelCidr.hosts ∧ r.clientIp ≠ settings.serverAddress
  distinct : ∀ k k' r r', s.peers.lookup k = some r → s.peers.lookup k' = some r' →
    r.clientIp = r'.clientIp → k = k'

theorem addressed_boot (settings : VpnSettings) (wg : String → Option WgPeer) :
    Addressed settings (boot none wg) where
  file := rfl
  host := by
    rintro k r ⟨⟩
  distinct := by
    rintro k k' r r' ⟨⟩

/-- **A section keeps the addresses in order.** -/
theorem TableStep.addressed (h : Addressed settings s) {s' : Server}
    (hstep : TableStep settings s.peers s.file s'.peers s'.file) : Addressed settings s' := by
  generalize hpeers : s'.peers = peers at hstep
  generalize hfile : s'.file = file at hstep
  cases hstep with
  | same => exact ⟨by rw [hfile, hpeers]; exact h.file, hpeers ▸ h.host, hpeers ▸ h.distinct⟩
  | reloaded =>
    rw [h.file] at hpeers
    exact ⟨by rw [hfile, hpeers]; exact h.file, hpeers ▸ h.host, hpeers ▸ h.distinct⟩
  | @put k record peers hlookup hip =>
    refine ⟨by rw [hfile, hpeers]; rfl, ?_, ?_⟩
    · intro k' r hr
      rw [hpeers, hlookup] at hr
      split at hr
      · cases hr
        rcases hip with ⟨r₀, hr₀, heq⟩ | ⟨_, halloc⟩
        · exact heq ▸ h.host k r₀ hr₀
        · exact ⟨(allocateIp_some halloc).1, (allocateIp_some halloc).2.1⟩
      · exact h.host k' r hr
    · -- a record that shares the address of `record` is the record of `k`
      have hown : ∀ k' r, k' ≠ k → s.peers.lookup k' = some r → record.clientIp ≠ r.clientIp := by
        intro k' r hne hr heq
        rcases hip with ⟨r₀, hr₀, heq₀⟩ | ⟨_, halloc⟩
        · exact hne (h.distinct k' k r r₀ hr hr₀ (heq.symm.trans heq₀))
        · exact (allocateIp_some halloc).2.2 ⟨k', r, hr, heq.symm⟩
      intro k₁ k₂ r₁ r₂ hr₁ hr₂ heq
      rw [hpeers, hlookup] at hr₁ hr₂
      split at hr₁
      · rename_i hk₁
        split at hr₂
        · rename_i hk₂
          exact hk₁.trans hk₂.symm
        · rename_i hk₂
          cases hr₁
          exact absurd heq (hown k₂ r₂ hk₂ hr₂)
      · rename_i hk₁
        split at hr₂
        · cases hr₂
          exact absurd heq.symm (hown k₁ r₁ hk₁ hr₁)
        · exact h.distinct k₁ k₂ r₁ r₂ hr₁ hr₂ heq

/-- **A record keeps its address.** -/
theorem TableStep.kept (h : Addressed settings s) {s' : Server}
    (hstep : TableStep settings s.peers s.file s'.peers s'.file) {address : Address}
    (hk : ∃ r, s.peers.lookup k = some r ∧ r.clientIp = address) :
    ∃ r, s'.peers.lookup k = some r ∧ r.clientIp = address := by
  obtain ⟨r, hr, hip⟩ := hk
  generalize s'.peers = peers at hstep ⊢
  generalize s'.file = file at hstep
  cases hstep with
  | same => exact ⟨r, hr, hip⟩
  | reloaded => exact ⟨r, h.file ▸ hr, hip⟩
  | @put k' record peers hlookup hold =>
    rw [hlookup]
    split
    · rename_i heq
      subst heq
      rcases hold with ⟨r₀, hr₀, hip₀⟩ | ⟨hnew, _⟩
      · cases hr.symm.trans hr₀
        exact ⟨record, rfl, hip₀.trans hip⟩
      · exact absurd (AList.lookup_isSome.mp (hr ▸ rfl)) hnew
    · exact ⟨r, hr, hip⟩

/-- An answer of 200 to a handler of `k`. -/
def Told (m : Moment Server Act Output) (k : String) (reply : Reply) : Prop :=
  ∃ c answer env call, m.act = .answer c answer env ∧ m.pre.calls.lookup c = some call ∧
    call.pubkey = k ∧ m.out = .answers ⟨200, reply⟩

/-- A peer that is answered 200 has a record, with the address the
answer names. -/
theorem told_record (h : Wf s) {a : Act} {reply : Reply}
    (htold : Told (moment (step settings) s a) k reply) :
    ∃ r, (step settings s a).1.peers.lookup k = some r ∧
      ∀ named, reply.clientIp? = some named → named = r.clientIp := by
  obtain ⟨c, answer, env, call, hact, hcall, rfl, hout⟩ := htold
  obtain rfl : a = .answer c answer env := hact
  have hcall' : s.calls.lookup c = some call := hcall
  have hans := (resume_answered settings env { s with calls := s.calls.erase c }
    (h.called c call hcall').2 answer).record
  simp only [moment, step, hcall', Output.answers.injEq] at hout ⊢
  rw [hout] at hans
  exact hans rfl

variable (settings) in
/-- **A new peer is refused for lack of addresses exactly if there is
none.** -/
theorem start_exhausted {c : Nat} {qkdId : String}
    (hc : s.calls.lookup c = some (.start k qkdId)) (hk : k ∉ s.peers) (keyId : String)
    (key : Bytes) (env : Env) :
    (step settings s (.answer c (.ok (keyId, key)) env)).2 =
        .answers (httpError 503 "tunnel address pool exhausted") ↔
      ∀ host ∈ settings.tunnelCidr.hosts, host ≠ settings.serverAddress → Held s.peers host := by
  have hfor : recordFor settings s.peers k qkdId = (allocateIp settings s.peers).map
      fun clientIp => ({ clientIp, qkdId }, true, s.peers.assign k { clientIp, qkdId }) := by
    simp only [recordFor, AList.lookup_eq_none.mpr hk]
  rw [← allocateIp_none]
  simp only [step, hc, Server.resume, Server.startConnection, hfor]
  cases halloc : allocateIp settings s.peers with
  | none => simp
  | some clientIp =>
    simp only [Option.map_some, reduceCtorEq, iff_false, Output.answers.injEq]
    intro heq
    have hstatus := congrArg Response.status heq
    -- every other end has another status
    cases hwg : env.setPeer with
    | error e =>
      rw [applyKey_error hwg] at hstatus
      cases e <;> simp [httpError, unhandled] at hstatus
    | ok _ =>
      rw [applyKey_ok hwg] at hstatus
      cases hpub : env.publicKey <;> simp [httpError, unhandled, hpub] at hstatus

/-! ## Any run -/

theorem addressed_step (hwf : Wf s) (h : Addressed settings s) (a : Act) :
    Addressed settings (step settings s a).1 :=
  TableStep.addressed h (step_tables settings hwf a)

theorem addressed_exec (hwf : Wf s) (h : Addressed settings s) (acts : List Act) :
    Wf (exec (step settings) s acts) ∧ Addressed settings (exec (step settings) s acts) := by
  refine exec_invariant (fun s => Wf s ∧ Addressed settings s) ⟨hwf, h⟩ ?_ acts
  rintro s a ⟨hwf, h⟩
  exact ⟨wf_step settings hwf a, addressed_step hwf h a⟩

theorem kept_exec (hwf : Wf s) (h : Addressed settings s) {address : Address}
    (hk : ∃ r, s.peers.lookup k = some r ∧ r.clientIp = address) (acts : List Act) :
    ∃ r, (exec (step settings) s acts).peers.lookup k = some r ∧ r.clientIp = address := by
  refine (exec_invariant (fun s => (Wf s ∧ Addressed settings s) ∧
    ∃ r, s.peers.lookup k = some r ∧ r.clientIp = address) ⟨⟨hwf, h⟩, hk⟩ ?_ acts).2
  rintro s a ⟨⟨hwf, h⟩, hk⟩
  exact ⟨⟨wf_step settings hwf a, addressed_step hwf h a⟩,
    TableStep.kept h (step_tables settings hwf a) hk⟩

end

/-- **Tunnel addresses are unique, stable and durable.** After every run
from a server without a peers file, with whatever failures and restarts:
the records have host addresses of their own and the file has what the
table has; a new peer is refused for lack of addresses if and only if
every host address but the server's is taken; and a peer that is
answered 200 has the address it is told from then on, whatever happens. -/
theorem addresses_stable (settings : VpnSettings) (wg : String → Option WgPeer)
    (acts : List Act) :
    let s := exec (step settings) (boot none wg) acts
    Addressed settings s ∧
    (∀ c k qkdId keyId key env, s.calls.lookup c = some (.start k qkdId) → k ∉ s.peers →
      ((step settings s (.answer c (.ok (keyId, key)) env)).2 =
          .answers (httpError 503 "tunnel address pool exhausted") ↔
        ∀ host ∈ settings.tunnelCidr.hosts, host ≠ settings.serverAddress →
          Held s.peers host)) ∧
    (∀ a k reply, Told (moment (step settings) s a) k reply →
      ∃ address, (∀ named, reply.clientIp? = some named → named = address) ∧
        ∀ later, ∃ r, (exec (step settings) s (a :: later)).peers.lookup k = some r ∧
          r.clientIp = address) := by
  intro s
  obtain ⟨hwf, h⟩ : Wf s ∧ Addressed settings s :=
    addressed_exec (wf_boot none wg) (addressed_boot settings wg) acts
  refine ⟨h, ?_, ?_⟩
  · intro c k qkdId keyId key env hc hk
    exact start_exhausted settings hc hk keyId key env
  · intro a k reply htold
    obtain ⟨r, hr, hnamed⟩ := told_record hwf htold
    exact ⟨r.clientIp, hnamed, kept_exec (wf_step settings hwf a) (addressed_step hwf h a)
      ⟨r, hr, rfl⟩⟩

end QkdEkm.Vpn
