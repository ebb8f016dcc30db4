import QkdEkm.Vpn.Sections

/-!
# Nodes — which QKD node a refresh draws from

A start asks the EKM for a key of the node that the client names; a
refresh asks for one of the node in the record. `record_for` writes the
node into a record that it invents and leaves one that it finds, so a
client that starts again from another node keeps the old one.
-/

namespace QkdEkm.Vpn

open QkdEkm.Common QkdEkm.Lib

/-- The node that `k` was last started from, after one more section. -/
def laterNode (k : String) (last : Option String) (m : Moment Server Act Output) :
    Option String :=
  match m.act, m.out with
  | .answer c _ _, .answers ⟨200, _⟩ =>
    match m.pre.calls.lookup c with
    | some (.start k' q) => if k' = k then some q else last
    | _ => last
  | _, _ => last

/-- The node named by the last start of `k` that answered 200. -/
def lastNode (past : List (Moment Server Act Output)) (k : String) : Option String :=
  past.foldl (laterNode k) none

theorem lastNode_append (past : List (Moment Server Act Output)) (m : Moment Server Act Output)
    (k : String) : lastNode (past ++ [m]) k = laterNode k (lastNode past k) m := by
  simp [lastNode]

/-- A start installs its key for a peer whose record has another node and
answers 200, or it invents a record and does not answer 200 because the
server's own key cannot be read. -/
def Mismatches (settings : VpnSettings) (s : Server) (a : Act) : Prop :=
  ∃ c keyId key env k q, a = .answer c (.ok (keyId, key)) env ∧
    s.calls.lookup c = some (.start k q) ∧ env.setPeer = .ok () ∧
    ((∃ record publicKey, s.peers.lookup k = some record ∧ record.qkdId ≠ q ∧
        env.publicKey = .ok publicKey) ∨
      ∃ clientIp e, k ∉ s.peers ∧ allocateIp settings s.peers = some clientIp ∧
        env.publicKey = .error e)

/-- Every record has the node that its peer was last started from, and a
peer without a record was never started. -/
def Matched (past : List (Moment Server Act Output)) (s : Server) : Prop :=
  ∀ k, lastNode past k = (s.peers.lookup k).map (·.qkdId)

section

variable {settings : VpnSettings} {s : Server} {k : String}
  {past : List (Moment Server Act Output)}

/-! ## One section -/

/-- Only an answer to a start of `k` moves its node. -/
theorem laterNode_of_ne {m : Moment Server Act Output} {last : Option String}
    (h : ∀ c answer env q, m.act = .answer c answer env →
      m.pre.calls.lookup c ≠ some (.start k q)) : laterNode k last m = last := by
  unfold laterNode
  split
  · rename_i c answer env reply hact _
    split
    · rename_i k' q hcall
      split
      · rename_i hk
        exact absurd (hk ▸ hcall) (h c answer env q hact)
      · rfl
    · rfl
  · rfl

theorem laterNode_answer {c : Nat} {answer : Except EkmError (String × Bytes)} {env : Env}
    {q : String} {r : Response} {post : Server} (last : Option String)
    (hc : s.calls.lookup c = some (.start k q)) :
    laterNode k last ⟨s, .answer c answer env, .answers r, post⟩ =
      if r.status = 200 then some q else last := by
  obtain ⟨status, reply⟩ := r
  by_cases h : status = 200
  · subst h
    simp [laterNode, hc]
  · rw [if_neg h]
    unfold laterNode
    split
    · rename_i heq
      cases heq
      exact absurd rfl h
    · rfl

/-- A record is invented with the node that the start names. -/
theorem recordFor_qkdId {peers peers' : PeerTable} {record : PeerRecord} {new : Bool}
    {q : String} (h : recordFor settings peers k q = some (record, new, peers'))
    (hnew : k ∉ peers) : record.qkdId = q := by
  unfold recordFor at h
  rw [AList.lookup_eq_none.mpr hnew] at h
  obtain ⟨clientIp, _, heq⟩ := Option.map_eq_some_iff.mp h
  cases heq
  rfl

/-- The record of `k` after a key is installed for it. -/
theorem installed_lookup {settings : VpnSettings} {env : Env} (s : Server) (record : PeerRecord)
    (keyId : String) (key : Bytes) :
    ((s.withKey settings env k record keyId key).reschedule settings.refreshS
      (.due k)).peers.lookup k = some (record.installed settings env keyId) := by
  rw [reschedule_peers, withKey_lookup, if_pos rfl]

/-- A section that answers no start of `k` leaves its node. -/
theorem RecordStep.qkdId {a : Act} {found : Option PeerRecord}
    (h : RecordStep settings s k a found)
    (ha : ∀ c answer env q, a = .answer c answer env → s.calls.lookup c ≠ some (.start k q)) :
    found.map (·.qkdId) = (s.peers.lookup k).map (·.qkdId) := by
  cases h with
  | kept => rfl
  | flagged _ hrec | activated _ hrec _ =>
    rw [hrec]
    rfl
  | started hc _ _ => exact absurd hc (ha _ _ _ _ rfl)

/-- **A section that does not mismatch keeps the nodes right.** -/
theorem matched_step (hs : Sane settings s) (h : Matched past s) {a : Act}
    (ha : ¬ Mismatches settings s a) :
    Matched (past ++ [moment (step settings) s a]) (step settings s a).1 := by
  intro k
  rw [lastNode_append]
  by_cases hstart : ∃ c answer env q, a = .answer c answer env ∧
      s.calls.lookup c = some (.start k q)
  · obtain ⟨c, answer, env, q, rfl, hc⟩ := hstart
    have heff := step_effect settings hs.wf (.answer c answer env)
    simp only [moment]
    generalize (step settings s (.answer c answer env)).1 = s' at heff ⊢
    generalize (step settings s (.answer c answer env)).2 = out at heff ⊢
    cases heff with
    | idle hidle _ =>
      rw [Act.Idle, hc] at hidle
      cases hidle
    | refused hc' _ hr =>
      rw [laterNode_answer _ hc, if_neg hr]
      exact h k
    | announced hc' => cases hc.symm.trans hc'
    | installed hc' hrec hwg hr =>
      cases hc.symm.trans hc'
      rw [laterNode_answer _ hc, installed_lookup]
      -- the record was there with this node, or it was invented with it
      rcases recordFor_cases hrec with ⟨hfound, _⟩ | ⟨hnew, hip, _, _⟩
      · have hnode := h k
        rw [hfound] at hnode
        split
        · rename_i hok
          obtain ⟨publicKey, hpub⟩ := hr.mp hok
          by_contra hne
          exact ha ⟨_, _, _, _, k, q, rfl, hc, hwg, .inl ⟨_, publicKey, hfound,
            fun heq => hne (congrArg some heq.symm), hpub⟩⟩
        · exact hnode
      · have hq := recordFor_qkdId hrec hnew
        rw [if_pos]
        · exact congrArg some hq.symm
        · cases hpub : env.publicKey with
          | ok publicKey => exact hr.mpr ⟨publicKey, hpub⟩
          | error e =>
            exact absurd ⟨_, _, _, _, k, q, rfl, hc, hwg, .inr ⟨_, e, hnew, hip, hpub⟩⟩ ha
  · have hnone : ∀ c answer env q, a = .answer c answer env →
        s.calls.lookup c ≠ some (.start k q) :=
      fun c answer env q heq hc => hstart ⟨c, answer, env, q, heq, hc⟩
    rw [laterNode_of_ne hnone, (hs.record a k).qkdId hnone]
    exact h k

/-- A peer without a record was never started. -/
def Unstarted (past : List (Moment Server Act Output)) (s : Server) : Prop :=
  ∀ k, k ∉ s.peers → lastNode past k = none

theorem unstarted_step (hs : Sane settings s) (h : Unstarted past s) (a : Act) :
    Unstarted (past ++ [moment (step settings) s a]) (step settings s a).1 := by
  intro k hk
  rw [lastNode_append]
  have hrec := hs.record a k
  rw [AList.lookup_eq_none.mpr hk] at hrec
  generalize hnone : (none : Option PeerRecord) = found at hrec
  cases hrec with
  | flagged _ _ | started _ _ _ | activated _ _ _ => cases hnone
  | kept =>
    have hnew : k ∉ s.peers := AList.lookup_eq_none.mp hnone.symm
    by_cases hstart : ∃ c answer env q, a = .answer c answer env ∧
        s.calls.lookup c = some (.start k q)
    · obtain ⟨c, answer, env, q, rfl, hc⟩ := hstart
      have heff := step_effect settings hs.wf (.answer c answer env)
      simp only [moment]
      generalize (step settings s (.answer c answer env)).1 = s' at heff hk ⊢
      generalize (step settings s (.answer c answer env)).2 = out at heff ⊢
      cases heff with
      | idle hidle _ =>
        rw [Act.Idle, hc] at hidle
        cases hidle
      | refused _ _ hr =>
        rw [laterNode_answer _ hc, if_neg hr]
        exact h k hnew
      | announced hc' => cases hc.symm.trans hc'
      | installed hc' _ _ _ =>
        cases hc.symm.trans hc'
        rw [← AList.lookup_eq_none, installed_lookup] at hk
        cases hk
    · rw [laterNode_of_ne fun c answer env q heq hc => hstart ⟨c, answer, env, q, heq, hc⟩]
      exact h k hnew

/-- A refresh of a peer asks for a key of the node in its record. -/
theorem refresh_asks {c : Nat} {q : String} (h : (step settings s (.refresh k)).2 = .asks c q) :
    ∃ record, s.peers.lookup k = some record ∧ record.qkdId = q := by
  simp only [step] at h
  split at h
  · cases h
  · rename_i record hrec
    cases h
    exact ⟨record, hrec, rfl⟩

theorem refresh_of_record {record : PeerRecord} (h : s.peers.lookup k = some record) :
    (step settings s (.refresh k)).2 = .asks s.nextId record.qkdId := by
  simp only [step, h]
  rfl

/-- A start for which there is a record, old or new, installs its key. -/
theorem start_installs (hs : Sane settings s) {c : Nat} {q keyId : String} {key : Bytes}
    {env : Env} {record : PeerRecord} {new : Bool} {peers : PeerTable}
    (hc : s.calls.lookup c = some (.start k q))
    (hrec : recordFor settings s.peers k q = some (record, new, peers))
    (hwg : env.setPeer = .ok ()) :
    let m := moment (step settings) s (.answer c (.ok (keyId, key)) env)
    m.post.peers.lookup k = some (record.installed settings env keyId) ∧
      (∀ last publicKey, env.publicKey = .ok publicKey → laterNode k last m = some q) ∧
      ∀ last e, env.publicKey = .error e → laterNode k last m = last := by
  have heff := step_effect settings hs.wf (.answer c (.ok (keyId, key)) env)
  simp only [moment]
  generalize (step settings s (.answer c (.ok (keyId, key)) env)).1 = s' at heff ⊢
  generalize (step settings s (.answer c (.ok (keyId, key)) env)).2 = out at heff ⊢
  cases heff with
  | idle hidle _ =>
    rw [Act.Idle, hc] at hidle
    cases hidle
  | refused hc' hfail _ =>
    cases hc.symm.trans hc'
    rcases hfail with ⟨_, ⟨⟩⟩ | hnone | ⟨e, he⟩
    · rw [recordFor_none.mpr hnone] at hrec
      cases hrec
    · cases hwg.symm.trans he
  | announced hc' => cases hc.symm.trans hc'
  | installed hc' hrec' _ hr =>
    cases hc.symm.trans hc'
    cases hrec.symm.trans hrec'
    refine ⟨installed_lookup _ _ _ _, fun last publicKey hpub => ?_, fun last e hpub => ?_⟩
    · rw [laterNode_answer last hc, if_pos (hr.mpr ⟨publicKey, hpub⟩)]
    · rw [laterNode_answer last hc, if_neg]
      rw [hr, hpub]
      rintro ⟨_, ⟨⟩⟩

/-- A refresh that arrives now asks for a key of the node that its peer
was last started from. -/
def AsksRight (settings : VpnSettings) (past : List (Moment Server Act Output)) (s : Server) :
    Prop :=
  ∀ k c q, (step settings s (.refresh k)).2 = .asks c q → lastNode past k = some q

theorem AsksRight.record (h : AsksRight settings past s) {record : PeerRecord}
    (hrec : s.peers.lookup k = some record) : lastNode past k = some record.qkdId :=
  h k _ _ (refresh_of_record hrec)

/-- **A mismatch is asked for**: the refresh after it goes astray. -/
theorem Mismatches.astray (hs : Sane settings s) (h : Unstarted past s) {a : Act}
    (ha : Mismatches settings s a) :
    ¬ AsksRight settings (past ++ [moment (step settings) s a]) (step settings s a).1 := by
  intro hright
  obtain ⟨c, keyId, key, env, k, q, rfl, hc, hwg, hwhy⟩ := ha
  rcases hwhy with ⟨record, publicKey, hfound, hne, hpub⟩ | ⟨clientIp, e, hnew, hip, hpub⟩
  · have hrec : recordFor settings s.peers k q = some (record, false, s.peers) := by
      simp only [recordFor, hfound]
    obtain ⟨hpost, hlater, _⟩ := start_installs hs hc hrec hwg
    have hnode := hright.record hpost
    rw [lastNode_append, hlater _ publicKey hpub] at hnode
    exact hne (Option.some.inj hnode).symm
  · have hrec : recordFor settings s.peers k q =
        some ({ clientIp, qkdId := q }, true, s.peers.assign k { clientIp, qkdId := q }) := by
      simp only [recordFor, AList.lookup_eq_none.mpr hnew, hip, Option.map_some]
    obtain ⟨hpost, _, hlater⟩ := start_installs hs hc hrec hwg
    have hnode := hright.record hpost
    rw [lastNode_append, hlater _ e hpub, h k hnew] at hnode
    cases hnode

theorem Matched.asksRight (h : Matched past s) : AsksRight settings past s := by
  intro k c q hasks
  obtain ⟨record, hrec, rfl⟩ := refresh_asks hasks
  rw [h k, hrec]
  rfl

/-! ## Any run -/

theorem unstarted_run (settings : VpnSettings) (wg : String → Option WgPeer) (acts : List Act) :
    Unstarted (trace (step settings) (boot none wg) acts)
      (exec (step settings) (boot none wg) acts) := by
  refine (trace_invariant (fun past s => Sane settings s ∧ Unstarted past s) (fun _ => True)
    ⟨sane_run settings wg [], fun _ _ => rfl⟩ ?_ (fun _ _ => trivial)).2
  rintro past s a ⟨hs, h⟩ _
  exact ⟨hs.step a, unstarted_step hs h a⟩

theorem matched_run {wg : String → Option WgPeer} {acts : List Act}
    (hacts : ∀ m ∈ trace (step settings) (boot none wg) acts, ¬ Mismatches settings m.pre m.act) :
    Matched (trace (step settings) (boot none wg) acts)
      (exec (step settings) (boot none wg) acts) := by
  refine (trace_invariant (fun past s => Sane settings s ∧ Matched past s) _
    ⟨sane_run settings wg [], fun _ => rfl⟩ ?_ hacts).2
  rintro past s a ⟨hs, h⟩ ha
  exact ⟨hs.step a, matched_step hs h ha⟩

end

/-- **A refresh draws from the node of its client**: at every point of a
run from a server without a peers file every refresh that arrives asks
for the node that the last successful start of its peer named, if and
only if no section of the run mismatches. -/
theorem refresh_node_iff (settings : VpnSettings) (wg : String → Option WgPeer)
    (acts : List Act) :
    (∀ before after, acts = before ++ after → ∀ k c q,
      (step settings (exec (step settings) (boot none wg) before) (.refresh k)).2 = .asks c q →
        lastNode (trace (step settings) (boot none wg) before) k = some q) ↔
      ∀ m ∈ trace (step settings) (boot none wg) acts, ¬ Mismatches settings m.pre m.act := by
  constructor
  · intro hright m hm hmis
    obtain ⟨before, after, rfl, heq⟩ := mem_trace hm
    rw [heq] at hmis
    have hastray := Mismatches.astray (sane_run settings wg before)
      (unstarted_run settings wg before) hmis
    refine hastray fun k c q hasks => ?_
    have := hright (before ++ [m.act]) after (by simp) k c q (by rw [exec_append]; exact hasks)
    rwa [trace_append] at this
  · rintro hacts before after rfl
    refine (matched_run fun m hm => hacts m ?_).asksRight
    rw [trace_append]
    exact List.mem_append_left _ hm

/-- **A client that moves is served by its old node**: it starts from
`QKD2`, then from `QKD3`, and its refresh asks for a key of `QKD2`. -/
theorem refresh_node_stale :
    ¬ ∀ (acts : List Act) (k : String) (c : Nat) (q : String),
      (step demo (exec (step demo) (boot none fun _ => none) acts) (.refresh k)).2 = .asks c q →
        lastNode (trace (step demo) (boot none fun _ => none) acts) k = some q := by
  intro h
  have hstale := h [.start clientPub "QKD2", .answer 0 (.ok ("k1", sample 1)) calm,
    .start clientPub "QKD3", .answer 2 (.ok ("k2", sample 2)) calm] clientPub 4 "QKD2" rfl
  exact absurd hstale (by decide)

end QkdEkm.Vpn
