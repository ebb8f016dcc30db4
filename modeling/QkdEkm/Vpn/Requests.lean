import QkdEkm.Lib.Base64
import QkdEkm.Vpn.Sections

/-!
# Requests — what the API takes for a public key

`_wireguard_key` checks the length of the text, decodes it and checks the
length of the bytes. 44 characters for 32 bytes leave two bits of the last
digit unused, and nothing checks these: four texts stand for each key, one
of them its encoding. The peer table is keyed by the text.
-/

namespace QkdEkm.Vpn

open QkdEkm.Common QkdEkm.Lib

/-! ## The validators -/

/-- `_wireguard_key`, with the text of its `ValueError`. -/
def wireguardKey (value : String) : Except String String :=
  if value.length ≠ 44 then .error "public_key must be 44 base64 characters"
  else
    match b64d value with
    | none => .error "public_key must be base64"
    | some raw =>
      if raw.length ≠ 32 then .error "public_key must decode to 32 bytes"
      else .ok value

/-- A character of `[A-Za-z0-9_-]`. -/
def isIdChar (c : Char) : Bool := c.isAlphanum || c == '_' || c == '-'

/-- `QkdId`: the pattern `^[A-Za-z0-9_-]{1,32}$`. -/
def qkdId (value : String) : Except String String :=
  if 1 ≤ value.length ∧ value.length ≤ 32 ∧ value.toList.all isIdChar then .ok value
  else .error "String should match pattern '^[A-Za-z0-9_-]\x7b1,32\x7d$'"

/-- The first error of a body, as `field: message`. -/
def invalid (field message : String) : Response := httpError 400 s!"{field}: {message}"

/-- A section before which the body of a request is validated. -/
def receive (settings : VpnSettings) (s : Server) : Act → Server × Output
  | .start pubkey q =>
    match wireguardKey pubkey, qkdId q with
    | .error message, _ =>
      (s, .answers (invalid "public_key" ("Value error, " ++ message)))
    | .ok _, .error message => (s, .answers (invalid "qkd_id" message))
    | .ok pubkey, .ok q => step settings s (.start pubkey q)
  | .refresh pubkey =>
    match wireguardKey pubkey with
    | .error message =>
      (s, .answers (invalid "public_key" ("Value error, " ++ message)))
    | .ok pubkey => step settings s (.refresh pubkey)
  | a => step settings s a

/-- The text is taken for a public key. -/
def IsKey (value : String) : Prop := wireguardKey value = .ok value

instance (value : String) : Decidable (IsKey value) :=
  inferInstanceAs (Decidable (wireguardKey value = .ok value))

/-- 43 digits and a pad, with an unused bit of the last digit set. -/
def Slack (value : String) : Prop :=
  ∃ ds c i, value.toList = ds ++ [c, '='] ∧ ds.length = 42 ∧ (∀ d ∈ ds, d ∈ Base64.alphabet) ∧
    Base64.value? c = some i ∧ i % 4 ≠ 0

/-! ## One text -/

theorem wireguardKey_ok {value value' : String} (h : wireguardKey value = .ok value') :
    value' = value := by
  unfold wireguardKey at h
  split at h
  · cases h
  · split at h
    · cases h
    · split at h
      · cases h
      · cases h
        rfl

theorem isKey_iff {value : String} :
    IsKey value ↔ value.length = 44 ∧ ∃ raw, b64d value = some raw ∧ raw.length = 32 := by
  unfold IsKey wireguardKey
  by_cases hlen : value.length = 44
  · cases hraw : b64d value with
    | none => simp [hlen]
    | some raw =>
      by_cases h : raw.length = 32
      · simp [hlen, h]
      · simp [hlen, h]
  · simp [hlen]

/-- The three checks cut out eleven groups with one pad. -/
theorem isKey_spelled {value : String} : IsKey value ↔ Base64.Spelled 11 1 value.toList := by
  rw [isKey_iff, ← String.length_toList]
  constructor
  · rintro ⟨hlen, raw, hraw, hbytes⟩
    obtain ⟨k, pad, hspelled, hpad⟩ := Base64.decodeChars_spelled hraw
    obtain ⟨_, ds, heq, hds, _⟩ := id hspelled
    have hk : value.toList.length = 4 * k := by
      rw [heq, List.length_append, List.length_replicate, hds]
    obtain ⟨rfl, rfl⟩ : k = 11 ∧ pad = 1 := by omega
    exact hspelled
  · intro h
    obtain ⟨raw, hraw, hbytes⟩ := h.decodes
    obtain ⟨_, ds, heq, hds, _⟩ := h
    refine ⟨?_, raw, hraw, by omega⟩
    rw [heq, List.length_append, List.length_replicate, hds]

theorem slack_iff {value : String} :
    Slack value ↔ IsKey value ∧ ¬ Base64.Tight value.toList := by
  rw [isKey_spelled]
  constructor
  · rintro ⟨ds, c, i, heq, hlen, hds, hc, hi⟩
    have hmem : c ∈ Base64.alphabet := Base64.value?_isSome.mp ⟨i, hc⟩
    refine ⟨⟨by omega, ds ++ [c], by simp [heq], by simp [hlen], ?_⟩, ?_⟩
    · intro d hd
      rcases List.mem_append.mp hd with hd | hd
      · exact hds d hd
      · exact List.mem_singleton.mp hd ▸ hmem
    · rw [heq, Base64.tight_append (k := 10) hlen hds hmem]
      exact fun h => hi (h i hc)
  · rintro ⟨⟨_, ds, heq, hlen, hds⟩, htight⟩
    rcases List.eq_nil_or_concat ds with rfl | ⟨ds, c, rfl⟩
    · cases hlen
    · simp only [List.concat_eq_append, List.append_assoc, List.length_append, List.length_cons,
        List.length_nil] at heq hlen hds
      have hmem : c ∈ Base64.alphabet := hds c (by simp)
      have hall : ∀ d ∈ ds, d ∈ Base64.alphabet := fun d hd => hds d (by simp [hd])
      have heq' : value.toList = ds ++ [c, '='] := heq
      rw [heq', Base64.tight_append (k := 10) (by omega) hall hmem] at htight
      obtain ⟨i, htight⟩ := not_forall.mp htight
      obtain ⟨hc, hi⟩ := Classical.not_imp.mp htight
      exact ⟨ds, c, i, heq', by omega, hall, hc, hi⟩

theorem encoding_iff {value : String} :
    (∃ raw : Bytes, raw.length = 32 ∧ value = b64e raw) ↔
      IsKey value ∧ Base64.Tight value.toList := by
  constructor
  · rintro ⟨raw, hraw, rfl⟩
    have hdecode : Base64.decodeChars (b64e raw).toList = some raw := b64d_b64e raw
    have htight : Base64.Tight (b64e raw).toList := by
      rw [← Base64.encodeChars_decodeChars hdecode]
      simp [b64e, Base64.encode]
    refine ⟨?_, htight⟩
    rw [isKey_iff, ← String.length_toList]
    obtain ⟨k, pad, ⟨_, ds, heq, hds, _⟩, hpad⟩ := Base64.decodeChars_spelled hdecode
    refine ⟨?_, raw, hdecode, hraw⟩
    rw [heq, List.length_append, List.length_replicate, hds]
    omega
  · rintro ⟨hkey, htight⟩
    obtain ⟨_, raw, hraw, hbytes⟩ := isKey_iff.mp hkey
    refine ⟨raw, hbytes, ?_⟩
    rw [b64e, Base64.encode, (Base64.encodeChars_decodeChars hraw).mpr htight,
      String.ofList_toList]

/-- A key that is not slack is the only such text of its bytes, and a
slack one is not. -/
theorem slack_twin {value : String} (hkey : IsKey value) :
    (∀ value', IsKey value' → ¬ Slack value' → b64d value' = b64d value → value' = value) ↔
      ¬ Slack value := by
  have htight : ∀ {v}, IsKey v → ¬ Slack v → Base64.Tight v.toList := by
    intro v hv hns
    by_contra hnt
    exact hns (slack_iff.mpr ⟨hv, hnt⟩)
  obtain ⟨_, raw, hraw, hbytes⟩ := isKey_iff.mp hkey
  constructor
  · intro hall hslack
    -- the encoding of the bytes is another text
    obtain ⟨hkey', htight'⟩ := encoding_iff.mp ⟨raw, hbytes, rfl⟩
    have heq := hall (b64e raw) hkey' (fun h => (slack_iff.mp h).2 htight')
      ((b64d_b64e raw).trans hraw.symm)
    exact (slack_iff.mp hslack).2 (heq ▸ htight')
  · intro hns value' hkey' hns' hsame
    exact String.toList_inj.mp
      ((htight hkey' hns').inj (htight hkey hns) (hsame.trans hraw) hraw)

/-! ## Any run -/

/-- The body of the request is valid. -/
def Act.Valid : Act → Prop
  | .start pubkey q => IsKey pubkey ∧ qkdId q = .ok q
  | .refresh pubkey => IsKey pubkey
  | _ => True

instance : DecidablePred Act.Valid := fun a =>
  match a with
  | .start _ _ => inferInstanceAs (Decidable (_ ∧ _))
  | .refresh pubkey => inferInstanceAs (Decidable (IsKey pubkey))
  | .answer _ _ _ | .fire _ _ | .status | .restart => isTrue trivial

theorem qkdId_ok {value value' : String} (h : qkdId value = .ok value') : value' = value := by
  unfold qkdId at h
  split at h
  · cases h
    rfl
  · cases h

section

variable {settings : VpnSettings} {s : Server}

theorem receive_valid {a : Act} (ha : a.Valid) : receive settings s a = step settings s a := by
  cases a with
  | start pubkey q =>
    have hkey : wireguardKey pubkey = .ok pubkey := ha.1
    simp only [receive, hkey, ha.2]
  | refresh pubkey =>
    have hkey : wireguardKey pubkey = .ok pubkey := ha
    simp only [receive, hkey]
  | answer _ _ _ | fire _ _ | status | restart => rfl

/-- A request that is not valid leaves the server alone. -/
theorem receive_invalid {a : Act} (ha : ¬ a.Valid) : (receive settings s a).1 = s := by
  cases a with
  | start pubkey q =>
    simp only [receive]
    split
    · rfl
    · rfl
    · rename_i hkey hq
      rw [wireguardKey_ok hkey] at hkey
      rw [qkdId_ok hq] at hq
      exact absurd ⟨hkey, hq⟩ ha
  | refresh pubkey =>
    simp only [receive]
    split
    · rfl
    · rename_i hkey
      rw [wireguardKey_ok hkey] at hkey
      exact absurd hkey ha
  | answer _ _ _ | fire _ _ | status | restart => exact absurd trivial ha

/-- Every record and every start under way is of a key with `P`. -/
structure Keyed (P : String → Prop) (s : Server) : Prop where
  peers : ∀ k r, s.peers.lookup k = some r → P k
  calls : ∀ c k q, s.calls.lookup c = some (.start k q) → P k

variable {P : String → Prop}

theorem keyed_step (hs : Sane settings s) (h : Keyed P s) {a : Act}
    (ha : ∀ k q, a = .start k q → P k) : Keyed P (step settings s a).1 := by
  constructor
  · intro k r hr
    have hrec := hs.record a k
    rw [hr] at hrec
    generalize hsome : some r = found at hrec
    cases hrec with
    | kept => exact h.peers k r hsome.symm
    | flagged _ hrec | activated _ hrec _ => exact h.peers k _ hrec
    | started hc _ _ => exact h.calls _ k _ hc
  · intro c k q hc
    cases a with
    | start k' q' =>
      simp only [step, arrive, Server.suspend, Dict.lookup_insert] at hc
      split at hc
      · cases hc
        exact ha k q rfl
      · exact h.calls c k q hc
    | refresh k' =>
      simp only [step] at hc
      split at hc
      · exact h.calls c k q hc
      · simp only [arrive, Server.suspend, Dict.lookup_insert] at hc
        split at hc
        · cases hc
        · exact h.calls c k q hc
    | answer c' answer env =>
      rw [calls_answer] at hc
      split at hc
      · cases hc
      · exact h.calls c k q hc
    | fire t env =>
      rw [calls_fire] at hc
      exact h.calls c k q hc
    | status => exact h.calls c k q hc
    | restart => cases hc

theorem keyed_run {wg : String → Option WgPeer} {acts : List Act}
    (hacts : ∀ k q, .start k q ∈ acts → P k) :
    Keyed P (exec (step settings) (boot none wg) acts) := by
  have hboot : Keyed P (boot none wg) := ⟨by rintro _ _ ⟨⟩, by rintro _ _ _ ⟨⟩⟩
  refine (trace_invariant (fun _ s => Sane settings s ∧ Keyed P s)
    (fun m => ∀ k q, m.act = .start k q → P k) ⟨sane_run settings wg [], hboot⟩ ?_ ?_).2
  · rintro _ s a ⟨hs, h⟩ ha
    exact ⟨hs.step a, keyed_step hs h ha⟩
  · intro m hm k q hact
    obtain ⟨before, after, rfl, _⟩ := mem_trace hm
    exact hacts k q (hact ▸ List.mem_append_right _ (List.mem_cons_self ..))

end

/-- **One text for each key, unless it is slack.** `_wireguard_key`
accepts exactly the encodings of 32 bytes as far as the text is not
slack; a text that it accepts is told apart by its bytes from all that
are not slack if and only if it is not slack itself; and in every run
whose starts bring no slack text no two records are of one key. -/
theorem one_text_per_key_iff (settings : VpnSettings) (wg : String → Option WgPeer) :
    (∀ value, (IsKey value ↔ ∃ raw : Bytes, raw.length = 32 ∧ value = b64e raw) ↔
      ¬ Slack value) ∧
    (∀ value, IsKey value →
      ((∀ value', IsKey value' → ¬ Slack value' → b64d value' = b64d value → value' = value) ↔
        ¬ Slack value)) ∧
    ∀ acts : List Act, (∀ k q, .start k q ∈ acts → ¬ Slack k) → ∀ k k' r r',
      (exec (receive settings) (boot none wg) acts).peers.lookup k = some r →
      (exec (receive settings) (boot none wg) acts).peers.lookup k' = some r' →
      b64d k = b64d k' → k = k' := by
  refine ⟨fun value => ?_, fun value => slack_twin, ?_⟩
  · rw [encoding_iff, slack_iff]
    tauto
  · intro acts hacts k k' r r' hr hr' hsame
    rw [exec_filter (fun _ _ => receive_invalid) (fun _ _ => receive_valid)] at hr hr'
    have hkeyed : Keyed (fun k => IsKey k ∧ ¬ Slack k)
        (exec (step settings) (boot none wg) (acts.filter fun a => a.Valid)) := by
      refine keyed_run fun k q hmem => ?_
      obtain ⟨hmem, hvalid⟩ := List.mem_filter.mp hmem
      exact ⟨(of_decide_eq_true hvalid : Act.Valid (.start k q)).1, hacts k q hmem⟩
    obtain ⟨hkey, hns⟩ := hkeyed.peers k r hr
    obtain ⟨hkey', hns'⟩ := hkeyed.peers k' r' hr'
    exact (slack_twin hkey').mpr hns' k hkey hns hsame

/-- The key of 32 zero bytes, with a bit set that stands for none. -/
def slackPub : String := "AAAAAAAAAAAAAAAAAAAAAAAAAAAAAAAAAAAAAAAAAAB="

/-- **Two records for one key**: `clientPub` and `slackPub` are both
accepted, both decode to 32 zero bytes, and each gets its own address. -/
theorem one_text_per_key_twice :
    (¬ ∀ value, IsKey value ↔ ∃ raw : Bytes, raw.length = 32 ∧ value = b64e raw) ∧
    ¬ ∀ (acts : List Act) (k k' : String) (r r' : PeerRecord),
      (exec (receive demo) (boot none fun _ => none) acts).peers.lookup k = some r →
      (exec (receive demo) (boot none fun _ => none) acts).peers.lookup k' = some r' →
      b64d k = b64d k' → k = k' := by
  constructor
  · intro h
    obtain ⟨raw, _, heq⟩ := (h slackPub).mp (by decide +kernel)
    have hraw : b64d slackPub = some raw := heq ▸ b64d_b64e raw
    have hzero : b64d slackPub = some (sample 0) := by decide +kernel
    rw [Option.some.inj (hraw.symm.trans hzero)] at heq
    exact absurd heq (by decide +kernel)
  · intro h
    have hsame := h [.start clientPub "QKD2", .answer 0 (.ok ("k1", sample 1)) calm,
      .start slackPub "QKD2", .answer 2 (.ok ("k2", sample 2)) calm] clientPub slackPub
      _ _ rfl rfl (by decide +kernel)
    exact absurd hsame (by decide)

end QkdEkm.Vpn
