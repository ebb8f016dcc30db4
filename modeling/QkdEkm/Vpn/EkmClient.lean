import QkdEkm.Ekm.Routes
import QkdEkm.Vpn.Requests

/-!
# EkmClient — the path of a peer's name

`EkmClient.new` quotes the peer's name into one segment, so that it never
is "a way to reach a different EKM endpoint". The server decodes the path
before it looks for a route, and what was one segment may be several, or
may be the fixed segment of another route.
-/

namespace QkdEkm.Vpn

open QkdEkm.Ekm (Method Endpoint routes newPath)
open QkdEkm.Lib QkdEkm.Lib.Percent

/-- The request of `EkmClient.new`. -/
structure EkmRequest where
  method : Method
  path : List Char
  params : List (String × String)

/-- `EkmClient.new`, up to the answer. A text that is not Unicode has no
UTF-8, and `quote` raises before anything is sent. -/
def ekmRequest (peer : String) (purpose : String := "vpn") : EkmRequest where
  method := .get
  path := "/api/".toList ++ quote peer.toList ++ "/new".toList
  params := [("purpose", purpose)]

/-- `.` and `..` removed from a list of segments. -/
def dropDots (segments : List (List Char)) : List (List Char) :=
  segments.foldl
    (fun out s => if s = ['.'] then out else if s = ['.', '.'] then out.dropLast else out ++ [s]) []

/-- The HTTP client, over a base URL without a path: the path that it
sends, or `none` where it raises. -/
structure HttpClient where
  wire : List Char → Option (List Char)
  wire_quoted : ∀ (segments : List (List Char)) sent, dropDots (segments.map quote) ≠ [] →
    wire (path (segments.map quote)) = some sent → sent = path (dropDots (segments.map quote))

/-- A client that sends every path, without its dots. -/
def HttpClient.normalizing : HttpClient where
  wire p := some (path (dropDots (p.splitOn '/').tail))
  wire_quoted := by
    intro segments sent _ h
    have hslash : ∀ s ∈ segments.map quote, '/' ∉ s := by
      intro s hs
      obtain ⟨t, _, rfl⟩ := List.mem_map.mp hs
      exact slash_notMem_quote t
    rw [splitOn_path hslash] at h
    exact (Option.some.inj h).symm

/-- The name is a fixed segment of the keys, or begins with one. -/
def Redirects (peer : String) : Prop :=
  peer = "keys" ∨ ∃ r : String, peer = "keys/" ++ r ∧ '\n' ∉ r.toList

/-- The path on which the EKM looks for a route. -/
def received (peer : String) : List Char :=
  if peer = "." then path ["api".toList, "new".toList]
  else if peer = ".." then path ["new".toList]
  else newPath peer.toList

section

variable {client : HttpClient} {peer purpose : String}

theorem quote_api : quote "api".toList = "api".toList := by decide +kernel

theorem quote_new : quote "new".toList = "new".toList := by decide +kernel

theorem ekmRequest_path : (ekmRequest peer purpose).path =
    path (["api".toList, peer.toList, "new".toList].map quote) := by
  simp only [List.map_cons, List.map_nil, quote_api, quote_new, ekmRequest, path, List.flatMap_cons,
    List.flatMap_nil, List.append_nil]
  rfl

theorem dropDots_segments (p : List Char) :
    dropDots ["api".toList, p, "new".toList] =
      if p = ".".toList then ["api".toList, "new".toList]
      else if p = "..".toList then ["new".toList]
      else ["api".toList, p, "new".toList] := by
  have hapi : "api".toList ≠ ['.'] ∧ "api".toList ≠ ['.', '.'] := by decide
  have hnew : "new".toList ≠ ['.'] ∧ "new".toList ≠ ['.', '.'] := by decide
  have hdot : ".".toList = ['.'] ∧ "..".toList = ['.', '.'] := ⟨rfl, rfl⟩
  simp only [dropDots, List.foldl_cons, List.foldl_nil, if_neg hapi.1, if_neg hapi.2,
    if_neg hnew.1, if_neg hnew.2, List.nil_append, hdot.1, hdot.2]
  by_cases h1 : p = ['.']
  · rw [if_pos h1, if_pos h1]
    rfl
  · by_cases h2 : p = ['.', '.']
    · rw [if_neg h1, if_neg h1, if_pos h2, if_pos h2]
      rfl
    · rw [if_neg h1, if_neg h1, if_neg h2, if_neg h2]
      rfl

theorem quote_toList_eq {t : String} (ht : quote t.toList = t.toList) :
    quote peer.toList = t.toList ↔ peer = t := by
  rw [quote_eq_iff ht, String.toList_inj]

/-- The segments that are left of the dots. -/
theorem dropDots_request :
    dropDots (["api".toList, peer.toList, "new".toList].map quote) =
      (if peer = "." then ["api".toList, "new".toList]
        else if peer = ".." then ["new".toList]
        else ["api".toList, peer.toList, "new".toList]).map quote := by
  rw [List.map_cons, List.map_cons, List.map_cons, List.map_nil, quote_api, quote_new,
    dropDots_segments]
  simp only [quote_toList_eq (t := ".") (by decide +kernel),
    quote_toList_eq (t := "..") (by decide +kernel)]
  split
  · rw [List.map_cons, List.map_cons, List.map_nil, quote_api, quote_new]
  · split
    · rw [List.map_cons, List.map_nil, quote_new]
    · rw [List.map_cons, List.map_cons, List.map_cons, List.map_nil, quote_api, quote_new]

/-- The name comes through as it was, but for the dots. -/
theorem unquote_sent {sent : List Char}
    (h : client.wire (ekmRequest peer purpose).path = some sent) :
    unquote sent = some (received peer) := by
  rw [ekmRequest_path] at h
  rw [client.wire_quoted _ _ ?_ h, dropDots_request, unquote_path]
  · unfold received
    split
    · rfl
    · split <;> rfl
  · rw [dropDots_request]
    split
    · exact List.cons_ne_nil _ _
    · split <;> exact List.cons_ne_nil _ _

/-! ## Routing -/

theorem received_of_ne (h : peer ≠ "." ∧ peer ≠ "..") : received peer = newPath peer.toList := by
  rw [received, if_neg h.1, if_neg h.2]

/-- The names that begin a path of the keys. -/
theorem redirects_iff : Redirects peer ↔
    ∃ x, newPath peer.toList = "/api/keys/".toList ++ x ∧ '\n' ∉ x := by
  constructor
  · rintro (rfl | ⟨r, rfl, hr⟩)
    · exact ⟨"new".toList, rfl, by decide⟩
    · refine ⟨r.toList ++ "/new".toList, Ekm.newPath_keys.mpr (.inr ⟨r.toList, ?_, rfl⟩), ?_⟩
      · exact String.toList_append
      · intro h
        rcases List.mem_append.mp h with h | h
        · exact hr h
        · exact absurd h (by decide)
  · rintro ⟨x, hx, hline⟩
    rcases Ekm.newPath_keys.mp hx with ⟨hp, _⟩ | ⟨r, hp, rfl⟩
    · exact .inl (String.toList_inj.mp hp)
    · refine .inr ⟨String.ofList r, String.toList_inj.mp ?_, ?_⟩
      · rw [String.toList_append, hp]
        exact congrArg ("keys/".toList ++ ·) String.toList_ofList.symm
      · rw [String.toList_ofList]
        exact fun h => hline (List.mem_append_left _ h)

theorem Redirects.ne_dots (h : Redirects peer) : peer ≠ "." ∧ peer ≠ ".." := by
  constructor
  all_goals
    rintro rfl
    rcases h with h | ⟨r, h, _⟩
    · exact absurd h (by decide)
    · have := congrArg String.toList h
      rw [String.toList_append] at this
      cases this

theorem Redirects.dispatch (h : Redirects peer) :
    ∃ x, Lib.dispatch routes .get (received peer) = .handled .describeKey x := by
  obtain ⟨x, hx, hline⟩ := redirects_iff.mp h
  rw [received_of_ne h.ne_dots]
  exact ⟨x, Ekm.dispatch_keys hx hline⟩

/-- Any other name is a peer's, or there is no route. -/
theorem dispatch_received (h : ¬ Redirects peer) :
    Lib.dispatch routes .get (received peer) =
      if peer ≠ "" ∧ '/' ∉ peer.toList ∧ peer ≠ "." ∧ peer ≠ ".." then
        .handled .newKey peer.toList
      else .notFound := by
  unfold received
  split
  · rename_i hdot
    subst hdot
    decide
  · rename_i h1
    split
    · rename_i hdots
      subst hdots
      decide
    · rename_i h2
      rw [Ekm.dispatch_new fun x hx => ?_]
      · simp [h1, h2]
      · by_contra hline
        exact h (redirects_iff.mpr ⟨x, hx, hline⟩)

/-- A name that the VPN accepts holds no slash and no dot. -/
theorem qkdId_plain (h : qkdId peer = .ok peer) :
    peer ≠ "" ∧ '/' ∉ peer.toList ∧ peer ≠ "." ∧ peer ≠ ".." := by
  unfold qkdId at h
  split at h
  · rename_i hid
    obtain ⟨hlen, _, hall⟩ := hid
    have hchar : ∀ c ∈ peer.toList, isIdChar c = true := List.all_eq_true.mp hall
    refine ⟨?_, fun hslash => absurd (hchar _ hslash) (by decide), ?_, ?_⟩
    · rintro rfl
      exact absurd hlen (by decide)
    · rintro rfl
      exact absurd (hchar '.' (by decide)) (by decide)
    · rintro rfl
      exact absurd (hchar '.' (by decide)) (by decide)
  · cases h

/-- Of the names that the VPN accepts only one goes astray. -/
theorem qkdId_redirects (h : qkdId peer = .ok peer) : Redirects peer ↔ peer = "keys" := by
  constructor
  · rintro (rfl | ⟨r, rfl, _⟩)
    · rfl
    · have hslash := (qkdId_plain h).2.1
      rw [String.toList_append] at hslash
      exact absurd (List.mem_append_left _ (by decide)) hslash
  · exact .inl

end

/-- **Where a peer's name leads.** The request of `EkmClient.new` is
routed to `new_key` with the name itself, or to no route, if and only if
the name is not `keys` and does not lead into `keys/` on one line, or
nothing is sent. A name that does is described as a key. Of the names
that the VPN accepts `keys` is one, and all others reach `new_key`. -/
theorem peer_stays_iff (client : HttpClient) (peer purpose : String) :
    let request := ekmRequest peer purpose
    ((∀ sent, client.wire request.path = some sent → ∃ p, unquote sent = some p ∧
        (dispatch routes request.method p = .handled .newKey peer.toList ∨
          dispatch routes request.method p = .notFound)) ↔
      ¬ (Redirects peer ∧ ∃ sent, client.wire request.path = some sent)) ∧
    (Redirects peer → ∀ sent, client.wire request.path = some sent → ∃ p x,
      unquote sent = some p ∧ dispatch routes request.method p = .handled .describeKey x) ∧
    (qkdId peer = .ok peer → (Redirects peer ↔ peer = "keys") ∧
      (peer ≠ "keys" → ∀ sent, client.wire request.path = some sent → ∃ p,
        unquote sent = some p ∧
          dispatch routes request.method p = .handled .newKey peer.toList)) := by
  intro request
  refine ⟨⟨?_, ?_⟩, ?_, ?_⟩
  · rintro hall ⟨hredirects, sent, hsent⟩
    obtain ⟨p, hp, hroute⟩ := hall sent hsent
    obtain ⟨x, hx⟩ := hredirects.dispatch
    cases hp.symm.trans (unquote_sent hsent)
    rcases hroute with h | h
    · cases hx.symm.trans h
    · cases hx.symm.trans h
  · intro hstays sent hsent
    have h : ¬ Redirects peer := fun h => hstays ⟨h, sent, hsent⟩
    refine ⟨received peer, unquote_sent hsent, ?_⟩
    have hroute := dispatch_received h
    split at hroute
    · exact .inl hroute
    · exact .inr hroute
  · intro h sent hsent
    obtain ⟨x, hx⟩ := h.dispatch
    exact ⟨received peer, x, unquote_sent hsent, hx⟩
  · intro hid
    refine ⟨qkdId_redirects hid, fun hne sent hsent => ⟨received peer, unquote_sent hsent, ?_⟩⟩
    have h : ¬ Redirects peer := fun h => hne ((qkdId_redirects hid).mp h)
    exact (dispatch_received h).trans (if_pos (qkdId_plain hid))

/-- **A peer named `keys`**: the VPN accepts the name, and the request for
a new key reaches `describe_key`. -/
theorem peer_stays_keys :
    qkdId "keys" = .ok "keys" ∧
    ¬ ∀ (client : HttpClient) (peer : String) (sent : List Char),
      client.wire (ekmRequest peer).path = some sent → ∃ p, unquote sent = some p ∧
        (dispatch routes .get p = .handled .newKey peer.toList ∨
          dispatch routes .get p = .notFound) := by
  refine ⟨by decide, fun h => ?_⟩
  have hsent : HttpClient.normalizing.wire (ekmRequest "keys").path =
      some "/api/keys/new".toList := by decide +kernel
  obtain ⟨p, hp, hroute⟩ := h .normalizing "keys" _ hsent
  cases hp.symm.trans (unquote_sent hsent)
  revert hroute
  decide

end QkdEkm.Vpn
