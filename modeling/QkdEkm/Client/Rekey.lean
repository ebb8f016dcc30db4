import QkdEkm.Client.Cli
import QkdEkm.Lib.Machine
import QkdEkm.Vpn.Calls

/-!
# Rekey — do the two ends agree?

One client and the server it talks to. The client has one request under
way at a time; the server has other clients, and each end has its own
timer for the switch. `Agrees` says for every stage of the running
command, and for every place its message can be, which key the server
is going to settle on. At rest that is the key on the interface.
-/

namespace QkdEkm.Client

open QkdEkm.Common QkdEkm.Lib QkdEkm.Vpn

/-! ## Client and server -/

/-- Where the client's request is. -/
inductive Flight
  | none
  | request (r : Request)
  | waiting (call : Nat)
  | response (r : Response)

/-- The client, the server, and what is between them. `used` are the
public keys of the key pairs that the client generated. -/
structure Link where
  server : Server
  cli : Cli := {}
  flight : Flight := .none
  used : List String := []

/-- What happens next: a wait of the client ends, the client's request
arrives, its response arrives, or the server takes a step of its own. -/
inductive LinkAct
  | client (i : Input)
  | arrive
  | deliver
  | server (a : Act)

/-- The server's section for a request of the client. -/
def Request.act : Request → Act
  | .startConnection qkdId publicKey => .start publicKey qkdId
  | .refreshConnection publicKey => .refresh publicKey

/-- What is under way after the server sent `out`. -/
def Flight.sent : Vpn.Output → Flight
  | .asks call _ => .waiting call
  | .answers r => .response r
  | .nothing => .none

def Link.client (myQkd : String) (l : Link) (i : Input) : Link :=
  let (cli, out) := l.cli.step myQkd i
  match out with
  | .post r =>
    let used :=
      match r with
      | .startConnection _ publicKey => publicKey :: l.used
      | .refreshConnection _ => l.used
    { l with cli, flight := .request r, used }
  | _ => { l with cli }

def Link.step (settings : VpnSettings) (myQkd : String) (l : Link) : LinkAct → Link × Unit
  | .client i => (l.client myQkd i, ())
  | .arrive =>
    match l.flight with
    | .request r =>
      let (server, out) := Vpn.step settings l.server r.act
      ({ l with server, flight := .sent out }, ())
    | _ => (l, ())
  | .deliver =>
    match l.flight with
    | .response r => ({ l with flight := .none }.client myQkd (.response r), ())
    | _ => (l, ())
  | .server a =>
    let (server, out) := Vpn.step settings l.server a
    match a, l.flight with
    | .answer c _ _, .waiting call =>
      ({ l with server, flight := if c = call then .sent out else l.flight }, ())
    | _, _ => ({ l with server }, ())

/-- A step in which nothing fails and nobody interferes: `mine` are the
client's public keys, and the quantum link gives both ends the same
`material` for a key id. -/
def LinkAct.Regular (material : String → Bytes) (mine : String → Prop) (l : Link) : LinkAct → Prop
  | .client (.connect _ pub) => mine pub ∧ pub ∉ l.used
  | .client (.key psk _) => ∀ keyId, l.cli.fetching = some keyId → psk = material keyId
  | .client (.response _) => False
  | .client _ | .arrive | .deliver => True
  | .server (.start pub _) | .server (.refresh pub) => ¬ mine pub
  | .server (.answer c answer env) => (Act.answer c answer env).Smooth ∧
    (l.flight = .waiting c → ∀ keyId key, answer = .ok (keyId, key) → key = material keyId)
  | .server a => a.Smooth

/-! ## Where the key stands -/

section

variable (material : String → Bytes) (mine : String → Prop)

/-- The server has, or is going to have, the key `keyId` for `pub`. -/
def Link.Settles (l : Link) (pub keyId : String) : Prop :=
  (l.server.slot pub).settled = some (keyId, material keyId)

/-- `pub` is a key that the client generated. -/
def Link.Owns (l : Link) (pub : String) : Prop := mine pub ∧ pub ∈ l.used

/-- The interface has the key `keyId` for the server. -/
def Cli.Holds (c : Cli) (serverPub keyId : String) : Prop :=
  ∃ iface, c.iface = some iface ∧ iface.psk serverPub = some (material keyId)

/-- The two ends have the key that the session names. -/
def Link.SessionOk (l : Link) : Prop :=
  ∀ session, l.cli.session = some session → l.Owns mine session.publicKey ∧
    l.Settles material session.publicKey session.presharedKeyId ∧
    l.cli.Holds material session.serverPublicKey session.presharedKeyId

/-- Where the request of a `connect` can be. -/
def Link.ConnectOk (l : Link) (pub : String) : Flight → Prop
  | .none => False
  | .request r => (∃ q, r = .startConnection q pub) ∧ (l.server.slot pub).pending = none
  | .waiting call =>
    (∃ q, l.server.calls.lookup call = some (.start pub q)) ∧ (l.server.slot pub).pending = none
  | .response r =>
    (∃ q publicKey endpoint keyId clientIp allowedIps t refreshS,
      r = ⟨200, .connected q publicKey endpoint keyId clientIp allowedIps t refreshS⟩ ∧
        l.Settles material pub keyId) ∨ r.status ≠ 200

/-- Where the request of a `refresh` can be. -/
def Link.RefreshOk (l : Link) (session : Session) : Flight → Prop
  | .none => False
  | .request r => r = .refreshConnection session.publicKey ∧
    l.Settles material session.publicKey session.presharedKeyId
  | .waiting call => (∃ q, l.server.calls.lookup call = some (.refresh session.publicKey q)) ∧
    l.Settles material session.publicKey session.presharedKeyId
  | .response r =>
    (∃ keyId t, r = ⟨200, .refreshing keyId t⟩ ∧ l.Settles material session.publicKey keyId) ∨
      (r.status ≠ 200 ∧ l.Settles material session.publicKey session.presharedKeyId)

/-- Which key each end has, by the stage of the running command. -/
def Link.StageOk (l : Link) : Prop :=
  match l.cli.stage with
  | .idle => l.flight = .none ∧ l.SessionOk material mine
  | .connecting _ pub => l.Owns mine pub ∧
    (∀ session, l.cli.session = some session → session.publicKey ≠ pub) ∧
    l.SessionOk material mine ∧ l.ConnectOk material pub l.flight
  | .connectFetching _ pub body => l.flight = .none ∧ l.Owns mine pub ∧
    l.Settles material pub body.presharedKeyId
  | .connectUp pub body => l.flight = .none ∧ l.Owns mine pub ∧
    l.Settles material pub body.presharedKeyId ∧
    ∃ conf, l.cli.conf = some conf ∧ conf.serverPub = body.serverPublicKey ∧
      conf.psk = material body.presharedKeyId
  | .connectSaving pub body => l.flight = .none ∧ l.Owns mine pub ∧
    l.Settles material pub body.presharedKeyId ∧
    l.cli.Holds material body.serverPublicKey body.presharedKeyId
  | .refreshing session => l.cli.session = some session ∧ l.Owns mine session.publicKey ∧
    l.cli.Holds material session.serverPublicKey session.presharedKeyId ∧
    l.RefreshOk material session l.flight
  | .refreshFetching session keyId _ => l.flight = .none ∧ l.Owns mine session.publicKey ∧
    l.Settles material session.publicKey keyId ∧ l.cli.iface.isSome
  | .refreshSleeping session keyId psk _ => l.flight = .none ∧ l.Owns mine session.publicKey ∧
    l.Settles material session.publicKey keyId ∧ l.cli.iface.isSome ∧ psk = material keyId
  | .refreshSaving session keyId => l.flight = .none ∧ l.Owns mine session.publicKey ∧
    l.Settles material session.publicKey keyId ∧
    l.cli.Holds material session.serverPublicKey keyId

/-- The invariant of client and server. Only the client's own handler is
about its keys, and nothing is pending for a key it has yet to generate. -/
structure Agrees (l : Link) : Prop where
  wf : Wf l.server
  calls : ∀ c call, l.server.calls.lookup c = some call → mine call.pubkey → l.flight = .waiting c
  unused : ∀ pub, mine pub → pub ∉ l.used → (l.server.slot pub).pending = none
  stage : l.StageOk material mine

end

section

variable {material : String → Bytes} {mine : String → Prop} {settings : VpnSettings}
  {myQkd : String} {l : Link}

/-- No handler is about a key of the client while no request is at the server. -/
theorem Agrees.quiet (h : Agrees material mine l) (hf : ∀ c, l.flight ≠ .waiting c) :
    ∀ c call, l.server.calls.lookup c = some call → ¬ mine call.pubkey :=
  fun c call hc hm => hf c (h.calls c call hc hm)

/-! ## Steps of the client -/

theorem holds_up {conf : Conf} {c : Cli} {keyId : String} (hc : c.iface = some conf.up)
    (hpsk : conf.psk = material keyId) : c.Holds material conf.serverPub keyId :=
  ⟨_, hc, by simp [Conf.up, hpsk]⟩

theorem holds_setPsk {iface : Interface} {c : Cli} {serverPub keyId : String} {psk : Bytes}
    (hc : c.iface = some (iface.setPsk serverPub psk)) (hpsk : psk = material keyId) :
    c.Holds material serverPub keyId :=
  ⟨_, hc, by simp [Interface.setPsk, hpsk]⟩

theorem client_nothing {i : Input} {c : Cli} (h : l.cli.step myQkd i = (c, .nothing)) :
    l.client myQkd i = { l with cli := c } := by
  simp [Link.client, h]

/-- What a new command leaves behind. -/
theorem agrees_command (h : Agrees material mine l) (hst : l.cli.stage = .idle) {i : Input}
    (hi : LinkAct.Regular material mine l (.client i)) :
    Agrees material mine (l.client myQkd i) := by
  have hstage := h.stage
  simp only [Link.StageOk, hst] at hstage
  obtain ⟨hflight, hsession⟩ := hstage
  have hquiet := h.quiet (by simp [hflight])
  cases i with
  | connect priv pub =>
    obtain ⟨hmine, hfresh⟩ := hi
    have heq : l.client myQkd (.connect priv pub) = { l with
        cli := { l.cli with stage := .connecting priv pub }
        flight := .request (.startConnection myQkd pub)
        used := pub :: l.used } := by
      simp [Link.client, Cli.step, Cli.command, hst]
    rw [heq]
    refine ⟨h.wf, fun c call hc hm => absurd hm (hquiet c call hc), ?_, ?_⟩
    · intro pub' hm hused
      exact h.unused pub' hm fun hin => hused (List.mem_cons_of_mem _ hin)
    · refine ⟨⟨hmine, List.mem_cons_self ..⟩, ?_, ?_, ⟨_, rfl⟩, h.unused pub hmine hfresh⟩
      · rintro session hs rfl
        exact hfresh (hsession session hs).1.2
      · intro session hs
        obtain ⟨⟨hm, hused⟩, hsettles, hholds⟩ := hsession session hs
        exact ⟨⟨hm, List.mem_cons_of_mem _ hused⟩, hsettles, hholds⟩
  | refresh =>
    cases hs : l.cli.session with
    | none =>
      rw [client_nothing (c := l.cli) (by simp [Cli.step, Cli.command, hst, hs])]
      exact h
    | some session =>
      have heq : l.client myQkd .refresh = { l with
          cli := { l.cli with stage := .refreshing session }
          flight := .request (.refreshConnection session.publicKey) } := by
        simp [Link.client, Cli.step, Cli.command, hst, hs]
      rw [heq]
      obtain ⟨howns, hsettles, hholds⟩ := hsession session hs
      exact ⟨h.wf, fun c call hc hm => absurd hm (hquiet c call hc), h.unused, hs, howns, hholds,
        rfl, hsettles⟩
  | disconnect =>
    rw [client_nothing (c := { l.cli with session := none, conf := none, iface := none })
      (by simp [Cli.step, Cli.command, hst])]
    refine ⟨h.wf, h.calls, h.unused, ?_⟩
    simp only [Link.StageOk, hst]
    exact ⟨hflight, by rintro session ⟨⟩⟩
  | response r => cases hi
  | key psk clock | proceed =>
    rw [client_nothing (c := l.cli) (by simp [Cli.step, Cli.command, hst])]
    exact h

/-- A step that sends nothing leaves the server as it is. -/
theorem Agrees.quietStep (h : Agrees material mine l) {i : Input} {c : Cli}
    (heq : l.cli.step myQkd i = (c, .nothing))
    (hstage : { l with cli := c }.StageOk material mine) : Agrees material mine (l.client myQkd i) := by
  rw [client_nothing heq]
  exact ⟨h.wf, h.calls, h.unused, hstage⟩

/-- What a wait of the running command leaves behind. -/
theorem agrees_client (h : Agrees material mine l) {i : Input}
    (hi : LinkAct.Regular material mine l (.client i)) :
    Agrees material mine (l.client myQkd i) := by
  have hsame : l.cli.step myQkd i = (l.cli, .nothing) →
      Agrees material mine (l.client myQkd i) := by
    intro heq
    rw [client_nothing heq]
    exact h
  have hstage := h.stage
  unfold Link.StageOk at hstage
  cases hst : l.cli.stage with
  | idle => exact agrees_command h hst hi
  | connecting priv pub | refreshing session =>
    cases i with
    | response r => cases hi
    | connect _ _ | refresh | disconnect | key _ _ | proceed =>
      exact hsame (by simp [Cli.step, hst])
  | connectFetching priv pub body =>
    cases i with
    | key psk clock =>
      have hpsk : psk = material body.presharedKeyId := hi _ (by simp [Cli.fetching, hst])
      rw [hst] at hstage
      obtain ⟨hflight, howns, hsettles⟩ := hstage
      have heq : l.cli.step myQkd (.key psk clock) = ({ l.cli with
          conf := some
            ⟨priv, body.clientIp, body.serverPublicKey, psk, body.endpoint, body.allowedIps⟩
          stage := .connectUp pub body }, .nothing) := by
        simp [Cli.step, hst]
      exact h.quietStep heq ⟨hflight, howns, hsettles, _, rfl, rfl, hpsk⟩
    | response r => cases hi
    | connect _ _ | refresh | disconnect | proceed => exact hsame (by simp [Cli.step, hst])
  | connectUp pub body =>
    cases i with
    | proceed =>
      rw [hst] at hstage
      obtain ⟨hflight, howns, hsettles, conf, hconf, hserver, hpsk⟩ := hstage
      have heq : l.cli.step myQkd .proceed = ({ l.cli with
          iface := some conf.up
          stage := .connectSaving pub body }, .nothing) := by
        simp [Cli.step, hst, hconf]
      exact h.quietStep heq ⟨hflight, howns, hsettles, hserver ▸ holds_up rfl hpsk⟩
    | response r => cases hi
    | connect _ _ | refresh | disconnect | key _ _ => exact hsame (by simp [Cli.step, hst])
  | connectSaving pub body =>
    cases i with
    | proceed =>
      rw [hst] at hstage
      obtain ⟨hflight, howns, hsettles, hholds⟩ := hstage
      have heq : l.cli.step myQkd .proceed = ({ l.cli with
          session := some ⟨pub, body.serverPublicKey, body.endpoint, body.clientIp,
            body.presharedKeyId⟩
          stage := .idle }, .nothing) := by
        simp [Cli.step, hst]
      refine h.quietStep heq ⟨hflight, ?_⟩
      rintro session ⟨⟩
      exact ⟨howns, hsettles, hholds⟩
    | response r => cases hi
    | connect _ _ | refresh | disconnect | key _ _ => exact hsame (by simp [Cli.step, hst])
  | refreshFetching session keyId t =>
    cases i with
    | key psk clock =>
      have hpsk : psk = material keyId := hi _ (by simp [Cli.fetching, hst])
      rw [hst] at hstage
      obtain ⟨hflight, howns, hsettles, hiface⟩ := hstage
      have heq : l.cli.step myQkd (.key psk clock) = ({ l.cli with
          stage := .refreshSleeping session keyId psk (t - clock) }, .nothing) := by
        simp [Cli.step, hst]
      exact h.quietStep heq ⟨hflight, howns, hsettles, hiface, hpsk⟩
    | response r => cases hi
    | connect _ _ | refresh | disconnect | proceed => exact hsame (by simp [Cli.step, hst])
  | refreshSleeping session keyId psk delay =>
    cases i with
    | proceed =>
      rw [hst] at hstage
      obtain ⟨hflight, howns, hsettles, hiface, hpsk⟩ := hstage
      obtain ⟨iface, hiface⟩ := Option.isSome_iff_exists.mp hiface
      have heq : l.cli.step myQkd .proceed = ({ l.cli with
          iface := some (iface.setPsk session.serverPublicKey psk)
          stage := .refreshSaving session keyId }, .nothing) := by
        simp [Cli.step, hst, hiface]
      exact h.quietStep heq ⟨hflight, howns, hsettles, holds_setPsk rfl hpsk⟩
    | response r => cases hi
    | connect _ _ | refresh | disconnect | key _ _ => exact hsame (by simp [Cli.step, hst])
  | refreshSaving session keyId =>
    cases i with
    | proceed =>
      rw [hst] at hstage
      obtain ⟨hflight, howns, hsettles, hholds⟩ := hstage
      have heq : l.cli.step myQkd .proceed = ({ l.cli with
          session := some { session with presharedKeyId := keyId }
          stage := .idle }, .nothing) := by
        simp [Cli.step, hst]
      refine h.quietStep heq ⟨hflight, ?_⟩
      rintro session' ⟨⟩
      exact ⟨howns, hsettles, hholds⟩
    | response r => cases hi
    | connect _ _ | refresh | disconnect | key _ _ => exact hsame (by simp [Cli.step, hst])

/-! ## The response arrives -/

/-- A response that is not a success ends the command. -/
theorem step_refused {c : Cli} {r : Response} (hr : r.status ≠ 200)
    (hst : (∃ priv pub, c.stage = .connecting priv pub) ∨
      ∃ session, c.stage = .refreshing session) :
    c.step myQkd (.response r) = ({ c with stage := .idle }, .nothing) := by
  obtain ⟨status, reply⟩ := r
  obtain ⟨priv, pub, hst⟩ | ⟨session, hst⟩ := hst
  · simp only [Cli.step, hst]
    split
    · rename_i heq
      cases heq
      exact absurd rfl hr
    · rfl
  · simp only [Cli.step, hst]
    split
    · rename_i heq
      cases heq
      exact absurd rfl hr
    · rfl

theorem agrees_deliver (h : Agrees material mine l) :
    Agrees material mine (l.step settings myQkd .deliver).1 := by
  cases hflight : l.flight with
  | none | request _ | waiting _ =>
    simp only [Link.step, hflight]
    exact h
  | response r =>
    simp only [Link.step, hflight]
    have hquiet := h.quiet (by simp [hflight])
    have hcalls : ∀ c call, l.server.calls.lookup c = some call → mine call.pubkey →
        Flight.none = .waiting c := fun c call hc hm => absurd hm (hquiet c call hc)
    have hstage := h.stage
    unfold Link.StageOk at hstage
    cases hst : l.cli.stage with
    | connecting priv pub =>
      rw [hst, hflight] at hstage
      obtain ⟨howns, hne, hsession, hconnect⟩ := hstage
      rcases hconnect with
        ⟨q, publicKey, endpoint, keyId, ip, allowed, t, every, rfl, hsettles⟩ | hr
      · have heq : l.cli.step myQkd (.response ⟨200, .connected q publicKey endpoint keyId
            ip allowed t every⟩) = ({ l.cli with
              stage := .connectFetching priv pub ⟨publicKey, endpoint, keyId, ip, allowed⟩ },
              .decKeys keyId) := by
          simp [Cli.step, hst]
        simp only [Link.client, heq]
        exact ⟨h.wf, hcalls, h.unused, rfl, howns, hsettles⟩
      · rw [client_nothing (l := { l with flight := .none })
          (step_refused hr (.inl ⟨priv, pub, hst⟩))]
        exact ⟨h.wf, hcalls, h.unused, rfl, hsession⟩
    | refreshing session =>
      rw [hst, hflight] at hstage
      obtain ⟨hs, howns, hholds, hrefresh⟩ := hstage
      rcases hrefresh with ⟨keyId, t, rfl, hsettles⟩ | ⟨hr, hsettles⟩
      · have heq : l.cli.step myQkd (.response ⟨200, .refreshing keyId t⟩) = ({ l.cli with
            stage := .refreshFetching session keyId t }, .decKeys keyId) := by
          simp [Cli.step, hst]
        simp only [Link.client, heq]
        obtain ⟨iface, hiface, _⟩ := hholds
        exact ⟨h.wf, hcalls, h.unused, rfl, howns, hsettles, Option.isSome_iff_exists.mpr
          ⟨iface, hiface⟩⟩
      · rw [client_nothing (l := { l with flight := .none })
          (step_refused hr (.inr ⟨session, hst⟩))]
        refine ⟨h.wf, hcalls, h.unused, rfl, ?_⟩
        intro session' hs'
        cases hs.symm.trans hs'
        exact ⟨howns, hsettles, hholds⟩
    | idle | connectFetching _ _ _ | connectUp _ _ | connectSaving _ _ | refreshFetching _ _ _
    | refreshSleeping _ _ _ _ | refreshSaving _ _ =>
      rw [hst, hflight] at hstage
      cases hstage.1

/-! ## Steps of the server -/

/-- What a server step has to keep for the client not to notice. -/
structure Unnoticed (mine : String → Prop) (l : Link) (server : Server) : Prop where
  wf : Wf server
  slots : ∀ pub, mine pub → (server.slot pub).settled = (l.server.slot pub).settled ∧
    ((l.server.slot pub).pending = none → (server.slot pub).pending = none)
  old : ∀ c call, server.calls.lookup c = some call → mine call.pubkey →
    l.server.calls.lookup c = some call
  kept : ∀ c call, l.flight = .waiting c → l.server.calls.lookup c = some call →
    server.calls.lookup c = some call

theorem Unnoticed.settles {server : Server} (h : Unnoticed mine l server) {pub keyId : String}
    (howns : l.Owns mine pub) (hs : l.Settles material pub keyId) :
    { l with server }.Settles material pub keyId :=
  (h.slots pub howns.1).1.trans hs

theorem Unnoticed.sessionOk {server : Server} (h : Unnoticed mine l server)
    (hs : l.SessionOk material mine) : { l with server }.SessionOk material mine := by
  intro session hsession
  obtain ⟨howns, hsettles, hholds⟩ := hs session hsession
  exact ⟨howns, h.settles howns hsettles, hholds⟩

theorem Unnoticed.connectOk {server : Server} (h : Unnoticed mine l server) {pub : String}
    (howns : l.Owns mine pub) (hc : l.ConnectOk material pub l.flight) :
    { l with server }.ConnectOk material pub l.flight := by
  cases hflight : l.flight with
  | none =>
    rw [hflight] at hc
    exact hc
  | request r =>
    rw [hflight] at hc
    exact ⟨hc.1, (h.slots pub howns.1).2 hc.2⟩
  | waiting call =>
    rw [hflight] at hc
    obtain ⟨⟨q, hcall⟩, hfree⟩ := hc
    exact ⟨⟨q, h.kept call _ hflight hcall⟩, (h.slots pub howns.1).2 hfree⟩
  | response r =>
    rw [hflight] at hc
    obtain ⟨q, publicKey, endpoint, keyId, ip, allowed, t, every, hr, hsettles⟩ | hr := hc
    · exact .inl ⟨q, publicKey, endpoint, keyId, ip, allowed, t, every, hr,
        h.settles howns hsettles⟩
    · exact .inr hr

theorem Unnoticed.refreshOk {server : Server} (h : Unnoticed mine l server) {session : Session}
    (howns : l.Owns mine session.publicKey) (hr : l.RefreshOk material session l.flight) :
    { l with server }.RefreshOk material session l.flight := by
  cases hflight : l.flight with
  | none =>
    rw [hflight] at hr
    exact hr
  | request r =>
    rw [hflight] at hr
    exact ⟨hr.1, h.settles howns hr.2⟩
  | waiting call =>
    rw [hflight] at hr
    obtain ⟨⟨q, hcall⟩, hsettles⟩ := hr
    exact ⟨⟨q, h.kept call _ hflight hcall⟩, h.settles howns hsettles⟩
  | response r =>
    rw [hflight] at hr
    obtain ⟨keyId, t, hr, hsettles⟩ | ⟨hr, hsettles⟩ := hr
    · exact .inl ⟨keyId, t, hr, h.settles howns hsettles⟩
    · exact .inr ⟨hr, h.settles howns hsettles⟩

theorem Unnoticed.agrees {server : Server} (h : Unnoticed mine l server)
    (hl : Agrees material mine l) : Agrees material mine { l with server } := by
  refine ⟨h.wf, fun c call hc hm => hl.calls c call (h.old c call hc hm) hm, ?_, ?_⟩
  · intro pub hm hused
    exact (h.slots pub hm).2 (hl.unused pub hm hused)
  · have hstage := hl.stage
    unfold Link.StageOk at hstage ⊢
    cases hst : l.cli.stage with
    | idle =>
      simp only [hst] at hstage ⊢
      exact ⟨hstage.1, h.sessionOk hstage.2⟩
    | connecting priv pub =>
      simp only [hst] at hstage ⊢
      obtain ⟨howns, hne, hsession, hconnect⟩ := hstage
      exact ⟨howns, hne, h.sessionOk hsession, h.connectOk howns hconnect⟩
    | refreshing session =>
      simp only [hst] at hstage ⊢
      obtain ⟨hs, howns, hholds, hrefresh⟩ := hstage
      exact ⟨hs, howns, hholds, h.refreshOk howns hrefresh⟩
    | connectFetching _ _ _ =>
      simp only [hst] at hstage ⊢
      exact ⟨hstage.1, hstage.2.1, h.settles hstage.2.1 hstage.2.2⟩
    | connectUp _ _ | connectSaving _ _ | refreshFetching _ _ _ | refreshSleeping _ _ _ _
    | refreshSaving _ _ =>
      simp only [hst] at hstage ⊢
      exact ⟨hstage.1, hstage.2.1, h.settles hstage.2.1 hstage.2.2.1, hstage.2.2.2⟩

theorem LinkAct.Regular.smooth {a : Act} (h : LinkAct.Regular material mine l (.server a)) :
    a.Smooth := by
  cases a with
  | start _ _ | refresh _ | status => trivial
  | answer c answer env => exact h.1
  | fire t env => exact h
  | restart => exact h

/-- A server step that does not answer the client goes unnoticed. -/
theorem unnoticed_server (h : Agrees material mine l) {a : Act}
    (ha : LinkAct.Regular material mine l (.server a))
    (hown : ∀ c answer env, a = .answer c answer env → l.flight ≠ .waiting c) :
    Unnoticed mine l (Vpn.step settings l.server a).1 := by
  refine ⟨wf_step settings h.wf a, ?_, ?_, ?_⟩
  · intro pub hm
    refine settled_step h.wf ha.smooth ?_
    rintro c answer env call hact hcall rfl
    exact hown c answer env hact (h.calls c call hcall hm)
  · intro c call hc hm
    -- a request of another peer opens a handler that is not the client's
    have hrequest : ∀ pub, ¬ mine pub → (a = .refresh pub ∨ ∃ q, a = .start pub q) →
        l.server.calls.lookup c = some call := by
      intro pub hpub hact
      obtain ⟨call', hpub', hsame | ⟨_, hnew⟩⟩ := calls_request settings hact c
      · exact hsame ▸ hc
      · cases hc.symm.trans hnew
        exact absurd (hpub' ▸ hm) hpub
    cases a with
    | start pub q => exact hrequest pub ha (.inr ⟨q, rfl⟩)
    | refresh pub => exact hrequest pub ha (.inl rfl)
    | answer c' answer env =>
      rw [calls_answer] at hc
      split at hc
      · cases hc
      · exact hc
    | fire t env => exact calls_fire settings t ▸ hc
    | status => exact hc
    | restart => cases ha
  · intro c call hwait hc
    -- a new handler takes a number that no running one has
    have hrequest : ∀ pub, (a = .refresh pub ∨ ∃ q, a = .start pub q) →
        (Vpn.step settings l.server a).1.calls.lookup c = some call := by
      intro pub hact
      obtain ⟨call', _, hsame | ⟨hnext, _⟩⟩ := calls_request settings hact c
      · exact hsame.trans hc
      · exact absurd hnext (Nat.ne_of_lt (h.wf.called c call hc).1)
    cases a with
    | start pub q => exact hrequest pub (.inr ⟨q, rfl⟩)
    | refresh pub => exact hrequest pub (.inl rfl)
    | answer c' answer env =>
      have hne : c ≠ c' := by
        rintro rfl
        exact hown c answer env rfl hwait
      rw [calls_answer, if_neg hne]
      exact hc
    | fire t env => exact (calls_fire settings t).symm ▸ hc
    | status => exact hc
    | restart => cases ha

/-- The server has answered the client. -/
theorem agrees_answer (h : Agrees material mine l) {c : Nat} (hflight : l.flight = .waiting c)
    {answer : Except EkmError (String × Bytes)} {env : Env}
    (ha : LinkAct.Regular material mine l (.server (.answer c answer env))) :
    Agrees material mine { l with
      server := (Vpn.step settings l.server (.answer c answer env)).1
      flight := .sent (Vpn.step settings l.server (.answer c answer env)).2 } := by
  obtain ⟨hsmooth, hmaterial⟩ := ha
  have hmaterial := hmaterial hflight
  have hwf := wf_step settings h.wf (.answer c answer env)
  have hcalls : ∀ c' call, (Vpn.step settings l.server (.answer c answer env)).1.calls.lookup c' =
      some call → ¬ mine call.pubkey := by
    intro c' call hc hm
    rw [calls_answer] at hc
    split at hc
    · cases hc
    · rename_i hne
      have hwait := h.calls c' call hc hm
      rw [hflight] at hwait
      cases hwait
      exact hne rfl
  -- the keys of the other peers stay on their way
  have hother : ∀ {call pub}, l.server.calls.lookup c = some call → call.pubkey ≠ pub →
      ((Vpn.step settings l.server (.answer c answer env)).1.slot pub).settled =
          (l.server.slot pub).settled ∧
        ((l.server.slot pub).pending = none →
          ((Vpn.step settings l.server (.answer c answer env)).1.slot pub).pending = none) := by
    intro call pub hcall hne
    refine settled_step h.wf hsmooth ?_
    rintro _ _ _ call' ⟨⟩ hcall'
    cases hcall.symm.trans hcall'
    exact hne
  have hunused : ∀ {call}, l.server.calls.lookup c = some call → l.Owns mine call.pubkey →
      ∀ pub, mine pub → pub ∉ l.used →
        ((Vpn.step settings l.server (.answer c answer env)).1.slot pub).pending = none := by
    intro call hcall howns pub hm hfresh
    refine (hother hcall ?_).2 (h.unused pub hm hfresh)
    rintro rfl
    exact hfresh howns.2
  have hstage := h.stage
  unfold Link.StageOk at hstage
  cases hst : l.cli.stage with
  | connecting priv pub =>
    rw [hst, hflight] at hstage
    obtain ⟨howns, hne, hsession, ⟨q, hcall⟩, hfree⟩ := hstage
    refine ⟨hwf, fun c' call hc hm => absurd hm (hcalls c' call hc), hunused hcall howns, ?_⟩
    simp only [Link.StageOk, hst]
    refine ⟨howns, hne, ?_, ?_⟩
    · intro session hs
      obtain ⟨hsowns, hsettles, hholds⟩ := hsession session hs
      exact ⟨hsowns, (hother hcall (Ne.symm (hne session hs))).1.trans hsettles, hholds⟩
    · rcases answer_start settings h.wf hcall hfree hsmooth with
        ⟨keyId, key, q', publicKey, endpoint, ip, allowed, t, every, rfl, hout, hsettled⟩ |
        ⟨r, hout, hr⟩
      · rw [hout]
        refine .inl ⟨q', publicKey, endpoint, keyId, ip, allowed, t, every, rfl, ?_⟩
        exact hmaterial keyId key rfl ▸ hsettled
      · rw [hout]
        exact .inr hr
  | refreshing session =>
    rw [hst, hflight] at hstage
    obtain ⟨hs, howns, hholds, ⟨q, hcall⟩, hsettles⟩ := hstage
    refine ⟨hwf, fun c' call hc hm => absurd hm (hcalls c' call hc), hunused hcall howns, ?_⟩
    simp only [Link.StageOk, hst]
    refine ⟨hs, howns, hholds, ?_⟩
    rcases answer_refresh settings env h.wf hcall answer with
      ⟨keyId, key, t, rfl, hout, hsettled⟩ | ⟨r, hout, hr, hslot⟩
    · rw [hout]
      exact .inl ⟨keyId, t, rfl, hmaterial keyId key rfl ▸ hsettled⟩
    · rw [hout]
      refine .inr ⟨hr, ?_⟩
      unfold Link.Settles
      rw [hslot]
      exact hsettles
  | idle | connectFetching _ _ _ | connectUp _ _ | connectSaving _ _ | refreshFetching _ _ _
  | refreshSleeping _ _ _ _ | refreshSaving _ _ =>
    rw [hst, hflight] at hstage
    cases hstage.1

theorem agrees_server (h : Agrees material mine l) {a : Act}
    (ha : LinkAct.Regular material mine l (.server a)) :
    Agrees material mine (l.step settings myQkd (.server a)).1 := by
  have hother : (∀ c answer env, a = .answer c answer env → l.flight ≠ .waiting c) →
      Agrees material mine { l with server := (Vpn.step settings l.server a).1 } :=
    fun hown => (unnoticed_server h ha hown).agrees h
  simp only [Link.step]
  split
  · rename_i c answer env call hflight
    by_cases hc : c = call
    · subst hc
      rw [if_pos rfl]
      exact agrees_answer h hflight ha
    · rw [if_neg hc]
      refine hother ?_
      rintro c' answer' env' ⟨⟩ hwait
      rw [hflight] at hwait
      cases hwait
      exact hc rfl
  · rename_i hno
    refine hother ?_
    rintro c answer env rfl hwait
    exact hno c answer env c rfl hwait

/-! ## The request arrives -/

/-- The server has begun with a request of the client. -/
theorem agrees_arrive (h : Agrees material mine l) :
    Agrees material mine (l.step settings myQkd .arrive).1 := by
  cases hflight : l.flight with
  | none | waiting _ | response _ =>
    simp only [Link.step, hflight]
    exact h
  | request r =>
    simp only [Link.step, hflight]
    have hquiet := h.quiet (by simp [hflight])
    have hwf := wf_step settings h.wf r.act
    have hsmooth : r.act.Smooth := by cases r <;> trivial
    have hslots : ∀ pub,
        ((Vpn.step settings l.server r.act).1.slot pub).settled = (l.server.slot pub).settled ∧
          ((l.server.slot pub).pending = none →
            ((Vpn.step settings l.server r.act).1.slot pub).pending = none) := by
      intro pub
      refine settled_step h.wf hsmooth ?_
      cases r <;> rintro _ _ _ _ ⟨⟩
    have hunused : ∀ pub, mine pub → pub ∉ l.used →
        ((Vpn.step settings l.server r.act).1.slot pub).pending = none :=
      fun pub hm hfresh => (hslots pub).2 (h.unused pub hm hfresh)
    -- the handler that begins is the only one about a key of the client
    have hcalls : ∀ (call : Call) (q : String) (server : Server),
        server = (arrive l.server call q).1 → ∀ c call', server.calls.lookup c = some call' →
          mine call'.pubkey → Flight.waiting l.server.nextId = .waiting c := by
      rintro call q _ rfl c call' hc hm
      have hlookup : (arrive l.server call q).1.calls.lookup c =
          if c = l.server.nextId then some call else l.server.calls.lookup c :=
        Dict.lookup_insert _ _ _ _
      rw [hlookup] at hc
      split at hc
      · rename_i heq
        rw [heq]
      · exact absurd hm (hquiet c call' hc)
    have hnew : ∀ (call : Call) (q : String),
        (arrive l.server call q).1.calls.lookup l.server.nextId = some call :=
      fun call q => AList.lookup_insert _
    have hstage := h.stage
    unfold Link.StageOk at hstage
    cases hst : l.cli.stage with
    | connecting priv pub =>
      rw [hst, hflight] at hstage
      obtain ⟨howns, hne, hsession, ⟨q, rfl⟩, hfree⟩ := hstage
      refine ⟨hwf, hcalls (.start pub q) q _ rfl, hunused, ?_⟩
      simp only [Link.StageOk, hst]
      refine ⟨howns, hne, ?_, ⟨q, hnew (.start pub q) q⟩, (hslots pub).2 hfree⟩
      intro session hs
      obtain ⟨hsowns, hsettles, hholds⟩ := hsession session hs
      exact ⟨hsowns, (hslots _).1.trans hsettles, hholds⟩
    | refreshing session =>
      rw [hst, hflight] at hstage
      obtain ⟨hs, howns, hholds, rfl, hsettles⟩ := hstage
      have hsettles' := (hslots session.publicKey).1.trans hsettles
      simp only [Request.act, step] at hwf hunused hsettles' ⊢
      cases hrec : l.server.peers.lookup session.publicKey with
      | none =>
        rw [hrec] at hwf hunused hsettles'
        refine ⟨hwf, fun c call hc hm => absurd hm (hquiet c call hc), hunused, ?_⟩
        simp only [Link.StageOk, hst]
        exact ⟨hs, howns, hholds, .inr ⟨(by decide : (404 : Nat) ≠ 200), hsettles'⟩⟩
      | some record =>
        rw [hrec] at hwf hunused hsettles'
        have hcall := hnew (.refresh session.publicKey record.qkdId) record.qkdId
        refine ⟨hwf, hcalls _ record.qkdId _ rfl, hunused, ?_⟩
        simp only [Link.StageOk, hst]
        exact ⟨hs, howns, hholds, ⟨record.qkdId, hcall⟩, hsettles'⟩
    | idle | connectFetching _ _ _ | connectUp _ _ | connectSaving _ _ | refreshFetching _ _ _
    | refreshSleeping _ _ _ _ | refreshSaving _ _ =>
      rw [hst, hflight] at hstage
      cases hstage.1

/-! ## Any run -/

/-- **Every step keeps the two ends in agreement.** -/
theorem agrees_step (h : Agrees material mine l) {a : LinkAct} (ha : a.Regular material mine l) :
    Agrees material mine (l.step settings myQkd a).1 := by
  cases a with
  | client i => exact agrees_client h ha
  | arrive => exact agrees_arrive h
  | deliver => exact agrees_deliver h
  | server a => exact agrees_server h ha

theorem agrees_boot (file : Option PeerTable) (wg : String → Option WgPeer) :
    Agrees material mine { server := boot file wg } where
  wf := wf_boot file wg
  calls := by
    rintro c call ⟨⟩
  unused := fun _ _ _ => rfl
  stage := ⟨rfl, by rintro session ⟨⟩⟩

theorem agrees_run {file : Option PeerTable} {wg : String → Option WgPeer} {acts : List LinkAct}
    (hacts : ∀ m ∈ trace (Link.step settings myQkd) { server := boot file wg } acts,
      m.act.Regular material mine m.pre) :
    Agrees material mine (exec (Link.step settings myQkd) { server := boot file wg } acts) :=
  trace_invariant (fun _ l => Agrees material mine l)
    (fun m => m.act.Regular material mine m.pre) (agrees_boot file wg)
    (fun _ _ _ h ha => agrees_step h ha) hacts

/-- **Coordinated re-keying agrees.** In every run in which nothing fails
and nobody interferes: once no command is running and no activation is
pending for the session's public key, the interface, WireGuard at the
server, the session and the server's record have one and the same key. -/
theorem rekeying_agrees (settings : VpnSettings) (myQkd : String) (material : String → Bytes)
    (mine : String → Prop) (file : Option PeerTable) (wg : String → Option WgPeer)
    {acts : List LinkAct}
    (hacts : ∀ m ∈ trace (Link.step settings myQkd) { server := boot file wg } acts,
      m.act.Regular material mine m.pre) {session : Session} :
    let l := exec (Link.step settings myQkd) { server := boot file wg } acts
    l.cli.stage = .idle → l.cli.session = some session →
      ¬ l.server.Pending session.publicKey →
      ∃ iface peer record, l.cli.iface = some iface ∧
        l.server.wg session.publicKey = some peer ∧
        iface.psk session.serverPublicKey = some peer.psk ∧
        peer.psk = material session.presharedKeyId ∧
        l.server.peers.lookup session.publicKey = some record ∧
        record.presharedKeyId = some session.presharedKeyId := by
  intro l hidle hsession hpending
  have h : Agrees material mine l := agrees_run hacts
  have hstage := h.stage
  simp only [Link.StageOk, hidle] at hstage
  obtain ⟨_, hsettles, iface, hiface, hpsk⟩ := hstage.2 session hsession
  have hfree : (l.server.slot session.publicKey).pending = none :=
    (pending_eq_none h.wf).mpr hpending
  obtain ⟨hid, hkey⟩ := (Slot.settled_eq_some hfree).mp hsettles
  obtain ⟨peer, hpeer, hpeerKey⟩ := Option.map_eq_some_iff.mp hkey
  obtain ⟨record, hrecord, hrecordId⟩ := Option.bind_eq_some_iff.mp hid
  exact ⟨iface, peer, record, hiface, hpeer, hpeerKey.symm ▸ hpsk, hpeerKey, hrecord, hrecordId⟩

end

/-- The keys of the sample link. -/
def twoKeys (keyId : String) : Bytes := if keyId = "k1" then sample 1 else sample 2

/-- A client connects with `k1` and refreshes to `k2`; the server
switches before the client does. -/
def connectAndRefresh : List LinkAct :=
  [.client (.connect "priv" clientPub), .arrive, .server (.answer 0 (.ok ("k1", sample 1)) calm),
    .deliver, .client (.key (sample 1) 0), .client .proceed, .client .proceed,
    .client .refresh, .arrive, .server (.answer 2 (.ok ("k2", sample 2)) calm), .deliver,
    .client (.key (sample 2) 0), .server (.fire 3 calm), .client .proceed, .client .proceed]

theorem rekeying_agrees_connectAndRefresh :
    let l := exec (Link.step demo "QKD2") { server := boot none fun _ => none } connectAndRefresh
    ∃ iface peer record, l.cli.iface = some iface ∧ l.server.wg clientPub = some peer ∧
      iface.psk "server" = some peer.psk ∧ peer.psk = twoKeys "k2" ∧
      l.server.peers.lookup clientPub = some record ∧ record.presharedKeyId = some "k2" := by
  have hacts : ∀ m ∈ trace (Link.step demo "QKD2") { server := boot none fun _ => none }
      connectAndRefresh, m.act.Regular twoKeys (· = clientPub) m.pre := by
    intro m hm
    simp only [connectAndRefresh, trace, List.mem_cons, List.not_mem_nil, or_false] at hm
    rcases hm with rfl | rfl | rfl | rfl | rfl | rfl | rfl | rfl | rfl | rfl | rfl | rfl | rfl |
      rfl | rfl
    · exact ⟨rfl, List.not_mem_nil⟩
    · trivial
    · exact ⟨⟨rfl, _, rfl⟩, by rintro _ _ _ ⟨⟩; rfl⟩
    · trivial
    · rintro keyId ⟨⟩
      rfl
    · trivial
    · trivial
    · trivial
    · trivial
    · exact ⟨⟨rfl, _, rfl⟩, by rintro _ _ _ ⟨⟩; rfl⟩
    · trivial
    · rintro keyId ⟨⟩
      rfl
    · exact ⟨rfl, _, rfl⟩
    · trivial
    · trivial
  have hsession : (exec (Link.step demo "QKD2") { server := boot none fun _ => none }
      connectAndRefresh).cli.session =
      some ⟨clientPub, "server", demo.publicEndpoint, ⟨.v4, 169082882⟩, "k2"⟩ := rfl
  exact rekeying_agrees demo "QKD2" twoKeys (· = clientPub) none (fun _ => none) hacts rfl hsession
    ((pending_eq_none (agrees_run hacts).wf).mp rfl)

end QkdEkm.Client
