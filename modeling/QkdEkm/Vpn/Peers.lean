import Mathlib.Algebra.Group.Nat.Defs
import QkdEkm.Lib.Dict

/-!
# Peers — the peer table of the VPN server

A tunnel address is free if neither the server nor a record has it. The
records are what `peers.json` holds; no key material is among them.
-/

namespace QkdEkm.Vpn

open QkdEkm.Lib

inductive IpVersion
  | v4
  | v6
  deriving DecidableEq, Repr

structure Address where
  version : IpVersion
  value : Nat
  deriving DecidableEq, Repr

/-- An `ip_network`: the addresses that share all but `hostBits` bits. -/
structure Network where
  version : IpVersion
  network : Nat
  hostBits : Nat
  deriving DecidableEq, Repr

/-- `hosts()`: without the network address, and for IPv4 without the
broadcast address; a network of one or two addresses loses neither. -/
def Network.hosts (n : Network) : List Address :=
  let values :=
    match n.hostBits, n.version with
    | 0, _ => [n.network]
    | 1, _ => [n.network, n.network + 1]
    | bits, .v4 => List.range' (n.network + 1) (2 ^ bits - 2)
    | bits, .v6 => List.range' (n.network + 1) (2 ^ bits - 1)
  values.map fun value => ⟨n.version, value⟩

/-- A reading of the wall clock, in seconds. -/
abbrev Time := Int

structure VpnSettings where
  publicEndpoint : String
  tunnelCidr : Network := ⟨.v4, 10 * 2 ^ 24 + 20 * 2 ^ 16, 8⟩
  serverAddress : Address := ⟨.v4, 10 * 2 ^ 24 + 20 * 2 ^ 16 + 1⟩
  allowedIps : String := "10.10.0.0/24,10.20.0.0/24"
  refreshS : Time := 3600
  activationDelayS : Time := 30
  serverPeer : String := "QKD1"

structure PeerRecord where
  clientIp : Address
  qkdId : String
  presharedKeyId : Option String := none
  nextRefreshAt : Option Time := none
  refreshDue : Bool := false
  deriving DecidableEq, Repr

abbrev PeerTable := Dict String PeerRecord

/-- `allocate_ip`: the first host address that nobody has. -/
def allocateIp (settings : VpnSettings) (peers : PeerTable) : Option Address :=
  let taken := settings.serverAddress :: peers.items.map (·.2.clientIp)
  settings.tunnelCidr.hosts.find? fun host => decide (host ∉ taken)

/-- `record_for`: the peer's record, whether this call invented it, and
the table that holds it. -/
def recordFor (settings : VpnSettings) (peers : PeerTable) (pubkey qkdId : String) :
    Option (PeerRecord × Bool × PeerTable) :=
  match peers.lookup pubkey with
  | some record => some (record, false, peers)
  | none =>
    (allocateIp settings peers).map fun clientIp =>
      let record : PeerRecord := { clientIp, qkdId }
      (record, true, peers.assign pubkey record)

/-- The record is in the table that is returned, and only that entry is new. -/
theorem recordFor_lookup {settings : VpnSettings} {peers peers' : PeerTable}
    {pubkey qkdId : String} {record : PeerRecord} {new : Bool}
    (h : recordFor settings peers pubkey qkdId = some (record, new, peers')) (k : String) :
    peers'.lookup k = if k = pubkey then some record else peers.lookup k := by
  unfold recordFor at h
  split at h
  · rename_i hfound
    cases h
    split
    · rename_i hk
      exact hk ▸ hfound
    · rfl
  · obtain ⟨clientIp, _, heq⟩ := Option.map_eq_some_iff.mp h
    cases heq
    exact Dict.lookup_assign _ _ _ _

/-- No peer leaves the table. -/
theorem recordFor_mem {settings : VpnSettings} {peers peers' : PeerTable}
    {pubkey qkdId : String} {record : PeerRecord} {new : Bool}
    (h : recordFor settings peers pubkey qkdId = some (record, new, peers')) {k : String}
    (hk : k ∈ peers) : k ∈ peers' := by
  rw [← AList.lookup_isSome] at hk ⊢
  rw [recordFor_lookup h]
  split
  · rfl
  · exact hk

/-- A record is invented only for a peer that has none. -/
theorem recordFor_new {settings : VpnSettings} {peers peers' : PeerTable}
    {pubkey qkdId : String} {record : PeerRecord}
    (h : recordFor settings peers pubkey qkdId = some (record, true, peers')) : pubkey ∉ peers := by
  unfold recordFor at h
  split at h
  · cases h
  · rename_i hnone
    exact AList.lookup_eq_none.mp hnone

end QkdEkm.Vpn
