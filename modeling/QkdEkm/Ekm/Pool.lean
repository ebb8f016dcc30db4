import QkdEkm.Ekm.Store

/-!
# Pool — the per-peer buffers of unconsumed keys

The deques are filled by a thread that pulls from the QKD source and
emptied by allocation and expiry. `pull_once` blocks between its locked
sections, so it is a machine of its own: `Pull` says where the thread
stands and `KeyPool.pull` is its next section.
-/

namespace QkdEkm.Ekm

open QkdEkm.Common

structure Key where
  keyId : String
  key : Bytes
  deriving DecidableEq, Repr

/-- A reading of the pool's clock, in ticks. -/
abbrev Time := Int

/-- The constructor arguments of the pool. -/
structure PoolConfig where
  peers : List String
  target : Int := 50
  ttl : Time := 600

structure KeyPool where
  sourceAvailable : Bool := true
  deques : String → List (Key × Time) := fun _ => []

/-- `_MAX_PER_REQUEST`. -/
def maxPerRequest : Int := 100

namespace KeyPool

variable (cfg : PoolConfig) (pool : KeyPool)

def size (peer : String) : Nat := (pool.deques peer).length

def withDeque (peer : String) (dq : List (Key × Time)) : KeyPool :=
  { pool with deques := Function.update pool.deques peer dq }

/-- The oldest unit of a peer leaves its deque before the assertion that
it is unconsumed. -/
def allocate (store : Store) (peer : String) : Except Exn Key × KeyPool :=
  if peer ∈ cfg.peers then
    match pool.deques peer with
    | [] => (.error .poolEmpty, pool)
    | (key, _) :: rest =>
      (if store.isConsumed key.keyId then .error .assertionError else .ok key,
        pool.withDeque peer rest)
  else (.error .keyError, pool)

/-- The section of `expire_once` for one peer. -/
def expirePeer (now : Time) (peer : String) : KeyPool × Nat :=
  let dq := pool.deques peer
  let kept := dq.dropWhile fun entry => entry.2 < now - cfg.ttl
  (pool.withDeque peer kept, dq.length - kept.length)

end KeyPool

theorem withDeque_deques (pool : KeyPool) (peer peer' : String) (dq : List (Key × Time)) :
    (pool.withDeque peer dq).deques peer' = if peer' = peer then dq else pool.deques peer' := by
  simp [KeyPool.withDeque, Function.update_apply]

theorem withDeque_suffix {pool : KeyPool} {peer : String} {dq : List (Key × Time)}
    (h : dq <:+ pool.deques peer) (peer' : String) :
    (pool.withDeque peer dq).deques peer' <:+ pool.deques peer' := by
  rw [withDeque_deques]
  split
  · rename_i heq
    exact heq ▸ h
  · exact List.suffix_refl _

/-- An allocation takes the oldest unit of a deque or nothing. -/
theorem allocate_suffix (cfg : PoolConfig) (pool : KeyPool) (store : Store) (peer peer' : String) :
    (pool.allocate cfg store peer).2.deques peer' <:+ pool.deques peer' := by
  unfold KeyPool.allocate
  split
  · split
    · exact List.suffix_refl _
    · rename_i hdq
      exact withDeque_suffix (hdq ▸ List.suffix_cons _ _) peer'
  · exact List.suffix_refl _

/-- What `enc_keys` does: it returns keys, or raises `QkdUnavailable`,
or raises anything else. -/
inductive EncKeys
  | keys (keys : List Key)
  | unavailable
  | failed
  deriving Repr

/-- Where the thread that runs `pull_once` stands. -/
inductive Pull
  | idle
  | next (peers : List String)
  | asking (peer : String) (number : Int) (rest : List String)
  | received (peer : String) (keys : List Key) (receivedAt : Time) (rest : List String)
  deriving Repr

/-- The next section of `pull_once`. The answer of the source and the
clock are read only in the section after the call of `enc_keys`. -/
def KeyPool.pull (cfg : PoolConfig) (pool : KeyPool) (answer : EncKeys) (now : Time) :
    Pull → KeyPool × Pull
  | .idle => (pool, .next cfg.peers)
  | .next [] => (pool, .idle)
  | .next (peer :: rest) =>
    let n := min (cfg.target - pool.size peer) maxPerRequest
    (pool, if n ≤ 0 then .next rest else .asking peer n rest)
  | .asking peer _ rest =>
    match answer with
    | .keys keys => ({ pool with sourceAvailable := true }, .received peer keys now rest)
    | .unavailable => ({ pool with sourceAvailable := false }, .next rest)
    | .failed => (pool, .next rest)
  | .received peer keys receivedAt rest =>
    (pool.withDeque peer (pool.deques peer ++ keys.map (·, receivedAt)), .next rest)

end QkdEkm.Ekm
