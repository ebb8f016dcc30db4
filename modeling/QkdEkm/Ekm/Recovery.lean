import QkdEkm.Ekm.Permanence
import QkdEkm.Lib.Latch

/-!
# Recovery — no READY without an acknowledgement

`check_recovery` is an edge detector on `pool.source_available`, sampled
by two handlers, and `recovery_pending` is its latch, cleared by the
operator. What `GET /api/state` reports is therefore a property of the
samples and acknowledgements since the app was created.
-/

namespace QkdEkm.Ekm

open QkdEkm.Common QkdEkm.Lib

/-- An app that is created over a store and a pool; this is its first
look at the source. -/
def create (store : Store) (pool : KeyPool) : Process :=
  { store, pool, control := { sourceSeen := pool.sourceAvailable }, pull := .idle }

theorem boot_eq_create (store : Store) : boot store = create store {} := rfl

/-- `pool.source_available` changes, or the process takes a step. -/
inductive Happening
  | source (available : Bool)
  | act (a : Act)

def happen (aead : Aead) (cfg : Config) (p : Process) : Happening → Process × Option Response
  | .source available => ({ p with pool := { p.pool with sourceAvailable := available } }, none)
  | .act a => step aead cfg p a

/-- Whether a request runs `check_recovery`: a wrap does so before it
looks at its plaintext. -/
def Request.samples : Request → Bool
  | .state => true
  | .keyOp keyIdOp body =>
    match parseKeyOp keyIdOp body with
    | .ok (.wrap _ _ _) => true
    | _ => false
  | _ => false

/-- What a request shows to the latch. -/
def Request.look (p : Process) (r : Request) : List Look :=
  match r with
  | .ack => [.clear]
  | _ => if r.samples then [.sample p.pool.sourceAvailable] else []

/-- The samples and acknowledgements since the app was created, after
one more step. -/
def nextLooks (h : List Look) (m : Moment Process Happening (Option Response)) : List Look :=
  match m.act with
  | .source _ => h
  | .act a =>
    if died a m.out then [.sample m.post.pool.sourceAvailable]
    else
      match a with
      | .request r _ _ => h ++ r.look m.pre
      | _ => h

def looks (first : Bool) (past : List (Moment Process Happening (Option Response))) : List Look :=
  past.foldl nextLooks [.sample first]

/-- The flags of the edge detector. -/
def Control.latch (c : Control) : Latch := ⟨c.sourceSeen, c.recoveryPending⟩

section

variable {aead : Aead} {cfg : Config} {p : Process} {h : List Look}

/-! ## One step -/

theorem latch_checkRecovery (p : Process) :
    p.checkRecovery.control.latch = p.control.latch.look (.sample p.pool.sourceAvailable) := rfl

/-- What a request leaves of the flags: a fresh process, or what the
latch has after what the request looks at. -/
inductive Shown (p : Process) (a : Act) (xs : List Look)
    (m : Moment Process Happening (Option Response)) : Prop
  | died {store} (hd : died a m.out = true) (hpost : m.post = boot store)
  | lives (hd : died a m.out = false)
      (hlatch : m.post.control.latch = xs.foldl Latch.look p.control.latch)

/-- An answered request leaves the flags its handler left. -/
theorem shown_respond {p p' : Process} {res : Except Stop Reply} {r : Request} {fates : List Fate}
    {nonces : List Nonce} (hstep : step aead cfg p (.request r fates nonces) = respond p' res)
    (hlatch : p'.control.latch = (r.look p).foldl Latch.look p.control.latch) :
    Shown p (.request r fates nonces) (r.look p)
      (moment (happen aead cfg) p (.act (.request r fates nonces))) := by
  generalize hm : moment (happen aead cfg) p (.act (.request r fates nonces)) = m
  have hout : m.out = (respond p' res).2 := hm ▸ congrArg Prod.snd hstep
  have hpost : m.post = (respond p' res).1 := hm ▸ congrArg Prod.fst hstep
  rcases res with (e | _) | reply
  · exact .lives (by rw [hout]; rfl) (by rw [hpost]; exact hlatch)
  · exact .died (by rw [hout]; rfl) hpost
  · exact .lives (by rw [hout]; rfl) (by rw [hpost]; exact hlatch)

variable (aead cfg) in
/-- **A request shows the latch what it looks at**, if the process lives. -/
theorem shown_request (p : Process) (r : Request) (fates : List Fate) (nonces : List Nonce) :
    Shown p (.request r fates nonces) (r.look p)
      (moment (happen aead cfg) p (.act (.request r fates nonces))) := by
  cases r with
  | healthz => exact .lives rfl rfl
  | state => exact .lives rfl rfl
  | ack => exact .lives rfl rfl
  | authority value => cases value <;> exact .lives rfl rfl
  | describe keyIdOp =>
    refine shown_respond (?_ : _ = respond p
      (if ':' ∈ keyIdOp.toList then
        .error (.raised (httpError 404 ("unknown operation " ++ keyIdOp)))
      else .ok (.described keyIdOp "MANUAL"))) rfl
    unfold step handle describeKey
    by_cases hc : ':' ∈ keyIdOp.toList
    · simp only [if_pos hc]
      rfl
    · simp only [if_neg hc]
      rfl
  | keyOp keyIdOp body =>
    obtain ⟨res, p', hkinds, hstep⟩ := step_request aead cfg p (.keyOp keyIdOp body) fates nonces
    refine shown_respond hstep ?_
    cases hkinds with
    | wrap hop _ =>
      simp only [Request.look, Request.samples, hop, if_true]
      exact latch_checkRecovery p
    | unwrap hop _ =>
      simp only [Request.look, Request.samples, hop]
      rfl
    | malformed hop =>
      simp only [Request.look, Request.samples, hop]
      rfl
    | other hk _ => cases hk
  | new peer purpose =>
    obtain ⟨res, store, pool, _, hstep⟩ := step_new aead cfg p peer purpose fates nonces
    exact shown_respond hstep rfl

theorem nextLooks_request {m : Moment Process Happening (Option Response)} {r : Request}
    {fates : List Fate} {nonces : List Nonce} (hact : m.act = .act (.request r fates nonces)) :
    nextLooks h m = if died (.request r fates nonces) m.out then
      [.sample m.post.pool.sourceAvailable] else h ++ r.look m.pre := by
  unfold nextLooks
  rw [hact]

/-- **Every step keeps the flags and the history together.** -/
theorem latched_step (hl : Latched p.control.latch h) (x : Happening) :
    Latched (happen aead cfg p x).1.control.latch
      (nextLooks h (moment (happen aead cfg) p x)) := by
  rcases x with available | a
  · exact hl
  · cases a with
    | pull answer now => exact hl
    | expire peer now => exact hl
    | restart => exact latched_start _
    | request r fates nonces =>
      have hshown := shown_request aead cfg p r fates nonces
      change Latched (moment (happen aead cfg) p
        (.act (.request r fates nonces))).post.control.latch _
      rw [nextLooks_request rfl]
      cases hshown with
      | died hd hpost =>
        rw [if_pos hd, hpost]
        exact latched_start _
      | lives hd hlatch =>
        rw [if_neg (by rw [hd]; exact Bool.false_ne_true), hlatch]
        exact hl.looks _

/-- The mode is READY only with the source up and no recovery pending. -/
theorem deriveMode_ready {available reachable authoritative authority pending suspended : Bool}
    {poolSize : Nat} (hm : deriveMode available reachable poolSize authoritative authority pending
      suspended = .ready) : available = true ∧ pending = false := by
  unfold deriveMode at hm
  cases available <;> cases pending <;> simp_all
  all_goals split_ifs at hm

end

/-! ## Any run -/

theorem latched_run (aead : Aead) (cfg : Config) (store : Store) (pool : KeyPool)
    (xs : List Happening) :
    Latched (exec (happen aead cfg) (create store pool) xs).control.latch
      (looks pool.sourceAvailable (trace (happen aead cfg) (create store pool) xs)) := by
  have hcreate : Latched (create store pool).control.latch (looks pool.sourceAvailable []) :=
    latched_start _
  refine trace_invariant
    (fun past p => Latched p.control.latch (looks pool.sourceAvailable past)) (fun _ => True)
    hcreate ?_ (fun _ _ => trivial)
  intro past p x hl _
  simp only [looks, List.foldl_append, List.foldl_cons, List.foldl_nil]
  exact latched_step hl x

/-- **Recovery needs an acknowledgement.** After every sequence of
changes of the source, requests, pulls, expiries and restarts,
`GET /api/state` samples the source and answers with the mode and the
flag. Once the source was seen down, the mode is READY only if it was
later seen up and that was acknowledged after it; and the flag is true
exactly if nothing was acknowledged since the most recent two
consecutive samples that saw the source down and then up. -/
theorem recovery_needs_ack (aead : Aead) (cfg : Config) (store : Store) (pool : KeyPool)
    (xs : List Happening) (fates : List Fate) (nonces : List Nonce) :
    let p := exec (happen aead cfg) (create store pool) xs
    let h := looks pool.sourceAvailable (trace (happen aead cfg) (create store pool) xs) ++
      [.sample p.pool.sourceAvailable]
    ∃ modes sizes count available authority pending,
      (happen aead cfg p (.act (.request .state fates nonces))).2 =
        some ⟨200, .state modes sizes count available authority pending⟩ ∧
      (modes.mode = .ready → ∀ before after, h = before ++ .sample false :: after →
        ∃ mid rest, after = mid ++ .sample true :: rest ∧ .clear ∈ rest) ∧
      (pending = true ↔ Uncleared h) := by
  intro p h
  have hl : Latched p.checkRecovery.control.latch h :=
    (latched_run aead cfg store pool xs).look (.sample p.pool.sourceAvailable)
  refine ⟨_, _, _, _, _, _, rfl, ?_, hl.set_iff_uncleared⟩
  intro hready before after hh
  obtain ⟨hup, hdone⟩ := deriveMode_ready hready
  exact hl.cleared_of_low hup hdone hh

end QkdEkm.Ekm
