import QkdEkm.Ekm.Permanence
import QkdEkm.Model.Checked

/-!
# Refine — the live control flags against the reference model

The running EKM keeps three flags: whether the source was up when it was
last looked at, whether the operator grants continuity authority, and
whether a recovery waits for its acknowledgement. The model keeps the
same three and moves them by guarded events. `Turn` lists what a handler
does to the flags; each turn is one event of the model or none, except
an acknowledgement that comes too early.
-/

namespace QkdEkm.Ekm

open QkdEkm.Common QkdEkm.Lib
open QkdEkm.Model (State Domain Event Reached defaultRules enabled guards)

/-- The process starts anew after this step. -/
def Dies (m : Moment Process Act (Option Response)) : Prop := died m.act m.out = true

/-! ## What a step does to the flags -/

/-- What a step of a process that lives on does to its flags. -/
inductive Turn (p : Process) : Act → Control → Prop
  | kept {a} : Turn p a p.control
  | sampled {r fates nonces} : Turn p (.request r fates nonces) p.checkRecovery.control
  | authority {value fates nonces} : Turn p (.request (.authority (some value)) fates nonces)
      { p.control with continuityAuthority := value }
  | acked {fates nonces} : Turn p (.request .ack fates nonces)
      { p.control with recoveryPending := false }

section

variable {aead : Aead} {cfg : Config} {p : Process}

/-- A request that is answered leaves the flags its handler left. -/
theorem respond_control {p' : Process} {res : Except Stop Reply} {r : Request}
    {fates : List Fate} {nonces : List Nonce}
    (hstep : step aead cfg p (.request r fates nonces) = respond p' res)
    (hturn : Turn p (.request r fates nonces) p'.control) :
    let m := moment (step aead cfg) p (.request r fates nonces)
    (Dies m ∧ m.post.control = (boot p.store).control) ∨ Turn p m.act m.post.control := by
  intro m
  have hout : m.out = (respond p' res).2 := congrArg Prod.snd hstep
  have hpost : m.post = (respond p' res).1 := congrArg Prod.fst hstep
  rcases res with (e | _) | reply
  · exact .inr (by rw [hpost]; exact hturn)
  · refine .inl ⟨?_, by rw [hpost]; rfl⟩
    show died (.request r fates nonces) m.out = true
    rw [hout]
    rfl
  · exact .inr (by rw [hpost]; exact hturn)

variable (aead cfg) in
/-- **Inversion of a step, on the flags.** -/
theorem step_turn (p : Process) (a : Act) :
    let m := moment (step aead cfg) p a
    (Dies m ∧ m.post.control = (boot p.store).control) ∨ Turn p m.act m.post.control := by
  intro m
  cases a with
  | pull answer now => exact .inr .kept
  | expire peer now => exact .inr .kept
  | restart => exact .inl ⟨rfl, rfl⟩
  | request r fates nonces =>
    cases r with
    | healthz => exact .inr .kept
    | describe keyIdOp =>
      refine respond_control (?_ : step aead cfg p _ = respond p
        (if ':' ∈ keyIdOp.toList then
          .error (.raised (httpError 404 ("unknown operation " ++ keyIdOp)))
        else .ok (.described keyIdOp "MANUAL"))) .kept
      unfold step handle describeKey
      by_cases hc : ':' ∈ keyIdOp.toList
      · simp only [if_pos hc]
        rfl
      · simp only [if_neg hc]
        rfl
    -- these handlers touch the flags, and a wrap samples; all others keep them
    | state => exact .inr .sampled
    | authority value =>
      cases value with
      | none => exact .inr .kept
      | some value => exact .inr .authority
    | ack => exact .inr .acked
    | keyOp keyIdOp body =>
      obtain ⟨res, p', hends, hstep⟩ := step_request aead cfg p (.keyOp keyIdOp body) fates nonces
      refine respond_control hstep ?_
      cases hends with
      | wrap _ _ => exact .sampled
      | unwrap _ _ | malformed _ => exact .kept
      | other hk _ => cases hk
    | new peer purpose =>
      obtain ⟨res, store, pool, _, hstep⟩ := step_new aead cfg p peer purpose fates nonces
      exact respond_control hstep .kept

end

/-! ## The flags of the model -/

/-- The state of the model carries the flags of the process. The EKM that
answers is reachable. -/
structure Carries (s : State) (c : Control) : Prop where
  sq : s.sq = c.sourceSeen
  se : s.se = true
  authority : s.authority = c.continuityAuthority
  recovery : s.recovery = c.recoveryPending

/-- The events of the model that move these flags. -/
def flagEvents : List String :=
  ["src_down", "src_up", "authority_withdraw", "authority_grant", "recover"]

/-- In every state that carries `c` the model offers one of these events,
and it leads to a state that carries `c'`. -/
def Offered (dom : Domain) (c c' : Control) : Prop :=
  ∀ s, Carries s c → ∃ label t, label ∈ flagEvents ∧ (label, t) ∈ enabled dom s defaultRules ∧
    Carries t c'

/-- No guard of the model forbids to end the recovery. -/
def Reconciles (c : Control) : Prop :=
  ∀ s t, Carries s c → guards "recover" s t = []

/-- The step moves the flags as the model does, or starts the process
anew. -/
def Refines (dom : Domain) (m : Moment Process Act (Option Response)) : Prop :=
  (Dies m ∧ m.post.control = (boot m.pre.store).control) ∨
    ((m.post.control = m.pre.control ∨ Offered dom m.pre.control m.post.control) ∧
      (m.pre.control.recoveryPending = true → m.post.control.recoveryPending = false →
        Reconciles m.pre.control))

/-- The recovery is acknowledged while the source was last seen down. -/
def AcksEarly (m : Moment Process Act (Option Response)) : Prop :=
  (∃ fates nonces, m.act = .request .ack fates nonces) ∧
    m.pre.control.recoveryPending = true ∧ m.pre.control.sourceSeen = false

/-- Some state carries any flags. -/
def Control.toState (c : Control) : State where
  sq := c.sourceSeen
  authority := c.continuityAuthority
  recovery := c.recoveryPending

theorem carries_toState (c : Control) : Carries c.toState c := ⟨rfl, rfl, rfl, rfl⟩

section

variable {dom : Domain} {c c' : Control} {s : State}

theorem offered_of (ev : Event) (hev : ev.label defaultRules ∈ flagEvents)
    (he : ∀ s, Carries s c → ev.Enabled dom defaultRules s)
    (ht : ∀ s, Carries s c → Carries (ev.apply defaultRules s) c') : Offered dom c c' :=
  fun s hs => ⟨_, _, hev, (he s hs).fires, ht s hs⟩

theorem reconciles_iff : Reconciles c ↔ c.sourceSeen = true ∧ c.recoveryPending = true := by
  have hfamily : (partition "recover" ':').1 = "recover" := by decide +kernel
  have hguards : ∀ s t, guards "recover" s t = [] ↔ (s.sq && s.se && s.recovery) = true := by
    intro s t
    simp [guards, hfamily]
  constructor
  · intro h
    have := (hguards _ _).mp (h c.toState c.toState (carries_toState c))
    simpa [Control.toState] using this
  · rintro ⟨hsq, hrec⟩ s t hs
    rw [hguards, hs.sq, hs.se, hs.recovery, hsq, hrec]
    rfl

/-- Sampling the source is `src_down`, `src_up` or nothing. -/
theorem checkRecovery_offered (p : Process) :
    p.checkRecovery.control = p.control ∨ Offered dom p.control p.checkRecovery.control := by
  have hafter : p.checkRecovery.control =
      { p.control with
        recoveryPending := p.control.recoveryPending ||
          (p.pool.sourceAvailable && !p.control.sourceSeen)
        sourceSeen := p.pool.sourceAvailable } := rfl
  rw [hafter]
  generalize p.pool.sourceAvailable = available
  obtain ⟨authority, pending, seen⟩ := p.control
  -- an edge of the source is an event; a level is none
  cases seen with
  | true =>
    cases available with
    | true => exact .inl (by simp)
    | false =>
      refine .inr (offered_of .srcDown (by decide) (fun s hs => .inl hs.sq) fun s hs => ?_)
      refine ⟨rfl, hs.se, hs.authority, ?_⟩
      show s.recovery = (pending || (false && !true))
      simpa using hs.recovery
  | false =>
    cases available with
    | true =>
      refine .inr (offered_of .srcUp (by decide) (fun s hs => .inl hs.sq) fun s hs => ?_)
      refine ⟨rfl, hs.se, hs.authority, ?_⟩
      show true = (pending || (true && !false))
      simp
    | false => exact .inl (by simp)

/-- Setting the authority is `authority_grant`, `authority_withdraw` or
nothing. -/
theorem authority_offered (value : Bool) :
    { c with continuityAuthority := value } = c ∨
      Offered dom c { c with continuityAuthority := value } := by
  by_cases hsame : c.continuityAuthority = value
  · exact .inl (by rw [← hsame])
  · refine .inr ?_
    cases value with
    | true =>
      have hc : c.continuityAuthority = false := by simpa using hsame
      refine offered_of .authorityGrant (by decide)
        (fun s hs => ⟨.inl rfl, .inl (hs.authority.trans hc)⟩) ?_
      intro s hs
      exact ⟨hs.sq, hs.se, rfl, hs.recovery⟩
    | false =>
      have hc : c.continuityAuthority = true := by simpa using hsame
      refine offered_of .authorityWithdraw (by decide)
        (fun s hs => ⟨.inl rfl, .inl (hs.authority.trans hc)⟩) ?_
      intro s hs
      exact ⟨hs.sq, hs.se, rfl, hs.recovery⟩

/-- An acknowledgement after the source was seen up is `recover`. -/
theorem ack_offered (hseen : c.sourceSeen = true) (hpending : c.recoveryPending = true) :
    Offered dom c { c with recoveryPending := false } := by
  refine offered_of .recover (by decide) (fun s hs =>
    ⟨hs.sq.trans hseen, hs.se, hs.recovery.trans hpending, .inr rfl⟩) ?_
  intro s hs
  exact ⟨hs.sq, hs.se, hs.authority, rfl⟩

/-- Only `recover` ends a recovery, and only with the source up. -/
theorem not_offered_of_down (hseen : c.sourceSeen = false) (hpending : c.recoveryPending = true)
    (hdone : c'.recoveryPending = false) : ¬ Offered dom c c' := by
  intro h
  obtain ⟨label, t, _, hmem, ht⟩ := h c.toState (carries_toState c)
  obtain ⟨ev, he, rfl, rfl⟩ := Model.fires_iff.mp hmem
  -- every other event keeps a recovery that is pending, or starts one
  have hkeep : ∀ {r : Bool}, (ev.apply defaultRules c.toState).recovery = r → r = true → False := by
    rintro r hr rfl
    rw [ht.recovery, hdone] at hr
    cases hr
  have hpend : c.toState.recovery = true := hpending
  cases ev with
  | recover =>
    have hsq : c.toState.sq = false := hseen
    rw [he.1] at hsq
    cases hsq
  | srcUp | ekmUp => exact hkeep rfl rfl
  | activateVpn =>
    obtain ⟨_, k, e, hp, _⟩ := he
    cases hp
  | abandonPending | sessionEnd | reconcile => exact absurd he.1 Bool.false_ne_true
  | _ => exact hkeep rfl hpend

end

/-! ## One step -/

section

variable {aead : Aead} {cfg : Config} {dom : Domain} {p : Process}

theorem refines_of_turn {m : Moment Process Act (Option Response)}
    (hturn : Turn m.pre m.act m.post.control) (hack : ¬ AcksEarly m) : Refines dom m := by
  refine .inr ?_
  generalize hact : m.act = act at hturn
  generalize hpost : m.post.control = c' at hturn
  cases hturn with
  | kept =>
    refine ⟨.inl rfl, fun hpending hdone => ?_⟩
    rw [hdone] at hpending
    cases hpending
  | sampled =>
    refine ⟨checkRecovery_offered m.pre, fun hpending hdone => ?_⟩
    -- sampling ends no recovery
    have : (m.pre.control.recoveryPending || _) = false := hdone
    rw [hpending] at this
    cases this
  | authority =>
    refine ⟨authority_offered _, fun hpending hdone => ?_⟩
    have : m.pre.control.recoveryPending = false := hdone
    rw [hpending] at this
    cases this
  | acked =>
    have hseen : m.pre.control.recoveryPending = true → m.pre.control.sourceSeen = true := by
      intro hpending
      by_contra hdown
      exact hack ⟨⟨_, _, hact⟩, hpending, by simpa using hdown⟩
    refine ⟨?_, fun hpending _ => reconciles_iff.mpr ⟨hseen hpending, hpending⟩⟩
    by_cases hpending : m.pre.control.recoveryPending = true
    · exact .inr (ack_offered (hseen hpending) hpending)
    · refine .inl ?_
      have : m.pre.control.recoveryPending = false := by simpa using hpending
      rw [← this]

/-- **One step refines the model if and only if it is no early
acknowledgement.** -/
theorem refines_iff (p : Process) (a : Act) :
    Refines dom (moment (step aead cfg) p a) ↔ ¬ AcksEarly (moment (step aead cfg) p a) := by
  constructor
  · rintro h ⟨⟨fates, nonces, hact⟩, hpending, hdown⟩
    obtain rfl : a = .request .ack fates nonces := hact
    rcases h with ⟨hdies, _⟩ | ⟨h, _⟩
    · exact absurd hdies Bool.false_ne_true
    · rcases h with hsame | hoffered
      · have hkept : false = p.control.recoveryPending := congrArg Control.recoveryPending hsame
        have hp : p.control.recoveryPending = true := hpending
        rw [hp] at hkept
        cases hkept
      · exact not_offered_of_down hdown hpending rfl hoffered
  · intro hack
    rcases step_turn aead cfg p a with hdies | hturn
    · exact .inl hdies
    · exact refines_of_turn hturn hack

/-- A step that moves the flags as the model does is matched by the model. -/
theorem Refines.matched {m : Moment Process Act (Option Response)} (h : Refines dom m) {s : State}
    (hr : Reached dom defaultRules s) (hs : Carries s m.pre.control) :
    ∃ t, Reached dom defaultRules t ∧ Carries t m.post.control := by
  rcases h with ⟨_, hboot⟩ | ⟨hsame | hoffered, _⟩
  · exact ⟨Model.initial, Reachable.refl _, by rw [hboot]; exact ⟨rfl, rfl, rfl, rfl⟩⟩
  · exact ⟨s, hr, hsame ▸ hs⟩
  · obtain ⟨label, t, _, hf, ht⟩ := hoffered s hs
    exact ⟨t, hr.tail hf, ht⟩

/-! ## Any run -/

/-- **The model simulates the flags**: after every run without an early
acknowledgement some reachable state of the model carries them. -/
theorem control_simulated (store : Store) {acts : List Act}
    (hacts : ∀ m ∈ trace (step aead cfg) (boot store) acts, ¬ AcksEarly m) :
    ∃ s, Reached dom defaultRules s ∧
      Carries s (exec (step aead cfg) (boot store) acts).control := by
  refine trace_invariant (fun _ p => ∃ s, Reached dom defaultRules s ∧ Carries s p.control) _
    ⟨Model.initial, Reachable.refl _, rfl, rfl, rfl, rfl⟩ ?_ hacts
  rintro past p a ⟨s, hr, hs⟩ hack
  exact ((refines_iff p a).mpr hack).matched hr hs

end

/-- **The live control flags refine the reference model** in exactly the
runs in which no recovery is acknowledged while the source was last seen
down. -/
theorem control_refines (aead : Aead) (cfg : Config) (dom : Domain) (store : Store)
    (acts : List Act) :
    (∀ m ∈ trace (step aead cfg) (boot store) acts, Refines dom m) ↔
      ∀ m ∈ trace (step aead cfg) (boot store) acts, ¬ AcksEarly m := by
  refine forall₂_congr fun m hm => ?_
  obtain ⟨before, after, _, hmoment⟩ := mem_trace hm
  rw [hmoment]
  exact refines_iff _ _

/-- The source comes back, is seen, and fails again before the recovery
is acknowledged. -/
def flapping : List Act :=
  let seen : Act := .request .state [] []
  let failing : List Act := List.replicate 4 (.pull .unavailable 0)
  let returning : List Act := List.replicate 4 (.pull (.keys [firstKey]) 0)
  failing ++ [seen] ++ returning ++ [seen] ++ failing ++ [seen]

/-- **An early acknowledgement ends the recovery with the source down.** -/
theorem control_flaps :
    ¬ ∀ m ∈ trace (step .tagging onePeer) (boot .empty) (flapping ++ [.request .ack [] []]),
      Refines Model.declared m := by
  intro h
  have hack := h _ (mem_trace_append (boot .empty) flapping (.request .ack [] []) [])
  refine (refines_iff _ _).mp hack ⟨⟨[], [], rfl⟩, ?_, ?_⟩
  · show (exec (step .tagging onePeer) (boot .empty) flapping).control.recoveryPending = true
    rfl
  · show (exec (step .tagging onePeer) (boot .empty) flapping).control.sourceSeen = false
    rfl

end QkdEkm.Ekm
