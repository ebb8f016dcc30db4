import QkdEkm.Ekm.Binding

/-!
# Release — no unit is released twice

A unit leaves the EKM in the answer to `/new`, or as the material of a
KEK. Both paths start with a unit that has no binding and end with one
that has, so a released unit is never allocated again, whatever the
source delivers and however often the process is restarted.
-/

namespace QkdEkm.Ekm

open QkdEkm.Common QkdEkm.Lib

/-! ## What a step releases -/

/-- The purpose and the object that a unit is released for. -/
structure Release where
  unit : String
  purpose : Purpose
  objectId : String
  deriving DecidableEq

/-- The KEK rows that a step adds. -/
def newKeks (m : Moment Process Act (Option Response)) : List KekRow :=
  m.post.store.kek.rows.filter fun row => decide (row ∉ m.pre.store.kek.rows)

/-- The unit that a step answers. -/
def answered (m : Moment Process Act (Option Response)) : List Release :=
  match m.act, m.out with
  | .request (.new peer purpose) _ _, some ⟨200, .newKey keyId _ _⟩ =>
    (newPurpose purpose).toList.map fun u => ⟨keyId, u, peer ++ ":" ++ keyId⟩
  | _, _ => []

def releases (m : Moment Process Act (Option Response)) : List Release :=
  answered m ++ (newKeks m).map fun row => ⟨row.qkdKeyId, .ekm, row.objectId⟩

/-- The units released along a run from the empty database. -/
def released (aead : Aead) (cfg : Config) (acts : List Act) : List Release :=
  (trace (step aead cfg) (boot .empty) acts).flatMap releases

theorem newKeks_of_same {m : Moment Process Act (Option Response)}
    (h : m.post.store.kek = m.pre.store.kek) : newKeks m = [] := by
  unfold newKeks
  rw [h]
  exact List.filter_eq_nil_iff.mpr fun row hrow => by simpa using hrow

theorem newKeks_of_putKek {m : Moment Process Act (Option Response)} {row : KekRow}
    (hn : m.pre.store.kekRow row.objectId = none)
    (h : m.post.store.kek = (m.pre.store.putKek row).kek) : newKeks m = [row] := by
  have hfresh : row ∉ m.pre.store.kek.rows := by
    intro hrow
    rw [kekRow_eq_some.mpr ⟨hrow, rfl⟩] at hn
    cases hn
  have hold : ∀ a ∈ m.pre.store.kek.rows.filter (fun a => !decide (KekRow.Clash a row)),
      ¬ decide (a ∉ m.pre.store.kek.rows) = true := by
    intro a ha
    simpa using (List.mem_filter.mp ha).1
  unfold newKeks
  rw [h]
  simp only [Store.putKek, Table.replace, List.filter_append, List.filter_eq_nil_iff.mpr hold,
    List.nil_append]
  exact List.filter_cons_of_pos (by simpa using hfresh)

/-- A step releases at most one unit, one without a binding, and binds it. -/
inductive ReleaseStep (s s' : Store) : List Release → Prop
  | none : ReleaseStep s s' []
  | one {unit u o} (peer) (fresh : s.isConsumed unit = false)
      (bound : ⟨unit, u, o, peer⟩ ∈ s'.bindings.rows) : ReleaseStep s s' [⟨unit, u, o⟩]

section

variable {aead : Aead} {cfg : Config} {p : Process}

theorem releases_kek {units : List Key} {m : Moment Process Act (Option Response)}
    (h : Backed aead cfg units m.pre.store) (hl : ¬ LosesBinding aead cfg m.pre m.act)
    (hstep : StoreStep aead cfg m.pre m.act m.post.store) (ha : answered m = []) :
    ReleaseStep m.pre.store m.post.store (releases m) := by
  unfold releases
  rw [ha, List.nil_append]
  generalize hpost : m.post.store = store at hstep ⊢
  cases hstep with
  | same =>
    rw [newKeks_of_same (congrArg _ hpost)]
    exact .none
  | unbound hn _ _ hwhy =>
    obtain ⟨b, hb, hekm⟩ := hwhy.resolve_left hl
    exact absurd hekm (h.unbound hn b hb)
  | wrapped hn ht hk hb =>
    obtain ⟨hkek, _, hrows⟩ := bind_ok hb
    rw [newKeks_of_putKek (hk.object ▸ hn) (hpost ▸ hkek)]
    refine .one cfg.bindPeer (hk.qkdKey ▸ ht.fresh) ?_
    rw [hrows, hk.qkdKey, hk.object]
    exact List.mem_append_right _ (List.mem_singleton.mpr rfl)
  | delivered _ _ hb =>
    rw [newKeks_of_same (hpost ▸ (bind_ok hb).1)]
    exact .none

theorem releases_new {units : List Key} (h : Backed aead cfg units p.store)
    (peer purpose : String) (fates : List Fate) (nonces : List Nonce) :
    let m := moment (step aead cfg) p (.request (.new peer purpose) fates nonces)
    ReleaseStep m.pre.store m.post.store (releases m) := by
  intro m
  obtain ⟨res, store, pool, hends, hstep⟩ := step_new aead cfg p peer purpose fates nonces
  have hm : m = ⟨p, .request (.new peer purpose) fates nonces,
      (respond { p with store, pool } res).2, (respond { p with store, pool } res).1⟩ := by
    unfold m moment
    rw [hstep]
  have hl : ¬ LosesBinding aead cfg m.pre m.act := by
    rintro ⟨_, _, _, _, _, _, _, _, hact, ⟨_, _, _, rfl, _⟩, _⟩
    cases hact
  have hstop : ∀ {stop}, res = .error stop → answered m = [] := by
    rintro stop rfl
    rw [hm]
    cases stop <;> simp [answered, respond]
  have hkek := releases_kek h hl (step_store p _)
  cases hends with
  | refused _ => exact hkek (hstop rfl)
  | @bound u key _ _ _ hu ht hb hr =>
    -- answered, or the process died behind the commit
    rcases hr with rfl | rfl
    · obtain ⟨hk, _, hrows⟩ := bind_ok hb
      have hkeks : newKeks m = [] := newKeks_of_same (by rw [hm]; exact hk)
      have hans : answered m = [⟨key.keyId, u, peer ++ ":" ++ key.keyId⟩] := by
        rw [hm]
        simp [answered, respond, hu]
      unfold releases
      rw [hkeks, hans]
      refine .one peer ht.fresh ?_
      rw [hm]
      exact hrows ▸ List.mem_append_right _ (List.mem_singleton.mpr rfl)
    · exact hkek (hstop rfl)

/-- **A step releases at most one unit**, one that has no binding yet. -/
theorem step_releases {units : List Key} (h : Backed aead cfg units p.store) {a : Act}
    (hl : ¬ LosesBinding aead cfg p a) :
    ReleaseStep p.store (step aead cfg p a).1.store (releases (moment (step aead cfg) p a)) := by
  have hkek : answered (moment (step aead cfg) p a) = [] →
      ReleaseStep p.store (step aead cfg p a).1.store (releases (moment (step aead cfg) p a)) :=
    releases_kek (m := moment (step aead cfg) p a) h hl (step_store p a)
  cases a with
  | request r fates nonces =>
    cases r with
    | new peer purpose => exact releases_new h peer purpose fates nonces
    | healthz | keyOp _ _ | describe _ | state | authority _ | ack => exact hkek rfl
  | pull _ _ | expire _ _ | restart => exact hkek rfl

/-! ## Any run -/

/-- What was released is bound, and was released once. -/
structure Ledger (rs : List Release) (s : Store) : Prop where
  distinct : (rs.map (·.unit)).Nodup
  bound : ∀ r ∈ rs, ∃ peer, ⟨r.unit, r.purpose, r.objectId, peer⟩ ∈ s.bindings.rows

theorem ledger_step {rs new : List Release} {s s' : Store} (h : Ledger rs s)
    (hkeep : s.bindings.rows ⊆ s'.bindings.rows) (hnew : ReleaseStep s s' new) :
    Ledger (rs ++ new) s' := by
  have hold : ∀ r ∈ rs, ∃ peer, ⟨r.unit, r.purpose, r.objectId, peer⟩ ∈ s'.bindings.rows := by
    intro r hr
    obtain ⟨peer, hb⟩ := h.bound r hr
    exact ⟨peer, hkeep hb⟩
  cases hnew with
  | none => exact ⟨by simpa using h.distinct, by simpa using hold⟩
  | @one unit u o peer fresh bound =>
    refine ⟨?_, ?_⟩
    · rw [List.map_append, List.nodup_append]
      refine ⟨h.distinct, List.nodup_singleton _, ?_⟩
      intro unit' hmem unit'' hnew heq
      obtain ⟨r, hr, rfl⟩ := List.mem_map.mp hmem
      obtain rfl := List.mem_singleton.mp hnew
      obtain ⟨peer', hb⟩ := h.bound r hr
      -- a unit that was released has a binding
      rw [isConsumed_iff.mpr ⟨_, hb, heq⟩] at fresh
      cases fresh
    · intro r hr
      rcases List.mem_append.mp hr with hr | hr
      · exact hold r hr
      · obtain rfl := List.mem_singleton.mp hr
        exact ⟨peer, bound⟩

/-- A step whose writes all commit. -/
def Act.Faultless : Act → Prop
  | .request _ fates _ => ∀ fate ∈ fates, fate = .commits
  | _ => True

theorem Act.Faultless.headD {fates : List Fate} (h : ∀ fate ∈ fates, fate = .commits) :
    fates.headD .commits = .commits := by
  cases fates with
  | nil => rfl
  | cons fate fates => exact h fate (List.mem_cons_self ..)

theorem Act.Faultless.not_loses {a : Act} (h : a.Faultless) : ¬ LosesBinding aead cfg p a := by
  rintro ⟨r, fates, nonces, _, _, _, _, _, rfl, _, _, _, hl⟩
  have hfirst : fates.headD .commits = .commits := Faultless.headD h
  have hsecond : fates.tail.headD .commits = .commits :=
    Faultless.headD fun fate hf => h fate (List.mem_of_mem_tail hf)
  rw [Loses, hfirst, hsecond] at hl
  simp at hl

variable (aead cfg) in
theorem ledger_run {acts : List Act} (hacts : ∀ a ∈ acts, a.Faultless) :
    Ledger (released aead cfg acts) (exec (step aead cfg) (boot .empty) acts).store := by
  refine (trace_invariant (fun past p =>
    Sound aead cfg (past.flatMap deliveries) p ∧ Ledger (past.flatMap releases) p.store)
    (fun m => m.act.Faultless) ⟨sound_boot, ⟨List.nodup_nil, by rintro _ ⟨⟩⟩⟩ ?_ ?_).2
  · rintro past p a ⟨h, hledger⟩ ha
    refine ⟨by simpa using sound_step h a, ?_⟩
    simpa using ledger_step hledger (step_store p a).bindings.subset
      (step_releases h.backed ha.not_loses)
  · intro m hm
    obtain ⟨before, after, hsplit, _⟩ := mem_trace hm
    exact hacts _ (hsplit ▸ List.mem_append_right _ (List.mem_cons_self ..))

/-- The label of a KEK is the id of the unit whose material it is. -/
theorem newKeks_unit {acts : List Act} {m : Moment Process Act (Option Response)}
    (hm : m ∈ trace (step aead cfg) (boot .empty) acts) {row : KekRow} (hrow : row ∈ newKeks m) :
    ∃ kek, row.material aead cfg.localKey = some kek ∧
      ⟨row.qkdKeyId, kek⟩ ∈ delivered aead cfg acts := by
  obtain ⟨before, after, hsplit, hmoment⟩ := mem_trace hm
  have h := (sound_run aead cfg (before ++ [m.act])).backed.unit row (by
    rw [exec_append, exec, exec]
    rw [hmoment] at hrow
    exact (List.mem_filter.mp hrow).1)
  obtain ⟨kek, hkek, hu⟩ := h
  refine ⟨kek, hkek, ?_⟩
  have hacts : acts = (before ++ [m.act]) ++ after := by simpa using hsplit
  unfold delivered
  rw [hacts, trace_append, List.flatMap_append]
  exact List.mem_append_left _ hu

/-- **No unit is released twice.** Along every run from the empty
database in which writes commit, the released units are distinct; each
has exactly one binding, for what it was released for, now and ever
after; and the unit of a KEK is the one whose material it is. -/
theorem released_once (aead : Aead) (cfg : Config) {acts : List Act}
    (hacts : ∀ a ∈ acts, a.Faultless) :
    ((released aead cfg acts).map (·.unit)).Nodup ∧
    (∀ r ∈ released aead cfg acts, ∃ peer, ∀ later,
      (exec (step aead cfg) (boot .empty) (acts ++ later)).store.bindings.rows.filter
        (fun b => b.qkdKeyId == r.unit) = [⟨r.unit, r.purpose, r.objectId, peer⟩]) ∧
    (∀ m ∈ trace (step aead cfg) (boot .empty) acts, ∀ row ∈ newKeks m,
      ∃ kek, row.material aead cfg.localKey = some kek ∧
        ⟨row.qkdKeyId, kek⟩ ∈ delivered aead cfg acts) := by
  have h := ledger_run aead cfg hacts
  refine ⟨h.distinct, ?_, fun m hm row hrow => newKeks_unit hm hrow⟩
  intro r hr
  obtain ⟨peer, hb⟩ := h.bound r hr
  refine ⟨peer, fun later => ?_⟩
  rw [exec_append]
  refine Table.filter_eq_singleton (fun a b ha hb => ?_)
    ((bindings_exec _ later).subset hb) (by simp)
  simp only [beq_iff_eq] at ha hb
  exact .inl (ha.trans hb.symm)

end

/-- `u1` is delivered twice and `u2` once. Both copies of `u1` are
asked for, then a wrap takes `u2`. -/
def deliveredTwice : List Act :=
  List.replicate 4 (.pull (.keys [firstKey, firstKey, ⟨"u2", List.replicate 32 2⟩]) 0) ++
    [.request (.new "QKD2") [] [], .request (.new "QKD2" "file") [] [], .request wrapHi [] []]

theorem released_once_deliveredTwice :
    released .tagging onePeer deliveredTwice =
        [⟨"u1", .vpn, "QKD2:u1"⟩, ⟨"u2", .ekm, "k"⟩] ∧
      ∃ peer, ∀ later,
        (exec (step .tagging onePeer) (boot .empty)
          (deliveredTwice ++ later)).store.bindings.rows.filter
          (fun b => b.qkdKeyId == "u1") = [⟨"u1", .vpn, "QKD2:u1", peer⟩] := by
  have hrun : released .tagging onePeer deliveredTwice =
      [⟨"u1", .vpn, "QKD2:u1"⟩, ⟨"u2", .ekm, "k"⟩] := by decide +kernel
  have hfaultless : ∀ a ∈ deliveredTwice, a.Faultless := by
    intro a ha
    simp only [deliveredTwice, List.replicate, List.cons_append, List.nil_append, List.mem_cons,
      List.not_mem_nil, or_false] at ha
    rcases ha with rfl | rfl | rfl | rfl | rfl | rfl | rfl <;> simp [Act.Faultless]
  exact ⟨hrun, (released_once .tagging onePeer hfaultless).2.1 ⟨"u1", .vpn, "QKD2:u1"⟩
    (by simp [hrun])⟩

end QkdEkm.Ekm
