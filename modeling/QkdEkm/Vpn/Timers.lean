import QkdEkm.Vpn.Sections

/-!
# Timers — only the newest timer of a peer acts

A task that is replaced is cancelled in the same section, and a
cancelled task never runs. The rotation timer of a peer is replaced by
each key that is installed for it and by nothing else, so the timer that
flags a peer is the one that its newest key armed. `Clocked` adds the
clock of the event loop, by which sleeps are measured.
-/

namespace QkdEkm.Vpn

open QkdEkm.Common QkdEkm.Lib

section

variable {settings : VpnSettings} {s s' : Server} {k : String}

/-! ## Tasks come and go -/

/-- At most one task of a kind is live for a peer. -/
theorem Wf.unique (h : Wf s) {t t' : Nat} {task task' : Task}
    (ht : s.tasks.lookup t = some task) (ht' : s.tasks.lookup t' = some task')
    (hkind : task.work.kind = task'.work.kind) (hpub : task.work.pubkey = task'.work.pubkey) :
    t = t' := by
  have htracked := h.tracked t task ht
  rw [hkind, hpub, h.tracked t' task' ht'] at htracked
  exact (Option.some.inj htracked).symm

theorem Wf.lt_nextId (h : Wf s) {t : Nat} {task : Task} (ht : s.tasks.lookup t = some task) :
    t < s.nextId :=
  h.registered _ _ t (h.tracked t task ht)

/-- A task of the server after rescheduling was there before, or is the
new one. -/
theorem task_reschedule {delay : Time} {work : Work} {t : Nat} {task : Task}
    (ht : (s.reschedule delay work).tasks.lookup t = some task) :
    (t ≠ s.nextId ∧ (s.registry work.kind).lookup work.pubkey ≠ some t ∧
        s.tasks.lookup t = some task) ∨
      (t = s.nextId ∧ task = ⟨delay, work⟩) := by
  rw [reschedule_tasks] at ht
  split at ht
  · rename_i heq
    exact .inr ⟨heq, (Option.some.inj ht).symm⟩
  · rename_i hne
    split at ht
    · cases ht
    · rename_i hreg
      exact .inl ⟨hne, hreg, ht⟩

theorem task_cancel {t t' : Nat} {task : Task} (ht : (s.cancel t').tasks.lookup t = some task) :
    s.tasks.lookup t = some task := by
  simp only [Server.cancel, Dict.lookup_erase] at ht
  split at ht
  · cases ht
  · exact ht

theorem reschedule_nextId (s : Server) (delay : Time) (work : Work) :
    (s.reschedule delay work).nextId = s.nextId + 1 := by
  obtain ⟨tasks, timers, activations, heq⟩ := reschedule_eq s delay work
  rw [heq]

/-- A section of a running process hands out no name twice. -/
theorem Effect.nextId_le {a : Act} {out : Output} (h : Effect settings s a s' out)
    (ha : a ≠ .restart) : s.nextId ≤ s'.nextId := by
  cases h with
  | idle _ _ | refused _ _ _ | flagged _ _ | failed _ _ => exact Nat.le_refl _
  | startAsked | refreshAsked _ => exact Nat.le_succ _
  | installed _ _ _ _ | announced _ | activated _ _ _ =>
    rw [reschedule_nextId]
    exact Nat.le_succ _
  | restarted => exact absurd rfl ha

/-- A section of a running process starts no task under an old name. -/
theorem Effect.old_task {a : Act} {out : Output} (h : Effect settings s a s' out)
    (ha : a ≠ .restart) {t : Nat} {task : Task} (hlt : t < s.nextId)
    (ht : s'.tasks.lookup t = some task) : s.tasks.lookup t = some task := by
  cases h with
  | idle _ _ | refused _ _ _ | startAsked | refreshAsked _ => exact ht
  | flagged _ _ | failed _ _ => exact task_cancel ht
  | installed _ _ _ _ | announced _ =>
    rcases task_reschedule ht with ⟨_, _, ht⟩ | ⟨heq, _⟩
    · exact ht
    · exact absurd heq (Nat.ne_of_lt hlt)
  | activated _ _ _ =>
    rcases task_reschedule ht with ⟨_, _, ht⟩ | ⟨heq, _⟩
    · exact task_cancel ht
    · exact absurd heq (Nat.ne_of_lt hlt)
  | restarted => exact absurd rfl ha

/-! ## A task that is gone -/

/-- The task was scheduled, and is done or cancelled. -/
def Gone (t : Nat) (s : Server) : Prop := t < s.nextId ∧ s.tasks.lookup t = none

theorem gone_step (h : Wf s) {t : Nat} (hg : Gone t s) {a : Act} (ha : a ≠ .restart) :
    Gone t (step settings s a).1 := by
  have heff := step_effect settings h a
  refine ⟨Nat.lt_of_lt_of_le hg.1 (heff.nextId_le ha), ?_⟩
  by_contra hne
  obtain ⟨task, htask⟩ := Option.ne_none_iff_exists'.mp hne
  have hold := heff.old_task ha hg.1 htask
  rw [hg.2] at hold
  cases hold

theorem gone_exec (h : Wf s) {t : Nat} (hg : Gone t s) {later : List Act}
    (hlater : Act.restart ∉ later) : Gone t (exec (step settings) s later) := by
  induction later generalizing s with
  | nil => exact hg
  | cons a later ih =>
    simp only [List.mem_cons, not_or] at hlater
    exact ih (wf_step settings h a) (gone_step h hg (Ne.symm hlater.1)) hlater.2

/-- **A replaced task is gone**: it was the registered one, and another
is now. -/
theorem replaced_gone (h : Wf s) {a : Act} {kind : Kind} {t t' : Nat}
    (ht : (s.registry kind).lookup k = some t)
    (ht' : ((step settings s a).1.registry kind).lookup k = some t') (hne : t' ≠ t) :
    Gone t (step settings s a).1 := by
  have ha : a ≠ .restart := by
    rintro rfl
    cases kind <;> cases ht'
  have heff := step_effect settings h a
  have hlt := h.registered kind k t ht
  refine ⟨Nat.lt_of_lt_of_le hlt (heff.nextId_le ha), ?_⟩
  by_contra hlive
  obtain ⟨task, htask⟩ := Option.ne_none_iff_exists'.mp hlive
  obtain ⟨rfl, rfl⟩ := h.own kind k t task ht (heff.old_task ha hlt htask)
  have htracked := (wf_step settings h a).tracked t task htask
  rw [htracked] at ht'
  exact hne (Option.some.inj ht').symm

theorem fire_gone {t : Nat} (hg : Gone t s) (env : Env) :
    step settings s (.fire t env) = (s, .nothing) := by
  simp only [step, hg.2]

end

/-! ## The clock of the event loop -/

/-- A server, the time, and when each live task went to sleep. -/
structure Clocked where
  server : Server
  now : Time
  armedAt : Nat → Time

/-- A section at a reading of the clock. -/
def Clocked.step (settings : VpnSettings) (c : Clocked) (a : Time × Act) : Clocked × Output :=
  let (server, out) := Vpn.step settings c.server a.2
  ({ server
     now := a.1
     armedAt := fun t => if (c.server.tasks.lookup t).isSome then c.armedAt t else a.1 },
    out)

/-- The same section, without the clock. -/
def bare (m : Moment Clocked (Time × Act) Output) : Moment Server Act Output :=
  ⟨m.pre.server, m.act.2, m.out, m.post.server⟩

/-- The clock does not go back, and a task runs only after its sleep. -/
structure InTime (m : Moment Clocked (Time × Act) Output) : Prop where
  forward : m.pre.now ≤ m.act.1
  slept : ∀ t env task, m.act.2 = .fire t env → m.pre.server.tasks.lookup t = some task →
    m.pre.armedAt t + task.delay ≤ m.act.1

/-- `refresh_due` of `k` turns true. -/
def TurnsDue (k : String) (m : Moment Server Act Output) : Prop :=
  (∃ r, m.post.peers.lookup k = some r ∧ r.refreshDue = true) ∧
    ¬ ∃ r, m.pre.peers.lookup k = some r ∧ r.refreshDue = true

/-- The last section of `past` that installed a key for `k` did so at
`at'` and armed the timer `t`; the process has lived since. -/
def ArmedBy (settings : VpnSettings) (k : String) (t : Nat) (at' : Time)
    (past : List (Moment Clocked (Time × Act) Output)) : Prop :=
  ∃ before m after, past = before ++ m :: after ∧ Installs settings k (bare m) ∧
    m.post.server.timers.lookup k = some t ∧ m.act.1 = at' ∧
    ∀ m' ∈ after, ¬ Installs settings k (bare m') ∧ m'.act.2 ≠ .restart

/-- The file has what the table has, the clock went forward, and every
live rotation timer is that of the newest key. -/
structure Clockwise (settings : VpnSettings) (past : List (Moment Clocked (Time × Act) Output))
    (c : Clocked) : Prop where
  wf : Wf c.server
  file : c.server.file.getD ∅ = c.server.peers
  passed : ∀ m ∈ past, m.act.1 ≤ c.now
  ordered : past.Pairwise fun m m' => m.act.1 ≤ m'.act.1
  due : ∀ t delay k, c.server.tasks.lookup t = some ⟨delay, .due k⟩ →
    delay = settings.refreshS ∧ ArmedBy settings k t (c.armedAt t) past

section

variable {settings : VpnSettings} {s s' : Server} {k : String}

/-! ## One section -/

theorem file_step (h : Wf s) (hfile : s.file.getD ∅ = s.peers) (a : Act) :
    (step settings s a).1.file.getD ∅ = (step settings s a).1.peers := by
  have htables := step_tables settings h a
  generalize (step settings s a).1.peers = peers at htables ⊢
  generalize (step settings s a).1.file = file at htables ⊢
  cases htables with
  | same => exact hfile
  | reloaded | put _ _ => rfl

theorem Wf.fresh (h : Wf s) : s.tasks.lookup s.nextId = none := by
  by_contra hne
  obtain ⟨task, htask⟩ := Option.ne_none_iff_exists'.mp hne
  exact Nat.lt_irrefl _ (h.lt_nextId htask)

/-- The timer after a key was installed for `k'`: it is another peer's,
or the new one. -/
theorem due_reschedule (h : Wf s) {k' : String} {t : Nat} {delay : Time}
    (ht : (s.reschedule settings.refreshS (.due k')).tasks.lookup t = some ⟨delay, .due k⟩) :
    (k ≠ k' ∧ s.tasks.lookup t = some ⟨delay, .due k⟩) ∨
      (k = k' ∧ t = s.nextId ∧ delay = settings.refreshS ∧
        (s.reschedule settings.refreshS (.due k')).timers.lookup k = some t) := by
  rcases task_reschedule ht with ⟨_, hreg, hold⟩ | ⟨rfl, heq⟩
  · refine .inl ⟨?_, hold⟩
    rintro rfl
    -- the timer of `k` was registered, so it was cancelled
    exact hreg (h.tracked t _ hold)
  · cases heq
    refine .inr ⟨rfl, rfl, rfl, ?_⟩
    have hreg := reschedule_registry (s := s) settings.refreshS (.due k) .timer k
    rwa [if_pos ⟨rfl, rfl⟩] at hreg

/-- **Where a live rotation timer comes from**: it was live and no key
was installed for its peer, or the key that was just installed armed it. -/
theorem Effect.due {a : Act} {out : Output} (h : Wf s) (heff : Effect settings s a s' out)
    {t : Nat} {delay : Time} (ht : s'.tasks.lookup t = some ⟨delay, .due k⟩) :
    (s.tasks.lookup t = some ⟨delay, .due k⟩ ∧
        ¬ Installs settings k (moment (step settings) s a) ∧ a ≠ .restart) ∨
      (s.tasks.lookup t = none ∧ delay = settings.refreshS ∧ s'.timers.lookup k = some t ∧
        Installs settings k (moment (step settings) s a)) := by
  cases heff with
  | startAsked | refreshAsked _ =>
    refine .inl ⟨ht, ?_, by rintro ⟨⟩⟩
    rintro (⟨⟨⟩, _⟩ | ⟨⟨⟩, _⟩)
  | restarted => cases ht
  | @idle _ _ ha _ =>
    refine .inl ⟨ht, ?_, by rintro rfl; exact ha⟩
    rintro (⟨rfl, hc, _, _⟩ | ⟨rfl, ht, _⟩)
    · exact absurd (ha.symm.trans hc) (by rintro ⟨⟩)
    · exact absurd (ha.symm.trans ht) (by rintro ⟨⟩)
  | refused hc hfail _ =>
    refine .inl ⟨ht, ?_, by rintro ⟨⟩⟩
    rintro (⟨hact, hc', hrec, hwg⟩ | ⟨⟨⟩, _⟩)
    cases hact
    cases hc.symm.trans hc'
    rcases hfail with ⟨_, ⟨⟩⟩ | hnone | ⟨e, he⟩
    · exact hrec (recordFor_none.mpr hnone)
    · cases hwg.symm.trans he
  | announced hc =>
    rcases task_reschedule ht with ⟨_, _, hold⟩ | ⟨_, heq⟩
    · refine .inl ⟨hold, ?_, by rintro ⟨⟩⟩
      rintro (⟨hact, hc', _, _⟩ | ⟨⟨⟩, _⟩)
      cases hact
      cases hc.symm.trans hc'
    · cases heq
  | flagged ht' _ =>
    refine .inl ⟨task_cancel ht, ?_, by rintro ⟨⟩⟩
    rintro (⟨⟨⟩, _⟩ | ⟨hact, ht'', _⟩)
    cases hact
    cases ht'.symm.trans ht''
  | failed ht' hwg =>
    refine .inl ⟨task_cancel ht, ?_, by rintro ⟨⟩⟩
    rintro (⟨⟨⟩, _⟩ | ⟨hact, _, hwg'⟩)
    cases hact
    cases hwg.symm.trans hwg'
  | @installed c k' q keyId key env record new peers r hc hrec hwg _ =>
    have hwith : Wf (({ s.dropCall c with peers } : Server).withKey settings env k' record keyId
        key) :=
      (wf_withPeers (wf_dropCall h c) fun _ hk => recordFor_mem hrec hk).withKey
    rcases due_reschedule hwith ht with ⟨hne, hold⟩ | ⟨rfl, rfl, rfl, hreg⟩
    · refine .inl ⟨hold, ?_, by rintro ⟨⟩⟩
      rintro (⟨hact, hc', _, _⟩ | ⟨⟨⟩, _⟩)
      cases hact
      cases hc.symm.trans hc'
      exact hne rfl
    · exact .inr ⟨h.fresh, rfl, hreg,
        .start rfl hc (Option.ne_none_iff_exists'.mpr ⟨_, hrec⟩) hwg⟩
  | @activated t' delay' k' keyId key env record ht' hrec hwg =>
    rcases due_reschedule (h.cancel t').withKey ht with ⟨hne, hold⟩ | ⟨rfl, rfl, rfl, hreg⟩
    · refine .inl ⟨task_cancel hold, ?_, by rintro ⟨⟩⟩
      rintro (⟨⟨⟩, _⟩ | ⟨hact, ht'', _⟩)
      cases hact
      cases ht'.symm.trans ht''
      exact hne rfl
    · exact .inr ⟨h.fresh, rfl, hreg, .activation rfl ht' hwg⟩

variable {past : List (Moment Clocked (Time × Act) Output)} {c : Clocked}

theorem ArmedBy.later {t : Nat} {at' : Time} (h : ArmedBy settings k t at' past)
    {m : Moment Clocked (Time × Act) Output} (hm : ¬ Installs settings k (bare m))
    (hlives : m.act.2 ≠ .restart) : ArmedBy settings k t at' (past ++ [m]) := by
  obtain ⟨before, m', after, rfl, hinst, htimer, hat, hafter⟩ := h
  refine ⟨before, m', after ++ [m], by simp, hinst, htimer, hat, ?_⟩
  intro m'' hm''
  rcases List.mem_append.mp hm'' with hm'' | hm''
  · exact hafter m'' hm''
  · rw [List.mem_singleton.mp hm'']
    exact ⟨hm, hlives⟩

/-- **A section keeps every timer that of the newest key.** -/
theorem clockwise_step (h : Clockwise settings past c) {a : Time × Act}
    (ha : InTime (moment (Clocked.step settings) c a)) :
    Clockwise settings (past ++ [moment (Clocked.step settings) c a])
      (c.step settings a).1 where
  wf := wf_step settings h.wf a.2
  file := file_step h.wf h.file a.2
  passed := by
    intro m hm
    rcases List.mem_append.mp hm with hm | hm
    · exact Int.le_trans (h.passed m hm) ha.forward
    · rw [List.mem_singleton.mp hm]
      exact Int.le_refl _
  ordered := by
    refine List.pairwise_append.mpr ⟨h.ordered, List.pairwise_singleton _ _, ?_⟩
    intro m hm m' hm'
    rw [List.mem_singleton.mp hm']
    exact Int.le_trans (h.passed m hm) ha.forward
  due := by
    intro t delay k ht
    have hat : (c.step settings a).1.armedAt t =
        if (c.server.tasks.lookup t).isSome then c.armedAt t else a.1 := rfl
    rcases (step_effect settings h.wf a.2).due h.wf ht with
      ⟨hold, hno, hlives⟩ | ⟨hnew, hd, hreg, hinst⟩
    · rw [hat, hold]
      obtain ⟨hd, harmed⟩ := h.due t delay k hold
      exact ⟨hd, harmed.later hno hlives⟩
    · rw [hat, hnew]
      exact ⟨hd, past, _, [], rfl, hinst, hreg, rfl, by rintro m' ⟨⟩⟩

/-- **A peer turns due by the timer of its newest key**, which is at
least as old as that timer's sleep. -/
theorem turnsDue_armed (h : Clockwise settings past c) {a : Time × Act}
    (ha : InTime (moment (Clocked.step settings) c a))
    (hturns : TurnsDue k (bare (moment (Clocked.step settings) c a))) :
    ∃ t env armedAt, a.2 = .fire t env ∧ ArmedBy settings k t armedAt past ∧
      armedAt + settings.refreshS ≤ a.1 := by
  obtain ⟨⟨r, hr, hdue⟩, hwas⟩ := hturns
  have hrec := (step_effect settings h.wf a.2).record h.file k
  change (step settings c.server a.2).1.peers.lookup k = some r at hr
  rw [hr] at hrec
  obtain ⟨at', act⟩ := a
  dsimp only at hrec ⊢
  generalize hsome : some r = found at hrec
  cases hrec with
  | kept => exact absurd ⟨r, hsome.symm, hdue⟩ hwas
  | @flagged t delay env record ht hrec =>
    obtain ⟨rfl, harmed⟩ := h.due t delay k ht
    exact ⟨t, env, _, rfl, harmed, ha.slept t env _ rfl ht⟩
  -- an installed key is not due
  | started hc hrec hwg =>
    cases hsome
    cases hdue
  | activated ht hrec hwg =>
    cases hsome
    cases hdue

/-- No key that was ever installed for the peer is newer than the last. -/
theorem ArmedBy.newest {t : Nat} {at' : Time} (h : ArmedBy settings k t at' past)
    (hordered : past.Pairwise fun m m' => m.act.1 ≤ m'.act.1)
    {m : Moment Clocked (Time × Act) Output} (hm : m ∈ past)
    (hinst : Installs settings k (bare m)) : m.act.1 ≤ at' := by
  obtain ⟨before, m', after, rfl, _, _, rfl, hafter⟩ := h
  rcases List.mem_append.mp hm with hm | hm
  · exact (List.pairwise_append.mp hordered).2.2 m hm m' (List.mem_cons_self ..)
  · rcases List.mem_cons.mp hm with rfl | hm
    · exact Int.le_refl _
    · exact absurd hinst (hafter m hm).1

/-! ## Any run -/

/-- A process over a peers file, at some time. -/
def Clocked.boot (file : Option PeerTable) (wg : String → Option WgPeer) (now : Time) :
    Clocked where
  server := Vpn.boot file wg
  now := now
  armedAt := fun _ => now

theorem clockwise_run (settings : VpnSettings) (file : Option PeerTable)
    (wg : String → Option WgPeer) (now : Time) {acts : List (Time × Act)}
    (hacts : ∀ m ∈ trace (Clocked.step settings) (.boot file wg now) acts, InTime m) :
    Clockwise settings (trace (Clocked.step settings) (.boot file wg now) acts)
      (exec (Clocked.step settings) (.boot file wg now) acts) := by
  refine trace_invariant (Clockwise settings) InTime ?_
    (fun _ _ _ h ha => clockwise_step h ha) hacts
  exact {
    wf := wf_boot file wg
    file := rfl
    passed := by rintro m ⟨⟩
    ordered := .nil
    due := by rintro t delay k ⟨⟩ }

end

/-- **Superseded timers never act.** After every run over any peers file:
a peer has at most one live task of each kind; a task that is replaced
does nothing for as long as the process lives; and if the clock did not
go back and nothing woke too early, `refresh_due` of a peer turns true
only through the timer that its newest key armed, when every key that
was installed for it is at least `refresh_s` old. -/
theorem superseded_timers_never_act (settings : VpnSettings) (file : Option PeerTable)
    (wg : String → Option WgPeer) :
    (∀ acts t t' task task', let s := exec (step settings) (boot file wg) acts
      s.tasks.lookup t = some task → s.tasks.lookup t' = some task' →
      task.work.kind = task'.work.kind → task.work.pubkey = task'.work.pubkey → t = t') ∧
    (∀ acts a later kind k t t', let s := exec (step settings) (boot file wg) acts
      (s.registry kind).lookup k = some t →
      ((step settings s a).1.registry kind).lookup k = some t' → t' ≠ t → Act.restart ∉ later →
      let s' := exec (step settings) (step settings s a).1 later
      s'.tasks.lookup t = none ∧ ∀ env, step settings s' (.fire t env) = (s', .nothing)) ∧
    ∀ now acts a k, let c := exec (Clocked.step settings) (.boot file wg now) acts
      let past := trace (Clocked.step settings) (.boot file wg now) acts
      (∀ m ∈ past ++ [moment (Clocked.step settings) c a], InTime m) →
      TurnsDue k (bare (moment (Clocked.step settings) c a)) →
      (∃ t env armedAt, a.2 = .fire t env ∧ ArmedBy settings k t armedAt past) ∧
        ∀ m ∈ past, Installs settings k (bare m) → m.act.1 + settings.refreshS ≤ a.1 := by
  have hwf : ∀ acts, Wf (exec (step settings) (boot file wg) acts) := fun acts =>
    exec_invariant Wf (wf_boot file wg) (fun _ a h => wf_step settings h a) acts
  refine ⟨?_, ?_, ?_⟩
  · intro acts t t' task task' s ht ht' hkind hpub
    exact (hwf acts).unique ht ht' hkind hpub
  · intro acts a later kind k t t' s ht ht' hne hlater s'
    have hgone : Gone t s' :=
      gone_exec (wf_step settings (hwf acts) a) (replaced_gone (hwf acts) ht ht' hne) hlater
    exact ⟨hgone.2, fire_gone hgone⟩
  · intro now acts a k c past hacts hturns
    have h : Clockwise settings past c := clockwise_run settings file wg now fun m hm =>
      hacts m (List.mem_append_left _ hm)
    have ha := hacts _ (List.mem_append_right _ (List.mem_singleton_self _))
    obtain ⟨t, env, armedAt, hact, harmed, hage⟩ := turnsDue_armed h ha hturns
    refine ⟨⟨t, env, armedAt, hact, harmed⟩, fun m hm hinst => ?_⟩
    exact Int.le_trans (Int.add_le_add_right (harmed.newest h.ordered hm hinst) _) hage

end QkdEkm.Vpn
