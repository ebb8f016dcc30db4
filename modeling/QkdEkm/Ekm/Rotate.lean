import Mathlib.Order.Lattice.Nat
import QkdEkm.Lib.Machine
import QkdEkm.Lib.Text

/-!
# Rotate — concurrent rotations of the external key

`rotate` lists the versions of the key, creates one more, waits until it
is enabled and promotes it. Between these calls other runs take theirs,
so a run is a machine of its own and `Act` is the next call of some run;
a run that stops takes no more. Cloud KMS assigns every created version
a number above all others; the path of the version is the run's own, and
comes from the list it read.
-/

namespace QkdEkm.Ekm.Rotate

open QkdEkm.Lib

/-- A version of the crypto key, with the EKM path that it wraps under. -/
structure Version where
  number : Nat
  ekmConnectionKeyPath : String
  deriving DecidableEq, Repr

structure CryptoKey where
  versions : List Version
  primary : Option Nat := none

/-- `max(..., default=0)` of the version numbers. -/
def CryptoKey.maxNumber (key : CryptoKey) : Nat := (key.versions.map (·.number)).foldl max 0

/-- The key with one version more. -/
def CryptoKey.add (key : CryptoKey) (v : Version) : CryptoKey :=
  { key with versions := key.versions ++ [v] }

/-- `EKM_KEY_PATH_PREFIX`. -/
structure RotateConfig where
  keyPathStart : String := "api/keys/"

def RotateConfig.keyPath (cfg : RotateConfig) (nextNumber : Nat) : String :=
  cfg.keyPathStart ++ "v" ++ toString nextNumber

/-- `_POLL_ATTEMPTS`. -/
def pollAttempts : Nat := 60

/-- Where a run stands: `attempt` counts the states it has looked at. -/
inductive Run
  | ready
  | listed (nextNumber : Nat)
  | polling (nextNumber createdNumber attempt : Nat)
  | enabled (nextNumber createdNumber : Nat)
  | rotated (nextNumber createdNumber : Nat)
  | failed (createdNumber : Nat)
  deriving DecidableEq, Repr

/-- The key and the runs. -/
structure Cloud where
  key : CryptoKey
  runs : Nat → Run := fun _ => .ready

/-- The state after a call of a run. -/
def Cloud.after (c : Cloud) (key : CryptoKey) (run : Nat) (r : Run) : Cloud where
  key := key
  runs := Function.update c.runs run r

/-- The next call of a run, with what Cloud KMS decides: how many numbers
it skips, and whether the version that was created is enabled by now. -/
inductive Act
  | list (run : Nat)
  | create (run skipped : Nat)
  | poll (run : Nat) (isEnabled : Bool)
  | promote (run : Nat)

inductive Output
  | nothing
  | created (run number : Nat)
  | raised (run : Nat)
  | promoted (run number : Nat)
  deriving DecidableEq, Repr

def step (cfg : RotateConfig) (c : Cloud) : Act → Cloud × Output
  | .list run =>
    match c.runs run with
    | .ready => (c.after c.key run (.listed (c.key.maxNumber + 1)), .nothing)
    | _ => (c, .nothing)
  | .create run skipped =>
    match c.runs run with
    | .listed nextNumber =>
      let number := c.key.maxNumber + 1 + skipped
      (c.after (c.key.add ⟨number, cfg.keyPath nextNumber⟩) run (.polling nextNumber number 0),
        .created run number)
    | _ => (c, .nothing)
  | .poll run isEnabled =>
    match c.runs run with
    | .polling nextNumber number attempt =>
      if isEnabled then (c.after c.key run (.enabled nextNumber number), .nothing)
      else if attempt + 1 < pollAttempts then
        (c.after c.key run (.polling nextNumber number (attempt + 1)), .nothing)
      else (c.after c.key run (.failed number), .raised run)
    | _ => (c, .nothing)
  | .promote run =>
    match c.runs run with
    | .enabled nextNumber number =>
      (c.after { c.key with primary := some number } run (.rotated nextNumber number),
        .promoted run number)
    | _ => (c, .nothing)

/-- What `rotate` returns. -/
def Run.label : Run → Option String
  | .rotated nextNumber _ => some ("v" ++ toString nextNumber)
  | _ => none

/-! ## Paths -/

/-- No two versions share a path. -/
def CryptoKey.Distinct (key : CryptoKey) : Prop :=
  key.versions.Pairwise fun a b => a.ekmConnectionKeyPath ≠ b.ekmConnectionKeyPath

/-- A key as it is set up: the paths differ, and none is the path of a
number still to be assigned. -/
structure CryptoKey.Provisioned (cfg : RotateConfig) (key : CryptoKey) : Prop where
  distinct : key.Distinct
  unused : ∀ v ∈ key.versions, ∀ n, key.maxNumber < n → v.ekmConnectionKeyPath ≠ cfg.keyPath n

/-- A run creates its version after another one was created since it
read the list: the highest number has grown. -/
def Stale (m : Moment Cloud Act Output) : Prop :=
  ∃ run skipped nextNumber, m.act = .create run skipped ∧
    m.pre.runs run = .listed nextNumber ∧ nextNumber ≠ m.pre.key.maxNumber + 1

section

variable {cfg : RotateConfig} {key : CryptoKey} {c : Cloud}

theorem keyPath_inj {m n : Nat} : cfg.keyPath m = cfg.keyPath n ↔ m = n := by
  unfold RotateConfig.keyPath
  rw [String.append_right_inj, toString_nat_inj]

theorem maxNumber_add (v : Version) : (key.add v).maxNumber = max key.maxNumber v.number := by
  simp [CryptoKey.maxNumber, CryptoKey.add]

/-! ## One call -/

/-- The ways a call ends. A creation is the only one that changes the
versions. -/
inductive Calls (cfg : RotateConfig) (c : Cloud) : Act → Cloud → Output → Prop
  | listed {run} (hrun : c.runs run = .ready) :
    Calls cfg c (.list run) (c.after c.key run (.listed (c.key.maxNumber + 1))) .nothing
  | created {run skipped n number} (hrun : c.runs run = .listed n)
      (hnumber : number = c.key.maxNumber + 1 + skipped) :
    Calls cfg c (.create run skipped)
      (c.after (c.key.add ⟨number, cfg.keyPath n⟩) run (.polling n number 0))
      (.created run number)
  | polled {run isEnabled n number attempt r out} (hrun : c.runs run = .polling n number attempt)
      (hr : r = .enabled n number ∨ r = .polling n number (attempt + 1) ∨ r = .failed number)
      (hout : out = .nothing ∨ out = .raised run) :
    Calls cfg c (.poll run isEnabled) (c.after c.key run r) out
  | promoted {run n number} (hrun : c.runs run = .enabled n number) :
    Calls cfg c (.promote run)
      (c.after { c.key with primary := some number } run (.rotated n number))
      (.promoted run number)
  | skipped {act} (hcreate : ∀ run skipped n, act = .create run skipped → c.runs run ≠ .listed n) :
    Calls cfg c act c .nothing

variable (cfg) in
/-- **Inversion of a call.** -/
theorem step_calls (c : Cloud) (act : Act) :
    Calls cfg c act (step cfg c act).1 (step cfg c act).2 := by
  cases act with
  | list run =>
    simp only [step]
    split
    · rename_i hrun
      exact .listed hrun
    · exact .skipped (by rintro _ _ _ ⟨⟩)
  | create run skipped =>
    simp only [step]
    split
    · rename_i hrun
      exact .created hrun rfl
    · rename_i hrun
      refine .skipped ?_
      rintro _ _ n ⟨⟩ h
      exact hrun n h
  | poll run isEnabled =>
    simp only [step]
    split
    · rename_i hrun
      split
      · exact .polled hrun (.inl rfl) (.inl rfl)
      · split
        · exact .polled hrun (.inr (.inl rfl)) (.inl rfl)
        · exact .polled hrun (.inr (.inr rfl)) (.inr rfl)
    · exact .skipped (by rintro _ _ _ ⟨⟩)
  | promote run =>
    simp only [step]
    split
    · rename_i hrun
      exact .promoted hrun
    · exact .skipped (by rintro _ _ _ ⟨⟩)

/-! ## Distinct paths -/

/-- Every run that read a list either would still read the same, or the
path it is going to use is taken. -/
def Seen (cfg : RotateConfig) (c : Cloud) : Prop :=
  ∀ run n, c.runs run = .listed n →
    n = c.key.maxNumber + 1 ∨ ∃ v ∈ c.key.versions, v.ekmConnectionKeyPath = cfg.keyPath n

/-- A call that creates nothing leaves that as it was. -/
theorem Seen.after (h : Seen cfg c) (hkey : key.versions = c.key.versions) {run : Nat} {r : Run}
    (hr : ∀ n, r = .listed n → n = c.key.maxNumber + 1) : Seen cfg (c.after key run r) := by
  have hmax : key.maxNumber = c.key.maxNumber := by simp only [CryptoKey.maxNumber, hkey]
  intro run' n hrun
  simp only [Cloud.after, Function.update_apply] at hrun ⊢
  rw [hkey, hmax]
  split at hrun
  · exact .inl (hr n hrun)
  · exact h run' n hrun

/-- A creation from the current list takes an unused path. -/
theorem CryptoKey.Provisioned.create (h : key.Provisioned cfg) {number : Nat}
    (hnumber : key.maxNumber < number) :
    (key.add ⟨number, cfg.keyPath (key.maxNumber + 1)⟩).Provisioned cfg := by
  refine ⟨?_, ?_⟩
  · refine List.pairwise_append.mpr ⟨h.distinct, List.pairwise_singleton _ _, ?_⟩
    intro v hv v' hv'
    rw [List.mem_singleton.mp hv']
    exact h.unused v hv _ (Nat.lt_succ_self _)
  · intro v hv n hn
    rw [maxNumber_add] at hn
    have hn' : max key.maxNumber number < n := hn
    rcases List.mem_append.mp hv with hv | hv
    · exact h.unused v hv n (by omega)
    · rw [List.mem_singleton.mp hv]
      intro heq
      have := keyPath_inj.mp heq
      omega

/-- After it, whoever read the same list finds its path taken. -/
theorem Seen.create (h : Seen cfg c) (run number : Nat) :
    Seen cfg (c.after (c.key.add ⟨number, cfg.keyPath (c.key.maxNumber + 1)⟩) run
      (.polling (c.key.maxNumber + 1) number 0)) := by
  intro run' n hrun
  simp only [Cloud.after, Function.update_apply] at hrun ⊢
  split at hrun
  · cases hrun
  · refine .inr ?_
    rcases h run' n hrun with rfl | ⟨v, hv, hpath⟩
    · exact ⟨_, List.mem_append_right _ (List.mem_singleton.mpr rfl), rfl⟩
    · exact ⟨v, List.mem_append_left _ hv, hpath⟩

/-- A version of a path that is taken. -/
theorem not_distinct_add {v w : Version} (hv : v ∈ key.versions)
    (hpath : v.ekmConnectionKeyPath = w.ekmConnectionKeyPath) : ¬ (key.add w).Distinct := by
  intro h
  exact (List.pairwise_append.mp h).2.2 v hv w (List.mem_singleton.mpr rfl) hpath

section

variable {act : Act} {c' : Cloud} {out : Output}

/-- A call that is not stale keeps the paths distinct. -/
theorem Calls.fresh (h : Calls cfg c act c' out) (hkey : c.key.Provisioned cfg) (hseen : Seen cfg c)
    (hnow : ¬ Stale ⟨c, act, out, c'⟩) : c'.key.Provisioned cfg ∧ Seen cfg c' := by
  cases h with
  | listed hrun =>
    refine ⟨hkey, hseen.after rfl fun n hn => ?_⟩
    cases hn
    rfl
  | created hrun hnumber =>
    rename_i run skipped n number
    have hn : n = c.key.maxNumber + 1 := by
      by_contra hne
      exact hnow ⟨_, _, _, rfl, hrun, hne⟩
    subst hn
    exact ⟨hkey.create (by omega), hseen.create _ _⟩
  | polled hrun hr hout =>
    refine ⟨hkey, hseen.after rfl fun n hn => ?_⟩
    rcases hr with rfl | rfl | rfl <;> cases hn
  | promoted hrun =>
    refine ⟨⟨hkey.distinct, hkey.unused⟩, hseen.after rfl fun n hn => ?_⟩
    cases hn
  | skipped _ => exact ⟨hkey, hseen⟩

/-- The first stale creation takes a path that is taken. -/
theorem Calls.stale (h : Calls cfg c act c' out) (hseen : Seen cfg c)
    (hnow : Stale ⟨c, act, out, c'⟩) : ¬ c'.key.Distinct := by
  obtain ⟨run, skipped, n, hact, hrun, hne⟩ := hnow
  obtain rfl : act = .create run skipped := hact
  cases h with
  | created hrun' _ =>
    cases hrun.symm.trans hrun'
    obtain ⟨v, hv, hpath⟩ := (hseen run n hrun).resolve_left hne
    exact not_distinct_add hv hpath
  | skipped hcreate => exact absurd hrun (hcreate _ _ _ rfl)

/-- Versions stay, and so does a clash. -/
theorem Calls.clash (h : Calls cfg c act c' out) (hclash : ¬ c.key.Distinct) :
    ¬ c'.key.Distinct := by
  cases h with
  | created _ _ => exact fun hd => hclash (List.pairwise_append.mp hd).1
  | listed _ | polled _ _ _ | promoted _ | skipped _ => exact hclash

end

/-- Either no creation was stale and all is well, or one was and two
versions share a path. -/
def Paths (cfg : RotateConfig) (past : List (Moment Cloud Act Output)) (c : Cloud) : Prop :=
  (c.key.Provisioned cfg ∧ Seen cfg c ∧ ∀ m ∈ past, ¬ Stale m) ∨
    (¬ c.key.Distinct ∧ ∃ m ∈ past, Stale m)

theorem paths_step {past : List (Moment Cloud Act Output)} (h : Paths cfg past c) (act : Act) :
    Paths cfg (past ++ [moment (step cfg) c act]) (step cfg c act).1 := by
  have hcalls := step_calls cfg c act
  rcases h with ⟨hkey, hseen, hfresh⟩ | ⟨hclash, m, hm, hs⟩
  · by_cases hnow : Stale (moment (step cfg) c act)
    · exact .inr ⟨hcalls.stale hseen hnow, _, List.mem_append_right _ (List.mem_singleton.mpr rfl),
        hnow⟩
    · obtain ⟨hkey', hseen'⟩ := hcalls.fresh hkey hseen hnow
      refine .inl ⟨hkey', hseen', fun m hm => ?_⟩
      rcases List.mem_append.mp hm with hm | hm
      · exact hfresh m hm
      · rw [List.mem_singleton.mp hm]
        exact hnow
  · exact .inr ⟨hcalls.clash hclash, m, List.mem_append_left _ hm, hs⟩

/-! ## Promotion -/

/-- The version that a run created. -/
def Run.created? : Run → Option Nat
  | .ready | .listed _ => none
  | .polling _ number _ | .enabled _ number | .rotated _ number | .failed number => some number

/-- What the runs are told they created is what they hold, and they
promote nothing else. -/
structure Owned (past : List (Moment Cloud Act Output)) (c : Cloud) : Prop where
  created : ∀ run number, (∃ m ∈ past, m.out = .created run number) ↔
    (c.runs run).created? = some number
  promoted : ∀ run number, (∃ m ∈ past, m.out = .promoted run number) →
    (c.runs run).created? = some number

theorem owned_start (key : CryptoKey) : Owned [] { key } where
  created := fun run number => by simp [Run.created?]
  promoted := fun run number => by simp

/-- One more output. -/
theorem exists_out_append {past : List (Moment Cloud Act Output)} {m : Moment Cloud Act Output}
    {out : Output} :
    (∃ m' ∈ past ++ [m], m'.out = out) ↔ (∃ m' ∈ past, m'.out = out) ∨ m.out = out := by
  simp only [List.mem_append, List.mem_singleton, or_and_right, exists_or, exists_eq_left]

/-- A call that creates nothing, and promotes what its run created. -/
theorem Owned.keep {past : List (Moment Cloud Act Output)} (h : Owned past c)
    {m : Moment Cloud Act Output} {c' : Cloud}
    (hruns : ∀ run, (c'.runs run).created? = (c.runs run).created?)
    (hcreated : ∀ run number, m.out ≠ .created run number)
    (hpromoted : ∀ run number, m.out = .promoted run number →
      (c.runs run).created? = some number) : Owned (past ++ [m]) c' where
  created := fun run number => by
    rw [exists_out_append, hruns, h.created run number]
    exact or_iff_left (hcreated run number)
  promoted := fun run number hm => by
    rw [hruns]
    rcases exists_out_append.mp hm with hm | hm
    · exact h.promoted run number hm
    · exact hpromoted run number hm

theorem created?_after {run : Nat} {r : Run} (hr : r.created? = (c.runs run).created?)
    (run' : Nat) : ((c.after key run r).runs run').created? = (c.runs run').created? := by
  simp only [Cloud.after, Function.update_apply]
  split
  · rename_i heq
    rw [heq, hr]
  · rfl

/-- A run creates once. -/
theorem Owned.create {past : List (Moment Cloud Act Output)} (h : Owned past c)
    {m : Moment Cloud Act Output} {run n number attempt : Nat}
    (hrun : (c.runs run).created? = none) (hout : m.out = .created run number) :
    Owned (past ++ [m]) (c.after key run (.polling n number attempt)) where
  created := fun run' number' => by
    rw [exists_out_append, h.created run' number', hout]
    simp only [Cloud.after, Function.update_apply]
    by_cases heq : run' = run
    · rw [heq, hrun]
      simp [Run.created?]
    · simp [heq, Ne.symm heq]
  promoted := fun run' number' hm => by
    have hpast : (c.runs run').created? = some number' := by
      rcases exists_out_append.mp hm with hm | hm
      · exact h.promoted run' number' hm
      · rw [hout] at hm
        cases hm
    simp only [Cloud.after, Function.update_apply]
    split
    · rename_i heq
      rw [heq, hrun] at hpast
      cases hpast
    · exact hpast

theorem owned_calls {past : List (Moment Cloud Act Output)} (h : Owned past c) {act : Act}
    {c' : Cloud} {out : Output} (hcalls : Calls cfg c act c' out) :
    Owned (past ++ [⟨c, act, out, c'⟩]) c' := by
  cases hcalls with
  | listed hrun =>
    refine h.keep (created?_after ?_) (by rintro _ _ ⟨⟩) (by rintro _ _ ⟨⟩)
    rw [hrun]
    rfl
  | created hrun _ => exact h.create (by rw [hrun]; rfl) rfl
  | polled hrun hr hout =>
    refine h.keep (created?_after ?_) ?_ ?_
    · rw [hrun]
      rcases hr with rfl | rfl | rfl <;> rfl
    · rcases hout with rfl | rfl <;> rintro _ _ ⟨⟩
    · rcases hout with rfl | rfl <;> rintro _ _ ⟨⟩
  | promoted hrun =>
    refine h.keep (created?_after ?_) (by rintro _ _ ⟨⟩) ?_
    · rw [hrun]
      rfl
    · rintro _ _ ⟨⟩
      rw [hrun]
      rfl
  | skipped _ => exact h.keep (fun _ => rfl) (by rintro _ _ ⟨⟩) (by rintro _ _ ⟨⟩)

end

/-! ## Any interleaving -/

/-- Every version has a path of its own, and a run promotes the one
version that it created. -/
structure Separate (cfg : RotateConfig) (key : CryptoKey) (acts : List Act) : Prop where
  distinct : (exec (step cfg) { key } acts).key.Distinct
  promotes : ∀ m ∈ trace (step cfg) { key } acts, ∀ run number, m.out = .promoted run number →
    ∀ created, (∃ m' ∈ trace (step cfg) { key } acts, m'.out = .created run created) ↔
      created = number

section

variable {cfg : RotateConfig} {key : CryptoKey}

theorem paths_run (hkey : key.Provisioned cfg) (acts : List Act) :
    Paths cfg (trace (step cfg) { key } acts) (exec (step cfg) { key } acts) := by
  refine trace_invariant (Paths cfg) (fun _ => True) ?_ ?_ fun _ _ => trivial
  · exact .inl ⟨hkey, by rintro _ _ ⟨⟩, by rintro _ ⟨⟩⟩
  · intro past c act h _
    exact paths_step h act

variable (cfg key) in
theorem owned_run (acts : List Act) :
    Owned (trace (step cfg) { key } acts) (exec (step cfg) { key } acts) := by
  refine trace_invariant Owned (fun _ => True) (owned_start key) ?_ fun _ _ => trivial
  intro past c act h _
  exact owned_calls h (step_calls cfg c act)

/-- **Every version has an EKM key of its own in exactly the
interleavings in which no run creates its version from an outdated
list**; a run promotes what it created in every one. -/
theorem rotate_separate (cfg : RotateConfig) (key : CryptoKey) (hkey : key.Provisioned cfg)
    (acts : List Act) :
    Separate cfg key acts ↔ ∀ m ∈ trace (step cfg) { key } acts, ¬ Stale m := by
  constructor
  · rintro ⟨hdistinct, _⟩
    rcases paths_run hkey acts with ⟨_, _, hfresh⟩ | ⟨hclash, _⟩
    · exact hfresh
    · exact absurd hdistinct hclash
  · intro hfresh
    refine ⟨?_, ?_⟩
    · rcases paths_run hkey acts with ⟨hkey', _⟩ | ⟨_, m, hm, hs⟩
      · exact hkey'.distinct
      · exact absurd hs (hfresh m hm)
    · intro m hm run number hout created
      have howned := owned_run cfg key acts
      rw [howned.created run created, howned.promoted run number ⟨m, hm, hout⟩]
      exact ⟨fun h => (Option.some.inj h).symm, fun h => h ▸ rfl⟩

end

/-- The key as the infrastructure sets it up. -/
def firstVersion : CryptoKey where
  versions := [⟨1, "api/keys/v1"⟩]
  primary := some 1

theorem firstVersion_provisioned : firstVersion.Provisioned {} where
  distinct := List.pairwise_singleton _ _
  unused := by
    intro v hv n hn
    rw [List.mem_singleton.mp hv]
    intro heq
    have : 1 = n := keyPath_inj.mp (show RotateConfig.keyPath {} 1 = _ from heq)
    have hmax : firstVersion.maxNumber = 1 := rfl
    omega

/-- One run after another. -/
def oneByOne : List Act :=
  [.list 0, .create 0 0, .poll 0 true, .promote 0, .list 1, .create 1 0, .poll 1 true, .promote 1]

theorem rotate_separate_oneByOne : Separate {} firstVersion oneByOne := by
  refine (rotate_separate {} firstVersion firstVersion_provisioned oneByOne).mpr ?_
  rintro m hm ⟨run, skipped, n, hact, hrun, hne⟩
  simp only [oneByOne, trace, List.mem_cons, List.not_mem_nil, or_false] at hm
  rcases hm with rfl | rfl | rfl | rfl | rfl | rfl | rfl | rfl <;> cases hact <;> cases hrun <;>
    exact hne rfl

/-- Two runs read the list before either creates. -/
def overlapping : List Act := [.list 0, .list 1, .create 0 0, .create 1 0]

/-- **Two versions get the path of version 2.** -/
theorem rotate_overlaps : ¬ Separate {} firstVersion overlapping := by
  intro h
  have hversions : (exec (step {}) { key := firstVersion } overlapping).key.versions =
      [⟨1, "api/keys/v1"⟩, ⟨2, "api/keys/v2"⟩, ⟨3, "api/keys/v2"⟩] := rfl
  have hdistinct := h.distinct
  unfold CryptoKey.Distinct at hdistinct
  rw [hversions] at hdistinct
  exact absurd hdistinct (by decide)

end QkdEkm.Ekm.Rotate
