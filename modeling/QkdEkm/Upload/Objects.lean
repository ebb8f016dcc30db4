import QkdEkm.Upload.Names

/-!
# Objects — what the directory holds

The upload server over a `DirSink`. A worker thread runs the call of the
sink while the task is suspended, and other tasks store their objects in
the meantime. Every object has a uuid of its own, so what was written is
never written again: a file that was answered with 200 is in the directory
from then on, as its client sealed it (`uploads_kept`).
-/

namespace QkdEkm.Upload

open QkdEkm.Common QkdEkm.Lib

/-- How far the call of the sink is. -/
inductive Progress
  | queued
  | returned (uri : String)
  | raised
  deriving DecidableEq, Repr

/-- The call of the sink for a task. -/
structure Job where
  name : String
  data : Bytes
  progress : Progress := .queued
  deriving DecidableEq, Repr

/-- The server and its directory, the calls of the sink, and the form that
each task handles. -/
structure Site where
  server : Server := {}
  sink : DirSink
  jobs : Nat → Option Job := fun _ => none
  forms : Nat → Option UploadRequest := fun _ => none

/-- What becomes of the file system calls: the object is written, or one
of them raises and leaves nothing, or the first part of the data. -/
inductive Disk
  | writes
  | fails (left : Option Nat)
  deriving DecidableEq, Repr

/-- A section of the server that does not wait for the sink, a call of the
sink, or the section behind it. -/
inductive SiteAct
  | run (task : Nat) (input : Input)
  | call (task : Nat) (disk : Disk)
  | wake (task : Nat)

/-- Only the sink resumes with these. -/
def Input.ofSink : Input → Bool
  | .written _ | .sinkRaised => true
  | _ => false

/-- The form of a new upload. -/
def Input.form : Input → Option UploadRequest
  | .upload _ req => some req
  | _ => none

/-- The sink after a call that failed. -/
def DirSink.leave (sink : DirSink) (name : String) (data : Bytes) : Option Nat → DirSink
  | none => sink
  | some n => { sink with objects := sink.objects.assign name (data.take n) }

/-- The call of the sink. -/
def Job.call (job : Job) (sink : DirSink) (disk : Disk) : Job × DirSink :=
  match sink.upload job.name job.data, disk with
  | .ok (sink', uri), .writes => ({ job with progress := .returned uri }, sink')
  | .ok _, .fails left => ({ job with progress := .raised }, sink.leave job.name job.data left)
  | .error _, _ => ({ job with progress := .raised }, sink)

/-- What the task is resumed with. -/
def Progress.input : Progress → Option Input
  | .queued => none
  | .returned uri => some (.written uri)
  | .raised => some .sinkRaised

/-- The file that a section answers as uploaded. -/
def Output.uploaded : Output → Option (String × Nat)
  | .answer ⟨_, .uploaded uri size⟩ => some (uri, size)
  | _ => none

/-- An object that a section hands out is a new call. -/
def jobsAfter (jobs : Nat → Option Job) (task : Nat) (out : Output) : Nat → Option Job :=
  match out.object with
  | some (name, data) => Function.update jobs task (some { name, data })
  | none => jobs

/-- An idle task takes its form. -/
def formsAfter (forms : Nat → Option UploadRequest) (task : Nat) (stage : Stage) (input : Input) :
    Nat → Option UploadRequest :=
  match stage, input.form with
  | .idle, some req => Function.update forms task (some req)
  | _, _ => forms

namespace Site

variable (settings : UploadSettings) (aead : Aead)

def step (s : Site) : SiteAct → Site × Output
  | .run task input =>
    if input.ofSink then (s, .nothing)
    else
      let (server, out) := Upload.step settings aead s.server ⟨task, input⟩
      ({ s with
          server
          jobs := jobsAfter s.jobs task out
          forms := formsAfter s.forms task (s.server.stages task) input }, out)
  | .call task disk =>
    match s.jobs task with
    | some ⟨name, data, .queued⟩ =>
      let (job, sink) := Job.call { name, data } s.sink disk
      ({ s with sink, jobs := Function.update s.jobs task (some job) }, .nothing)
    | _ => (s, .nothing)
  | .wake task =>
    match (s.jobs task).bind (·.progress.input) with
    | some input =>
      let (server, out) := Upload.step settings aead s.server ⟨task, input⟩
      ({ s with server, jobs := Function.update s.jobs task none }, out)
    | none => (s, .nothing)

end Site

/-- The form that a client sends: `upload` seals the file with the key it
was told of, under the name of the file. -/
def uploadForm (aead : Aead) (nonce : Nonce) (keyId : String) (key : Bytes) (name : String)
    (content : Bytes) : Option UploadRequest :=
  (aesGcmWrap aead nonce key content (Percent.utf8 name.toList)).map fun file =>
    { file, keyId, filename := .text name }

section

variable {settings : UploadSettings} {aead : Aead} {material : String → Bytes}

/-- The server opens what the client has sealed. -/
theorem decrypt_uploadForm {nonce : Nonce} {keyId name : String} {key content : Bytes}
    {form : UploadRequest} (h : uploadForm aead nonce keyId key name content = some form) :
    form.keyId = keyId ∧ form.filename = .text name ∧ decrypt aead key form = some content := by
  obtain ⟨file, hseal, rfl⟩ := Option.map_eq_some_iff.mp h
  exact ⟨rfl, rfl, aesGcmUnwrap_wrap aead hseal⟩

/-! ## The sections of the server -/

/-- What a section leaves of the file keys: old ones, and the one that the
EKM has just answered. -/
def KeysFrom (input : Input) (s s' : Server) : Prop :=
  ∀ keyId entry, s'.keys.lookup keyId = some entry →
    s.keys.lookup keyId = some entry ∨ ∃ now, input = .ekm now (.key keyId entry.1)

/-- What a section does that does not wait for the sink. -/
inductive RunEffect (aead : Aead) (s : Server) (task : Nat) (input : Input) :
    Server × Output → Prop
  | quiet {s' out} (hkeys : KeysFrom input s s') (hout : out.object = none)
      (hanswer : out.uploaded = none)
      (hstages : ∀ t, s'.stages t = s.stages t ∨
        t = task ∧ (∀ p, s.stages t ≠ .writing p) ∧ (∀ p, s'.stages t ≠ .writing p) ∧
          ∀ key req, s'.stages t ≠ .reading key req) :
    RunEffect aead s task input (s', out)
  | begun {now req key expiry keys} (hinput : input = .upload now req)
      (hidle : s.stages task = .idle) (hkey : s.keys.lookup req.keyId = some (key, expiry))
      (hkeys : KeysFrom input s { s with keys }) :
    RunEffect aead s task input (({ s with keys } : Server).suspend task (.reading key req), .nothing)
  | handed {uuid key req filename plaintext} (hinput : input = .read uuid)
      (hreading : s.stages task = .reading key req) (hname : req.filename = .text filename)
      (hopen : decrypt aead key req = some plaintext) :
    RunEffect aead s task input
      (s.suspend task (.writing plaintext), .store (objectName uuid filename) plaintext)

theorem keysFrom_prune {input : Input} {s : Server} {now : Time} :
    KeysFrom input s (s.pruneKeys now) := by
  intro keyId entry h
  rw [lookup_pruneKeys] at h
  exact .inl (Option.filter_eq_some_iff.mp h).1

/-- A section that leaves the task where it neither reads nor writes. -/
theorem quiet_suspend {s s' : Server} {task : Nat} {input : Input} {stage : Stage} {out : Output}
    (hkeys : KeysFrom input s s') (hsame : s'.stages = s.stages) (hout : out.object = none)
    (hanswer : out.uploaded = none) (hbefore : ∀ p, s.stages task ≠ .writing p)
    (hafter : ∀ p, stage ≠ .writing p)
    (hreading : ∀ key req, stage ≠ .reading key req) :
    RunEffect aead s task input (s'.suspend task stage, out) := by
  refine .quiet hkeys hout hanswer fun t => ?_
  by_cases ht : t = task
  · subst ht
    rw [suspend_self]
    exact .inr ⟨rfl, hbefore, hafter, hreading⟩
  · left
    rw [suspend_ne stage ht, hsame]

theorem keysFrom_refl {input : Input} {s s' : Server} (h : s'.keys = s.keys) :
    KeysFrom input s s' := by
  intro keyId entry hentry
  rw [h] at hentry
  exact .inl hentry

variable (settings aead) in
/-- **Inversion of a section** that does not wait for the sink. -/
theorem run_effect (s : Server) (task : Nat) {input : Input} (h : input.ofSink = false) :
    RunEffect aead s task input (Upload.step settings aead s ⟨task, input⟩) := by
  unfold Upload.step
  dsimp only
  split
  case h_1 now body hidle =>
    exact quiet_suspend keysFrom_prune rfl rfl rfl (by simp [hidle]) (by simp) (by simp)
  case h_2 now req hidle =>
    rcases hkey : (s.pruneKeys now).keys.lookup req.keyId with _ | ⟨key, expiry⟩
    · rw [upload_unknown hkey]
      exact quiet_suspend keysFrom_prune rfl rfl rfl (by simp [hidle]) (by simp) (by simp)
    · rw [upload_known hkey]
      have hold := hkey
      rw [lookup_pruneKeys] at hold
      exact .begun rfl hidle (Option.filter_eq_some_iff.mp hold).1 keysFrom_prune
  case h_3 hidle =>
    exact quiet_suspend (keysFrom_refl rfl) rfl rfl rfl (by simp [hidle]) (by simp) (by simp)
  case h_4 peer now answer hfetching =>
    cases answer with
    | key keyId key =>
      have hassign : KeysFrom (.ekm now (.key keyId key)) s
          { s with keys := s.keys.assign keyId (key, now + settings.fileKeyTtlS) } := by
        intro keyId' entry hentry
        rw [Dict.lookup_assign] at hentry
        split at hentry
        · rename_i hsame
          cases hentry
          exact .inr ⟨now, by rw [hsame]⟩
        · exact .inl hentry
      exact quiet_suspend hassign rfl rfl rfl (by simp [hfetching]) (by simp) (by simp)
    | runtimeError message | other =>
      exact quiet_suspend (keysFrom_refl rfl) rfl rfl rfl (by simp [hfetching]) (by simp) (by simp)
  case h_5 key req uuid hreading =>
    rcases hopen : decrypt aead key req with _ | plaintext
    · rw [uploadRead_none hopen]
      exact quiet_suspend (keysFrom_refl rfl) rfl rfl rfl (by simp [hreading]) (by simp) (by simp)
    · obtain ⟨filename, hname⟩ := decrypt_text hopen
      rw [uploadRead_some hname hopen]
      exact .handed rfl hreading hname hopen
  case h_6 => cases h
  case h_7 => cases h
  case h_8 => exact .quiet (keysFrom_refl rfl) rfl rfl fun _ => .inl rfl

/-! ## The directory -/

/-- The names whose uuid was drawn. -/
def Drawn (uuids : List String) (name : String) : Prop :=
  ∃ (uuid : Uuid) (filename : String), uuid.text ∈ uuids ∧ name = objectName uuid filename

/-- What is known of the call of the sink for a task. -/
structure JobOk (aead : Aead) (material : String → Bytes) (uuids : List String) (s : Site)
    (task : Nat) (job : Job) : Prop where
  writing : s.server.stages task = .writing job.data
  origin : ∃ req uuid filename, s.forms task = some req ∧ req.filename = .text filename ∧
    uuid.text ∈ uuids ∧ job.name = objectName uuid filename ∧
    decrypt aead (material req.keyId) req = some job.data
  queued : job.progress = .queued → s.sink.objects.lookup job.name = none
  returned : ∀ uri, job.progress = .returned uri →
    uri = "gs://" ++ s.sink.bucket ++ "/" ++ job.name ∧
      s.sink.objects.lookup job.name = some job.data

/-- The state of a run whose EKM answers with `material` and that has drawn
the `uuids`. -/
structure SiteOk (aead : Aead) (material : String → Bytes) (uuids : List String) (s : Site) :
    Prop where
  keys : ∀ keyId entry, s.server.keys.lookup keyId = some entry → entry.1 = material keyId
  reading : ∀ task key req, s.server.stages task = .reading key req →
    s.forms task = some req ∧ key = material req.keyId
  jobs : ∀ task job, s.jobs task = some job → JobOk aead material uuids s task job
  apart : ∀ task task' job job', s.jobs task = some job → s.jobs task' = some job' →
    job.name = job'.name → task = task'
  objects : ∀ name data, s.sink.objects.lookup name = some data → Drawn uuids name

/-- The object is in the directory, and no call is going to write it. -/
structure Kept (uuids : List String) (s : Site) (name : String) (data : Bytes) : Prop where
  stored : s.sink.objects.lookup name = some data
  drawn : Drawn uuids name
  alone : ∀ task job, s.jobs task = some job → job.name ≠ name

/-- The uuid that a section draws. -/
def SiteAct.uuid? : SiteAct → Option String
  | .run _ (.read uuid) => some uuid.text
  | _ => none

/-- The EKM answers the keys that QKD2 has for their ids. -/
def SiteAct.Agrees (material : String → Bytes) : SiteAct → Prop
  | .run _ (.ekm _ (.key keyId key)) => key = material keyId
  | _ => True

variable {uuids : List String} {s : Site} {name : String} {data : Bytes}

theorem Drawn.mono {more : List String} (h : Drawn uuids name) : Drawn (uuids ++ more) name := by
  obtain ⟨uuid, filename, hmem, hname⟩ := h
  exact ⟨uuid, filename, List.mem_append_left _ hmem, hname⟩

/-- A new uuid makes a new name. -/
theorem Drawn.ne_objectName (h : Drawn uuids name) {uuid : Uuid} (hnew : uuid.text ∉ uuids)
    (filename : String) : objectName uuid filename ≠ name := by
  obtain ⟨uuid', filename', hmem, rfl⟩ := h
  intro hsame
  rw [objectName_uuid hsame] at hnew
  exact hnew hmem

theorem JobOk.drawn {task : Nat} {job : Job} (h : JobOk aead material uuids s task job) :
    Drawn uuids job.name := by
  obtain ⟨_, uuid, filename, _, _, hmem, hname, _⟩ := h.origin
  exact ⟨uuid, filename, hmem, hname⟩

/-! ## One step -/

/-- A task in the middle of a request keeps its form. -/
theorem formsAfter_of_ne {forms : Nat → Option UploadRequest} {task t : Nat} {stages : Nat → Stage}
    {input : Input} (h : stages t ≠ .idle) :
    formsAfter forms task (stages task) input t = forms t := by
  unfold formsAfter
  cases hstage : stages task with
  | idle =>
    have hne : t ≠ task := by
      rintro rfl
      exact h hstage
    cases input.form with
    | none => rfl
    | some req => exact Function.update_of_ne hne ..
  | fetching _ | reading _ _ | writing _ => rfl

theorem update_eq_some {jobs : Nat → Option Job} {task t : Nat} {new : Option Job} {job : Job} :
    Function.update jobs task new t = some job ↔
      (t = task ∧ new = some job) ∨ (t ≠ task ∧ jobs t = some job) := by
  by_cases ht : t = task
  · subst ht
    simp
  · simp [ht]

/-- What is known of a job does not depend on other tasks. -/
theorem JobOk.mono {s' : Site} {task : Nat} {job : Job}
    (h : JobOk aead material uuids s task job) (more : List String)
    (hstage : s'.server.stages task = .writing job.data)
    (hform : s'.forms task = s.forms task) (hsink : s'.sink = s.sink) :
    JobOk aead material (uuids ++ more) s' task job where
  writing := hstage
  origin := by
    obtain ⟨req, uuid, filename, hreq, hname, hmem, hjob, hopen⟩ := h.origin
    exact ⟨req, uuid, filename, hform.trans hreq, hname, List.mem_append_left _ hmem, hjob, hopen⟩
  queued := by
    rw [hsink]
    exact h.queued
  returned := by
    rw [hsink]
    exact h.returned

/-- What a step leaves: the invariant, and the objects that were kept. -/
def Leaves (aead : Aead) (material : String → Bytes) (uuids more : List String) (s s' : Site) :
    Prop :=
  SiteOk aead material (uuids ++ more) s' ∧
    ∀ name data, Kept uuids s name data → Kept (uuids ++ more) s' name data

theorem keys_agree (h : SiteOk aead material uuids s) (task : Nat) {input : Input} {s' : Server}
    (hkeys : KeysFrom input s.server s') (hagrees : (SiteAct.run task input).Agrees material) :
    ∀ keyId entry, s'.keys.lookup keyId = some entry → entry.1 = material keyId := by
  intro keyId entry hentry
  rcases hkeys keyId entry hentry with hold | ⟨now, hinput⟩
  · exact h.keys keyId entry hold
  · rw [hinput] at hagrees
    exact hagrees

/-- A task without a call has none that is writing. -/
theorem SiteOk.leaves_self (h : SiteOk aead material uuids s) {more : List String} :
    Leaves aead material uuids more s s := by
  refine ⟨⟨h.keys, h.reading, fun t job hjob => ?_, h.apart, fun _ _ hd => (h.objects _ _ hd).mono⟩,
    fun _ _ hkept => ⟨hkept.stored, hkept.drawn.mono, hkept.alone⟩⟩
  have hok := h.jobs t job hjob
  exact hok.mono more hok.writing rfl rfl

theorem leaves_quiet (h : SiteOk aead material uuids s) {task : Nat} {input : Input} {s' : Server}
    {more : List String} (hkeys : KeysFrom input s.server s')
    (hagrees : (SiteAct.run task input).Agrees material)
    (hstages : ∀ t, s'.stages t = s.server.stages t ∨
      t = task ∧ (∀ p, s.server.stages t ≠ .writing p) ∧ (∀ p, s'.stages t ≠ .writing p) ∧
        ∀ key req, s'.stages t ≠ .reading key req) :
    Leaves aead material uuids more s
      { s with
        server := s'
        forms := formsAfter s.forms task (s.server.stages task) input } := by
  refine ⟨⟨keys_agree h task hkeys hagrees, ?_, ?_, h.apart, fun _ _ hd => (h.objects _ _ hd).mono⟩,
    fun _ _ hkept => ⟨hkept.stored, hkept.drawn.mono, hkept.alone⟩⟩
  · intro t key req ht
    dsimp only at ht ⊢
    rcases hstages t with hsame | ⟨_, _, _, hno⟩
    · rw [hsame] at ht
      rw [formsAfter_of_ne (by simp [ht])]
      exact h.reading t key req ht
    · exact absurd ht (hno key req)
  · intro t job hjob
    have hok := h.jobs t job hjob
    refine hok.mono more ?_ (formsAfter_of_ne (by simp [hok.writing])) rfl
    rcases hstages t with hsame | ⟨_, hno, _⟩
    · exact hsame.trans hok.writing
    · exact absurd hok.writing (hno _)

theorem leaves_begun (h : SiteOk aead material uuids s) {task : Nat} {now : Time}
    {req : UploadRequest} {key : Bytes} {expiry : Time} {keys : Dict String (Bytes × Time)}
    {more : List String} (hidle : s.server.stages task = .idle)
    (hkey : s.server.keys.lookup req.keyId = some (key, expiry))
    (hkeys : KeysFrom (.upload now req) s.server { s.server with keys }) :
    Leaves aead material uuids more s
      { s with
        server := ({ s.server with keys } : Server).suspend task (.reading key req)
        forms := formsAfter s.forms task (s.server.stages task) (.upload now req) } := by
  have hform : formsAfter s.forms task (s.server.stages task) (.upload now req) task = some req := by
    simp [formsAfter, hidle, Input.form]
  refine ⟨⟨keys_agree h task hkeys trivial, ?_, ?_, h.apart,
    fun _ _ hd => (h.objects _ _ hd).mono⟩,
    fun _ _ hkept => ⟨hkept.stored, hkept.drawn.mono, hkept.alone⟩⟩
  · intro t key' req' ht
    dsimp only at ht ⊢
    by_cases hsame : t = task
    · subst hsame
      rw [suspend_self] at ht
      cases ht
      exact ⟨hform, h.keys _ _ hkey⟩
    · rw [suspend_ne _ hsame] at ht
      have ht : s.server.stages t = .reading key' req' := ht
      rw [formsAfter_of_ne (by simp [ht])]
      exact h.reading t key' req' ht
  · intro t job hjob
    have hok := h.jobs t job hjob
    have hne : t ≠ task := by
      rintro rfl
      cases hidle.symm.trans hok.writing
    exact hok.mono _ ((suspend_ne _ hne).trans hok.writing)
      (formsAfter_of_ne (by simp [hok.writing])) rfl

theorem leaves_handed (h : SiteOk aead material uuids s) {task : Nat} {uuid : Uuid} {key : Bytes}
    {req : UploadRequest} {filename : String} {plaintext : Bytes} (hfresh : uuid.text ∉ uuids)
    (hread : s.server.stages task = .reading key req) (hname : req.filename = .text filename)
    (hopen : decrypt aead key req = some plaintext) :
    Leaves aead material uuids [uuid.text] s
      { s with
        server := s.server.suspend task (.writing plaintext)
        jobs := Function.update s.jobs task (some ⟨objectName uuid filename, plaintext, .queued⟩)
        forms := formsAfter s.forms task (s.server.stages task) (.read uuid) } := by
  obtain ⟨hreq, rfl⟩ := h.reading task key req hread
  have hforms : formsAfter s.forms task (s.server.stages task) (.read uuid) = s.forms := by
    rw [hread]
    rfl
  have hnamed : ∀ t job, s.jobs t = some job → objectName uuid filename ≠ job.name :=
    fun t job hjob => (h.jobs t job hjob).drawn.ne_objectName hfresh filename
  rw [hforms]
  refine ⟨⟨h.keys, ?_, ?_, ?_, fun _ _ hd => (h.objects _ _ hd).mono⟩, ?_⟩
  · intro t key' req' ht
    dsimp only at ht ⊢
    by_cases hsame : t = task
    · subst hsame
      rw [suspend_self] at ht
      cases ht
    · rw [suspend_ne _ hsame] at ht
      exact h.reading t key' req' ht
  · intro t job hjob
    rcases update_eq_some.mp hjob with ⟨rfl, hnew⟩ | ⟨hne, hold⟩
    · cases hnew
      refine ⟨suspend_self .., ⟨req, uuid, filename, hreq, hname, by simp, rfl, hopen⟩,
        fun _ => ?_, fun _ hreturned => by cases hreturned⟩
      cases hstored : s.sink.objects.lookup (objectName uuid filename) with
      | none => rfl
      | some data => exact absurd rfl ((h.objects _ _ hstored).ne_objectName hfresh filename)
    · have hok := h.jobs t job hold
      exact hok.mono _ ((suspend_ne _ hne).trans hok.writing) rfl rfl
  · intro t t' job job' hjob hjob' hsame
    rcases update_eq_some.mp hjob with ⟨rfl, hnew⟩ | ⟨hne, hold⟩
    · cases hnew
      rcases update_eq_some.mp hjob' with ⟨rfl, _⟩ | ⟨_, hold'⟩
      · rfl
      · exact absurd hsame (hnamed t' job' hold')
    · rcases update_eq_some.mp hjob' with ⟨rfl, hnew'⟩ | ⟨_, hold'⟩
      · cases hnew'
        exact absurd hsame.symm (hnamed t job hold)
      · exact h.apart t t' job job' hold hold' hsame
  · intro name data hkept
    refine ⟨hkept.stored, hkept.drawn.mono, fun t job hjob => ?_⟩
    rcases update_eq_some.mp hjob with ⟨rfl, hnew⟩ | ⟨_, hold⟩
    · cases hnew
      exact hkept.drawn.ne_objectName hfresh filename
    · exact hkept.alone t job hold

/-- A section of the server leaves the directory alone. -/
theorem leaves_run (h : SiteOk aead material uuids s) {task : Nat} {input : Input}
    (hagrees : (SiteAct.run task input).Agrees material)
    (hnew : ∀ uuid ∈ (SiteAct.run task input).uuid?, uuid ∉ uuids) :
    Leaves aead material uuids (SiteAct.run task input).uuid?.toList s
      (s.step settings aead (.run task input)).1 := by
  cases hsink : input.ofSink with
  | true =>
    rw [Site.step, if_pos hsink]
    exact h.leaves_self
  | false =>
    rw [Site.step, if_neg (by simp [hsink])]
    have heffect := run_effect settings aead s.server task hsink
    dsimp only
    generalize Upload.step settings aead s.server ⟨task, input⟩ = result at heffect ⊢
    cases heffect with
    | quiet hkeys hout _ hstages =>
      simp only [jobsAfter, hout]
      exact leaves_quiet h hkeys hagrees hstages
    | begun hinput hidle hkey hkeys =>
      subst hinput
      exact leaves_begun h hidle hkey hkeys
    | handed hinput hread hname hopen =>
      subst hinput
      exact leaves_handed h (hnew _ rfl) hread hname hopen

/-- What a call of the sink does to the directory. -/
theorem call_effect {task : Nat} (h : JobOk aead material uuids s task ⟨name, data, .queued⟩)
    (disk : Disk) :
    ∃ progress objects, Job.call ⟨name, data, .queued⟩ s.sink disk =
        (⟨name, data, progress⟩, { s.sink with objects }) ∧ progress ≠ .queued ∧
      (∀ other, other ≠ name → objects.lookup other = s.sink.objects.lookup other) ∧
      ∀ uri, progress = .returned uri → uri = "gs://" ++ s.sink.bucket ++ "/" ++ name ∧
        objects.lookup name = some data := by
  obtain ⟨_, uuid, filename, _, _, _, hname, _⟩ := h.origin
  have haccepts : DirSink.Accepts name := by
    have hname : name = objectName uuid filename := hname
    rw [hname]
    exact objectName_accepted uuid filename
  unfold Job.call DirSink.upload
  rw [if_pos haccepts]
  cases disk with
  | writes =>
    refine ⟨_, _, rfl, by simp, fun other hne => ?_, fun uri huri => ?_⟩
    · rw [Dict.lookup_assign, if_neg hne]
    · cases huri
      exact ⟨rfl, by rw [Dict.lookup_assign, if_pos rfl]⟩
  | fails left =>
    cases left with
    | none => exact ⟨_, _, rfl, by simp, fun _ _ => rfl, fun uri huri => by cases huri⟩
    | some n =>
      refine ⟨_, _, rfl, by simp, fun other hne => ?_, fun uri huri => by cases huri⟩
      rw [Dict.lookup_assign, if_neg hne]

/-- A call of the sink writes its own object only. -/
theorem leaves_call (h : SiteOk aead material uuids s) (task : Nat) (disk : Disk) :
    Leaves aead material uuids [] s (s.step settings aead (.call task disk)).1 := by
  unfold Site.step
  dsimp only
  split
  case h_2 => exact h.leaves_self
  case h_1 name data hjob =>
    have hcall := h.jobs task _ hjob
    obtain ⟨progress, objects, heq, hprogress, hother, hreturned⟩ := call_effect hcall disk
    dsimp only
    rw [heq]
    have hapart : ∀ t job, t ≠ task → s.jobs t = some job → job.name ≠ name := by
      intro t job hne hold hsame
      exact hne (h.apart t task job _ hold hjob hsame)
    refine ⟨⟨h.keys, h.reading, ?_, ?_, ?_⟩, ?_⟩
    · intro t job hnew
      rcases update_eq_some.mp hnew with ⟨rfl, hself⟩ | ⟨hne, hold⟩
      · cases hself
        have horigin := hcall.mono [] hcall.writing rfl rfl
        exact ⟨horigin.writing, horigin.origin, fun hqueued => absurd hqueued hprogress, hreturned⟩
      · have hok := (h.jobs t job hold).mono [] (h.jobs t job hold).writing rfl rfl
        have hkeep := hother job.name (hapart t job hne hold)
        refine ⟨hok.writing, hok.origin, fun hqueued => ?_, fun uri huri => ?_⟩
        · exact hkeep.trans (hok.queued hqueued)
        · obtain ⟨hshape, hstored⟩ := hok.returned uri huri
          exact ⟨hshape, hkeep.trans hstored⟩
    · intro t t' job job' hnew hnew' hsame
      rcases update_eq_some.mp hnew with ⟨rfl, hself⟩ | ⟨hne, hold⟩
      · cases hself
        rcases update_eq_some.mp hnew' with ⟨rfl, _⟩ | ⟨hne', hold'⟩
        · rfl
        · exact absurd hsame.symm (hapart t' job' hne' hold')
      · rcases update_eq_some.mp hnew' with ⟨rfl, hself'⟩ | ⟨_, hold'⟩
        · cases hself'
          exact absurd hsame (hapart t job hne hold)
        · exact h.apart t t' job job' hold hold' hsame
    · intro other stored hstored
      by_cases hsame : other = name
      · subst hsame
        exact hcall.drawn.mono
      · rw [hother other hsame] at hstored
        exact (h.objects other stored hstored).mono
    · intro other stored hkept
      have hne : other ≠ name := (hkept.alone task _ hjob).symm
      refine ⟨(hother other hne).trans hkept.stored, hkept.drawn.mono, fun t job hnew => ?_⟩
      rcases update_eq_some.mp hnew with ⟨rfl, hself⟩ | ⟨_, hold⟩
      · cases hself
        exact hne.symm
      · exact hkept.alone t job hold

variable (settings) in
/-- What the section behind the call ends with. -/
theorem wake_effect {task : Nat} {job : Job} {input : Input}
    (h : JobOk aead material uuids s task job) (hinput : job.progress.input = some input) :
    ∃ resp, Upload.step settings aead s.server ⟨task, input⟩ =
        (s.server.suspend task .idle, .answer resp) ∧
      ∀ uri size, (Output.answer resp).uploaded = some (uri, size) →
        job.progress = .returned uri ∧ size = job.data.length := by
  unfold Upload.step
  dsimp only
  rw [h.writing]
  cases hprogress : job.progress with
  | queued =>
    rw [hprogress] at hinput
    cases hinput
  | returned uri =>
    rw [hprogress] at hinput
    cases hinput
    refine ⟨_, rfl, fun uri' size hresp => ?_⟩
    cases hresp
    exact ⟨rfl, rfl⟩
  | raised =>
    rw [hprogress] at hinput
    cases hinput
    refine ⟨_, rfl, fun uri' size hresp => ?_⟩
    cases hresp

theorem leaves_finished (h : SiteOk aead material uuids s) (task : Nat) :
    Leaves aead material uuids [] s
      { s with
        server := s.server.suspend task .idle
        jobs := Function.update s.jobs task none } := by
  have hold : ∀ t job, Function.update s.jobs task none t = some job →
      t ≠ task ∧ s.jobs t = some job := by
    intro t job hjob
    rcases update_eq_some.mp hjob with ⟨_, hnone⟩ | hold
    · cases hnone
    · exact hold
  refine ⟨⟨h.keys, ?_, ?_, ?_, fun _ _ hd => (h.objects _ _ hd).mono⟩, ?_⟩
  · intro t key req ht
    by_cases hsame : t = task
    · subst hsame
      rw [suspend_self] at ht
      cases ht
    · rw [suspend_ne _ hsame] at ht
      exact h.reading t key req ht
  · intro t job hjob
    obtain ⟨hne, hjob⟩ := hold t job hjob
    have hok := h.jobs t job hjob
    exact hok.mono _ ((suspend_ne _ hne).trans hok.writing) rfl rfl
  · intro t t' job job' hjob hjob'
    exact h.apart t t' job job' (hold t job hjob).2 (hold t' job' hjob').2
  · intro name data hkept
    exact ⟨hkept.stored, hkept.drawn.mono, fun t job hjob => hkept.alone t job (hold t job hjob).2⟩

theorem leaves_wake (h : SiteOk aead material uuids s) (task : Nat) :
    Leaves aead material uuids [] s (s.step settings aead (.wake task)).1 := by
  unfold Site.step
  dsimp only
  split
  case h_2 => exact h.leaves_self
  case h_1 input hinput =>
    obtain ⟨job, hjob, hinput⟩ := Option.bind_eq_some_iff.mp hinput
    obtain ⟨resp, heq, _⟩ := wake_effect settings (h.jobs task job hjob) hinput
    dsimp only
    rw [heq]
    exact leaves_finished h task

variable (settings) in
/-- **One step** of the site keeps what is known of it. -/
theorem leaves_step (h : SiteOk aead material uuids s) {a : SiteAct} (hagrees : a.Agrees material)
    (hnew : ∀ uuid ∈ a.uuid?, uuid ∉ uuids) :
    Leaves aead material uuids a.uuid?.toList s (s.step settings aead a).1 := by
  cases a with
  | run task input => exact leaves_run h hagrees hnew
  | call task disk => exact leaves_call h task disk
  | wake task => exact leaves_wake h task

/-! ## The answers -/

/-- The answer to an upload comes behind a call that has returned. -/
theorem step_uploaded (h : SiteOk aead material uuids s) {a : SiteAct} {uri : String} {size : Nat}
    (hout : (s.step settings aead a).2.uploaded = some (uri, size)) :
    ∃ task job, a = .wake task ∧ s.jobs task = some job ∧ job.progress = .returned uri ∧
      size = job.data.length := by
  cases a with
  | run task input =>
    rw [Site.step] at hout
    split at hout
    · cases hout
    · rename_i hsink
      have heffect := run_effect settings aead s.server task (by simpa using hsink)
      dsimp only at hout
      generalize Upload.step settings aead s.server ⟨task, input⟩ = result at heffect hout
      cases heffect with
      | quiet _ _ hanswer _ => cases hanswer.symm.trans hout
      | begun _ _ _ _ => cases hout
      | handed _ _ _ _ => cases hout
  | call task disk =>
    unfold Site.step at hout
    dsimp only at hout
    split at hout <;> cases hout
  | wake task =>
    unfold Site.step at hout
    dsimp only at hout
    split at hout
    case h_2 => cases hout
    case h_1 input hinput =>
      obtain ⟨job, hjob, hinput⟩ := Option.bind_eq_some_iff.mp hinput
      obtain ⟨resp, heq, hanswer⟩ :=
        wake_effect settings (h.jobs task job hjob) hinput
      dsimp only at hout
      rw [heq] at hout
      exact ⟨task, job, rfl, hjob, hanswer uri size hout⟩

/-- The directory stays where it is. -/
theorem step_bucket (h : SiteOk aead material uuids s) (a : SiteAct) :
    (s.step settings aead a).1.sink.bucket = s.sink.bucket := by
  cases a with
  | run task input =>
    rw [Site.step]
    split <;> rfl
  | call task disk =>
    unfold Site.step
    dsimp only
    split
    case h_2 => rfl
    case h_1 name data hjob =>
      obtain ⟨progress, objects, heq, _⟩ := call_effect (h.jobs task _ hjob) disk
      dsimp only
      rw [heq]
  | wake task =>
    unfold Site.step
    dsimp only
    split <;> rfl

end

/-- What a run of the site is made of. -/
abbrev SiteStep := Moment Site SiteAct Output

/-- What the answer `uri` and `size` to `form` says of the object `name`:
it holds what the form opens to with the key that QKD2 has for its id. For
a form that a client has made of a file, this is the file. -/
structure Answers (aead : Aead) (material : String → Bytes) (form : UploadRequest)
    (bucket uri : String) (size : Nat) (name : String) (data : Bytes) : Prop where
  named : ∃ uuid filename, form.filename = .text filename ∧ name = objectName uuid filename
  opened : decrypt aead (material form.keyId) form = some data
  size_eq : size = data.length
  uri_eq : uri = "gs://" ++ bucket ++ "/" ++ name
  client : ∀ nonce filename content,
    uploadForm aead nonce form.keyId (material form.keyId) filename content = some form →
      form.filename = .text filename ∧ data = content

/-- The uris that were answered. -/
def uploadedUris (steps : List SiteStep) : List String :=
  steps.filterMap fun m => m.out.uploaded.map (·.1)

/-- A run of the site that starts with the directory `sink`. -/
structure Uploads (aead : Aead) (material : String → Bytes) (sink : DirSink)
    (steps : List SiteStep) (final : Site) : Prop where
  earlier : ∀ name data, sink.objects.lookup name = some data →
    final.sink.objects.lookup name = some data
  kept : ∀ m ∈ steps, ∀ uri size, m.out.uploaded = some (uri, size) →
    ∃ task form name data, m.act = .wake task ∧ m.pre.forms task = some form ∧
      Answers aead material form sink.bucket uri size name data ∧
      final.sink.objects.lookup name = some data
  apart : (uploadedUris steps).Nodup

section

variable {settings : UploadSettings} {aead : Aead} {material : String → Bytes} {sink : DirSink}
  {uuids : List String} {past : List SiteStep} {s : Site}

/-- What is known of a run so far. -/
structure RunOk (aead : Aead) (material : String → Bytes) (sink : DirSink) (uuids : List String)
    (past : List SiteStep) (s : Site) : Prop where
  ok : SiteOk aead material uuids s
  bucket : s.sink.bucket = sink.bucket
  earlier : ∀ name data, sink.objects.lookup name = some data → Kept uuids s name data
  answered : ∀ m ∈ past, ∀ uri size, m.out.uploaded = some (uri, size) →
    ∃ task form name data, m.act = .wake task ∧ m.pre.forms task = some form ∧
      Answers aead material form sink.bucket uri size name data ∧ Kept uuids s name data
  apart : (uploadedUris past).Nodup

variable (settings) in
/-- An object becomes kept with the answer to its task. -/
theorem kept_finished (h : SiteOk aead material uuids s) {task : Nat} {job : Job} {uri : String}
    (hjob : s.jobs task = some job) (hreturned : job.progress = .returned uri) :
    Kept uuids (s.step settings aead (.wake task)).1 job.name job.data := by
  have hok := h.jobs task job hjob
  have hinput : job.progress.input = some (.written uri) := by rw [hreturned]; rfl
  obtain ⟨resp, heq, _⟩ := wake_effect settings hok hinput
  unfold Site.step
  dsimp only
  rw [hjob, Option.bind_some, hinput]
  dsimp only
  rw [heq]
  refine ⟨(hok.returned uri hreturned).2, hok.drawn, fun t other hother hsame => ?_⟩
  rcases update_eq_some.mp hother with ⟨_, hnone⟩ | ⟨hne, hold⟩
  · cases hnone
  · exact hne (h.apart t task other job hold hjob hsame)

/-- What an answer says when it is given. -/
theorem answers_finished (h : SiteOk aead material uuids s) {task : Nat} {job : Job} {uri : String}
    (hjob : s.jobs task = some job) (hreturned : job.progress = .returned uri) :
    ∃ form, s.forms task = some form ∧
      Answers aead material form s.sink.bucket uri job.data.length job.name job.data := by
  have hok := h.jobs task job hjob
  obtain ⟨form, uuid, filename, hform, hname, _, hobject, hopen⟩ := hok.origin
  refine ⟨form, hform, ⟨uuid, filename, hname, hobject⟩, hopen, rfl, (hok.returned uri hreturned).1,
    fun nonce name content hclient => ?_⟩
  obtain ⟨_, hfilename, hcontent⟩ := decrypt_uploadForm hclient
  exact ⟨hfilename, Option.some.inj (hopen.symm.trans hcontent)⟩

theorem uploadedUris_concat (m : SiteStep) :
    uploadedUris (past ++ [m]) = uploadedUris past ++ (m.out.uploaded.map (·.1)).toList := by
  unfold uploadedUris
  rw [List.filterMap_append, List.filterMap_cons, List.filterMap_nil]
  cases m.out.uploaded <;> rfl

/-- An object that is kept has another uri than the one of a call. -/
theorem uri_fresh (h : RunOk aead material sink uuids past s) {task : Nat} {job : Job}
    {uri : String} (hjob : s.jobs task = some job) (hreturned : job.progress = .returned uri) :
    uri ∉ uploadedUris past := by
  intro hmem
  obtain ⟨m, hm, hsome⟩ := List.mem_filterMap.mp hmem
  obtain ⟨⟨uri', size⟩, hanswer, rfl⟩ := Option.map_eq_some_iff.mp hsome
  obtain ⟨_, _, name, data, _, _, hanswers, hkept⟩ := h.answered m hm uri' size hanswer
  have hshape := ((h.ok.jobs task job hjob).returned uri' hreturned).1
  rw [hanswers.uri_eq, h.bucket] at hshape
  exact hkept.alone task job hjob ((String.append_right_inj _).mp hshape).symm

variable (settings) in
theorem runOk_step (h : RunOk aead material sink uuids past s) {a : SiteAct}
    (hagrees : a.Agrees material) (hnew : ∀ uuid ∈ a.uuid?, uuid ∉ uuids) :
    RunOk aead material sink (uuids ++ a.uuid?.toList)
      (past ++ [moment (Site.step settings aead) s a]) (s.step settings aead a).1 := by
  obtain ⟨hok, hkept⟩ := leaves_step settings h.ok hagrees hnew
  refine ⟨hok, (step_bucket h.ok a).trans h.bucket,
    fun name data hstored => hkept name data (h.earlier name data hstored), ?_, ?_⟩
  · intro m hm uri size hout
    rcases List.mem_append.mp hm with hm | hm
    · obtain ⟨task, form, name, data, hact, hform, hanswers, hold⟩ := h.answered m hm uri size hout
      exact ⟨task, form, name, data, hact, hform, hanswers, hkept name data hold⟩
    · cases List.mem_singleton.mp hm
      obtain ⟨task, job, rfl, hjob, hreturned, rfl⟩ := step_uploaded h.ok hout
      obtain ⟨form, hform, hanswers⟩ := answers_finished h.ok hjob hreturned
      rw [h.bucket] at hanswers
      have hstored := kept_finished settings h.ok hjob hreturned
      refine ⟨task, form, job.name, job.data, rfl, hform, hanswers, ?_⟩
      exact ⟨hstored.stored, hstored.drawn.mono, hstored.alone⟩
  · rw [uploadedUris_concat]
    cases hout : (moment (Site.step settings aead) s a).out.uploaded with
    | none => simpa using h.apart
    | some answer =>
      obtain ⟨uri, size⟩ := answer
      obtain ⟨task, job, rfl, hjob, hreturned, _⟩ := step_uploaded h.ok hout
      refine List.Nodup.append h.apart (List.nodup_singleton uri) ?_
      simpa using uri_fresh h hjob hreturned

variable (aead) in
/-- The start: the process is new, the directory is not. -/
theorem runOk_start {old : List String}
    (hold : ∀ name data, sink.objects.lookup name = some data → Drawn old name) :
    RunOk aead material sink old [] { sink } where
  ok := by
    constructor
    case keys =>
      intro keyId entry hentry
      rw [AList.lookup_empty] at hentry
      cases hentry
    case reading =>
      intro task key req hreading
      cases hreading
    case jobs =>
      intro task job hjob
      cases hjob
    case apart =>
      intro task task' job job' hjob
      cases hjob
    case objects => exact hold
  bucket := rfl
  earlier name data hstored := by
    refine ⟨hstored, hold name data hstored, fun task job hjob => ?_⟩
    cases hjob
  answered m hm := by cases hm
  apart := .nil

variable (settings) in
/-- **Every run** of the site keeps what is known of it. -/
theorem runOk_run {acts : List SiteAct} (h : RunOk aead material sink uuids past s)
    (hnodup : (uuids ++ acts.filterMap SiteAct.uuid?).Nodup)
    (hagrees : ∀ a ∈ acts, a.Agrees material) :
    RunOk aead material sink (uuids ++ acts.filterMap SiteAct.uuid?)
      (past ++ trace (Site.step settings aead) s acts)
      (exec (Site.step settings aead) s acts) := by
  induction acts generalizing uuids past s with
  | nil => simpa [trace, exec] using h
  | cons a acts ih =>
    obtain ⟨ha, hacts⟩ := List.forall_mem_cons.mp hagrees
    have hsplit : (a :: acts).filterMap SiteAct.uuid? =
        a.uuid?.toList ++ acts.filterMap SiteAct.uuid? := by
      rw [List.filterMap_cons]
      cases a.uuid? <;> rfl
    rw [hsplit, ← List.append_assoc] at hnodup ⊢
    have hnew : ∀ uuid ∈ a.uuid?, uuid ∉ uuids := by
      intro uuid huuid hmem
      have hone := (List.nodup_append.mp (List.nodup_append.mp hnodup).1).2.2
      exact hone uuid hmem uuid (Option.mem_toList.mpr huuid) rfl
    have hnext := ih (runOk_step settings h ha hnew) hnodup hacts
    simpa [trace, exec, List.append_assoc] using hnext

end

/-- Another uuid. -/
def Uuid.one : Uuid := ⟨"00000000-0000-0000-0000-000000000001", by decide,
  List.all_iff_forall_prop.mp (by decide)⟩

/-- A directory that an earlier process has written an object to. -/
def usedSink : DirSink where
  bucket := "b"
  objects := (∅ : Dict String Bytes).assign (objectName .one "a.txt") [1]

theorem usedSink_drawn (name : String) (data : Bytes)
    (h : usedSink.objects.lookup name = some data) : Drawn [Uuid.one.text] name := by
  unfold usedSink at h
  rw [Dict.lookup_assign] at h
  split at h
  · exact ⟨.one, "a.txt", List.mem_singleton_self _, by assumption⟩
  · rw [AList.lookup_empty] at h
    cases h

/-- The file of `sealedForm` is uploaded under the same name. -/
def keptRun : List SiteAct :=
  keyedRun.map (fun a => .run a.task a.input) ++
    [.run 1 (.upload 600 sealedForm), .run 1 (.read .nil), .call 1 .writes, .wake 1]

theorem keptRun_agrees (a : SiteAct) (h : a ∈ keptRun) :
    a.Agrees fun _ => List.replicate 32 7 := by
  simp only [keptRun, keyedRun, List.map_cons, List.map_nil, List.cons_append, List.nil_append,
    List.mem_cons, List.not_mem_nil, or_false] at h
  rcases h with rfl | rfl | rfl | rfl | rfl | rfl <;> trivial

end QkdEkm.Upload
