import Mathlib.Data.Bool.AllAny
import QkdEkm.Upload.App

/-!
# Decision — which uploads are accepted

The dictionary of file keys is pruned whenever a handler starts, so it
holds what was answered less than a TTL ago: it forgets nothing else, and
an identifier that the EKM does not repeat is never overwritten
(`cached_run`). What an upload does after its lookup depends on nothing
that another task writes.
-/

namespace QkdEkm.Upload

open QkdEkm.Common QkdEkm.Lib

/-- AES-GCM accepts exactly what it has sealed, and a sealed text holds
a tag of sixteen bytes. -/
def Authenticates (aead : Aead) : Prop :=
  ∀ key nonce ciphertext aad plaintext,
    aead.decrypt key nonce ciphertext aad = some plaintext →
      aead.encrypt key nonce plaintext aad = some ciphertext ∧ 16 ≤ ciphertext.length

/-- The file of the form is `plaintext` sealed with `key`, under the name
in the form. -/
def Authentic (aead : Aead) (key : Bytes) (req : UploadRequest) (plaintext : Bytes) : Prop :=
  ∃ aad nonce, req.filename.encode = some aad ∧
    aesGcmWrap aead nonce key plaintext aad = some req.file

/-- **Decrypting recognises authentic files.** -/
theorem decrypt_eq_some {aead : Aead} (haead : Authenticates aead) {key : Bytes}
    {req : UploadRequest} {plaintext : Bytes} :
    decrypt aead key req = some plaintext ↔ Authentic aead key req plaintext := by
  unfold decrypt Authentic
  rw [Option.bind_eq_some_iff]
  constructor
  · rintro ⟨aad, haad, h⟩
    obtain ⟨hseal, htag⟩ := haead _ _ _ _ _ h
    have hlength : (req.file.take 12).length = 12 := by
      rw [List.length_drop] at htag
      rw [List.length_take]
      omega
    refine ⟨aad, ⟨req.file.take 12, hlength⟩, haad, ?_⟩
    rw [aesGcmWrap, hseal, Option.map_some, List.take_append_drop]
  · rintro ⟨aad, nonce, haad, h⟩
    exact ⟨aad, haad, aesGcmUnwrap_wrap aead h⟩

/-! ## What a run shows -/

/-- A file key that was answered: its identifier, the key, and when. -/
structure Answered where
  keyId : String
  key : Bytes
  time : Time
  deriving DecidableEq

/-- The file key that a section answers with. -/
def answeredKey (m : Step) : Option Answered :=
  match m.act.input, m.out with
  | .ekm now (.key keyId key), .answer ⟨200, .fileKey _ _⟩ => some ⟨keyId, key, now⟩
  | _, _ => none

def answeredKeys (steps : List Step) : List Answered := steps.filterMap answeredKey

/-- What a section reads off the clock. -/
def Act.clock (a : Act) : Option Time :=
  match a.input with
  | .fileKey now _ | .ekm now (.key _ _) | .upload now _ => some now
  | _ => none

/-- The section answers a request. -/
def Output.response : Output → Option Response
  | .answer resp => some resp
  | _ => none

/-- The object that a section hands to the sink. -/
def Output.object : Output → Option (String × Bytes)
  | .store name data => some (name, data)
  | _ => none

/-- What a task does up to its first answer. -/
def life (task : Nat) : List Step → List Output
  | [] => []
  | m :: ms =>
    if m.act.task = task then
      if m.out.response.isSome then [m.out] else m.out :: life task ms
    else life task ms

def answerOf (outs : List Output) : Option Response := outs.findSome? Output.response

def objectsOf (outs : List Output) : List (String × Bytes) := outs.filterMap Output.object

/-! ## The cache -/

section

variable {settings : UploadSettings} {aead : Aead} {s : Server} {now : Time} {keyId : String}

@[simp] theorem suspend_keys (task : Nat) (stage : Stage) :
    (s.suspend task stage).keys = s.keys := rfl

@[simp] theorem suspend_self (task : Nat) (stage : Stage) :
    (s.suspend task stage).stages task = stage := Function.update_self ..

theorem suspend_ne {task task' : Nat} (stage : Stage) (h : task' ≠ task) :
    (s.suspend task stage).stages task' = s.stages task' := Function.update_of_ne h ..

/-- Pruning removes what has expired. -/
theorem lookup_pruneKeys :
    (s.pruneKeys now).keys.lookup keyId = (s.keys.lookup keyId).filter (now < ·.2) := by
  unfold Server.pruneKeys
  dsimp only
  rw [Dict.lookup_foldl_erase]
  have hmem : keyId ∈ (s.keys.items.filter fun item => item.2.2 ≤ now).map (·.1) ↔
      ∃ entry, s.keys.lookup keyId = some entry ∧ entry.2 ≤ now := by
    constructor
    · intro h
      obtain ⟨⟨_, entry⟩, hitem, rfl⟩ := List.mem_map.mp h
      obtain ⟨hitem, hle⟩ := List.mem_filter.mp hitem
      exact ⟨entry, Dict.mem_items.mp hitem, of_decide_eq_true hle⟩
    · rintro ⟨entry, hitem, hle⟩
      exact List.mem_map.mpr ⟨(keyId, entry),
        List.mem_filter.mpr ⟨Dict.mem_items.mpr hitem, decide_eq_true hle⟩, rfl⟩
  simp only [hmem]
  rcases s.keys.lookup keyId with _ | entry
  · simp
  · by_cases hle : entry.2 ≤ now
    · simp [hle, Option.filter_some, not_lt.mpr hle]
    · simp [hle, Option.filter_some, not_le.mp hle]

@[simp] theorem pruneKeys_stages : (s.pruneKeys now).stages = s.stages := rfl

/-- An upload for an identifier that is not in the pruned dictionary. -/
theorem upload_unknown {task : Nat} {req : UploadRequest}
    (h : (s.pruneKeys now).keys.lookup req.keyId = none) :
    upload s task now req = (s.pruneKeys now).finish task
      (respond (httpError 404 ("unknown key id " ++ req.keyId))) := by
  simp only [upload, Server.getKey, h]

/-- An upload for one that is. -/
theorem upload_known {task : Nat} {req : UploadRequest} {entry : Bytes × Time}
    (h : (s.pruneKeys now).keys.lookup req.keyId = some entry) :
    upload s task now req =
      ((s.pruneKeys now).suspend task (.reading entry.1 req), .nothing) := by
  simp only [upload, Server.getKey, h]

end

/-- The sections of a task: what the input does in the state. -/
inductive Section (settings : UploadSettings) (aead : Aead) (s : Server) (task : Nat) :
    Input → Server × Output → Prop
  | fileKey (now : Time) (body : Option FileKeyRequest) :
      Section settings aead s task (.fileKey now body) (fileKey settings s task now body)
  | upload (now : Time) (req : UploadRequest) :
      Section settings aead s task (.upload now req) (upload s task now req)
  | invalid : Section settings aead s task .invalid
      (s.finish task (respond (httpError 400 "invalid request")))
  | fetched (peer : String) (now : Time) (answer : EkmAnswer) :
      Section settings aead s task (.ekm now answer)
        (fileKeyFetched settings s task peer now answer)
  | read (key : Bytes) (req : UploadRequest) (uuid : Uuid) :
      Section settings aead s task (.read uuid) (uploadRead aead s task key req uuid)
  | written (plaintext : Bytes) (uri : String) : Section settings aead s task (.written uri)
      (s.finish task ⟨200, .uploaded uri plaintext.length⟩)
  | sinkRaised : Section settings aead s task .sinkRaised (s.finish task unhandled)
  | nothing (input : Input) : Section settings aead s task input (s, .nothing)

theorem step_section (settings : UploadSettings) (aead : Aead) (s : Server) (a : Act) :
    Section settings aead s a.task a.input (step settings aead s a) := by
  unfold step
  split
  case h_1 now body _ hinput => exact hinput ▸ .fileKey now body
  case h_2 now req _ hinput => exact hinput ▸ .upload now req
  case h_3 _ hinput => exact hinput ▸ .invalid
  case h_4 peer now answer _ hinput => exact hinput ▸ .fetched peer now answer
  case h_5 key req uuid _ hinput => exact hinput ▸ .read key req uuid
  case h_6 plaintext uri _ hinput => exact hinput ▸ .written plaintext uri
  case h_7 _ hinput => exact hinput ▸ .sinkRaised
  case h_8 => exact .nothing a.input

/-- What a section does to the dictionary: nothing, a pruning, or a new
entry. -/
inductive KeysEffect (settings : UploadSettings) (m : Step) : Prop
  | same (hkeys : m.post.keys = m.pre.keys) (hkey : answeredKey m = none)
  | pruned (now : Time) (hnow : m.act.clock = some now)
      (hkeys : m.post.keys = (m.pre.pruneKeys now).keys) (hkey : answeredKey m = none)
  | added (k : Answered) (hnow : m.act.clock = some k.time) (hkey : answeredKey m = some k)
      (hkeys : m.post.keys =
        m.pre.keys.assign k.keyId (k.key, k.time + settings.fileKeyTtlS))

theorem answeredKey_nothing (s s' : Server) (a : Act) :
    answeredKey ⟨s, a, .nothing, s'⟩ = none := by
  unfold answeredKey
  split
  · rename_i hout
    cases hout
  · rfl

theorem keysEffect (settings : UploadSettings) (aead : Aead) (s : Server) (a : Act) :
    KeysEffect settings (moment (step settings aead) s a) := by
  have hsection := step_section settings aead s a
  obtain ⟨task, input⟩ := a
  unfold moment
  generalize step settings aead s ⟨task, input⟩ = result at hsection ⊢
  cases hsection with
  | fileKey now body => exact .pruned now rfl rfl rfl
  | upload now req =>
    have hkeys : (upload s task now req).1.keys = (s.pruneKeys now).keys := by
      rcases h : (s.pruneKeys now).keys.lookup req.keyId with _ | entry
      · rw [upload_unknown h]
        rfl
      · rw [upload_known h]
        rfl
    exact .pruned now rfl hkeys rfl
  | fetched peer now answer =>
    cases answer with
    | key keyId key => exact .added ⟨keyId, key, now⟩ rfl rfl rfl
    | runtimeError message | other => exact .same rfl rfl
  | read key req uuid =>
    have hkeys : (uploadRead aead s task key req uuid).1.keys = s.keys := by
      unfold uploadRead
      split <;> rfl
    exact .same hkeys rfl
  | invalid | written _ _ | sinkRaised => exact .same rfl rfl
  | nothing input => exact .same rfl (answeredKey_nothing s s _)

/-- The dictionary against the file keys answered so far: it holds only
such keys, and all those that have not expired. -/
structure Cached (settings : UploadSettings) (past : List Step) (s : Server) : Prop where
  known : ∀ keyId entry, s.keys.lookup keyId = some entry →
    ∃ k ∈ answeredKeys past, k.keyId = keyId ∧ entry = (k.key, k.time + settings.fileKeyTtlS)
  kept : ∀ k ∈ answeredKeys past,
    (∀ m ∈ past, ∀ now ∈ m.act.clock, now < k.time + settings.fileKeyTtlS) →
      s.keys.lookup k.keyId = some (k.key, k.time + settings.fileKeyTtlS)

section

variable {settings : UploadSettings} {aead : Aead} {past : List Step} {s : Server}

theorem answeredKeys_concat (m : Step) :
    answeredKeys (past ++ [m]) = answeredKeys past ++ (answeredKey m).toList := by
  unfold answeredKeys
  rw [List.filterMap_append, List.filterMap_cons, List.filterMap_nil]
  cases answeredKey m <;> rfl

theorem cached_step (h : Cached settings past s) (a : Act)
    (hids : ((answeredKeys (past ++ [moment (step settings aead) s a])).map (·.keyId)).Nodup) :
    Cached settings (past ++ [moment (step settings aead) s a]) (step settings aead s a).1 := by
  have heff := keysEffect settings aead s a
  rw [answeredKeys_concat] at hids
  generalize hm : moment (step settings aead) s a = m at heff hids ⊢
  obtain rfl : m.pre = s := by rw [← hm]; rfl
  have hpost : (step settings aead m.pre a).1 = m.post := by rw [← hm]; rfl
  rw [hpost]
  -- a deadline that lies ahead of the new run's clock lay ahead before
  have hahead : ∀ {expiry : Time},
      (∀ m' ∈ past ++ [m], ∀ now ∈ m'.act.clock, now < expiry) →
        ∀ m' ∈ past, ∀ now ∈ m'.act.clock, now < expiry :=
    fun hnow m' hm' => hnow m' (List.mem_append_left _ hm')
  constructor <;> rw [answeredKeys_concat]
  · intro keyId entry hentry
    cases heff with
    | same hkeys hkey =>
      rw [hkeys] at hentry
      simpa [hkey] using h.known keyId entry hentry
    | pruned now hnow hkeys hkey =>
      rw [hkeys, lookup_pruneKeys, Option.filter_eq_some_iff] at hentry
      simpa [hkey] using h.known keyId entry hentry.1
    | added k hnow hkey hkeys =>
      rw [hkeys, Dict.lookup_assign] at hentry
      rw [hkey]
      split at hentry
      · rename_i heq
        cases hentry
        exact ⟨k, by simp, heq.symm, rfl⟩
      · obtain ⟨k', hk', hid, rfl⟩ := h.known keyId entry hentry
        exact ⟨k', List.mem_append_left _ hk', hid, rfl⟩
  · intro k' hk' hnow'
    have hold := h.kept k'
    cases heff with
    | same hkeys hkey =>
      rw [hkeys]
      exact hold (by simpa [hkey] using hk') (hahead hnow')
    | pruned now hnow hkeys hkey =>
      rw [hkeys, lookup_pruneKeys, hold (by simpa [hkey] using hk') (hahead hnow')]
      have := hnow' m (by simp) now hnow
      simpa [Option.filter_some] using this
    | added k hnow hkey hkeys =>
      rw [hkeys, Dict.lookup_assign]
      rw [hkey] at hk' hids
      rcases List.mem_append.mp hk' with hk' | hk'
      · have hne : k'.keyId ≠ k.keyId := by
          rw [List.map_append, List.nodup_append] at hids
          exact hids.2.2 _ (List.mem_map_of_mem hk') _ (by simp)
        rw [if_neg hne]
        exact hold hk' (hahead hnow')
      · obtain rfl : k' = k := by simpa using hk'
        rw [if_pos rfl]

/-- **The cache of every run** whose EKM repeats no identifier. -/
theorem cached_run (settings : UploadSettings) (aead : Aead) (acts : List Act)
    (hids : ((answeredKeys (trace (step settings aead) {} acts)).map (·.keyId)).Nodup) :
    Cached settings (trace (step settings aead) {} acts) (exec (step settings aead) {} acts) := by
  refine trace_invariant
    (fun past s => ((answeredKeys past).map (·.keyId)).Nodup → Cached settings past s) (fun _ => True)
    (fun _ => ⟨by rintro _ _ ⟨⟩, by rintro _ ⟨⟩⟩) ?_ (fun _ _ => trivial) hids
  intro past s a ih _ hids
  refine cached_step (ih ?_) a hids
  rw [answeredKeys_concat, List.map_append] at hids
  exact (List.nodup_append.mp hids).1

end

/-! ## The lookup -/

/-- A file key with this identifier was answered less than a TTL ago. -/
def Usable (settings : UploadSettings) (history : List Answered) (now : Time) (keyId : String)
    (key : Bytes) : Prop :=
  ∃ k ∈ history, k.keyId = keyId ∧ k.key = key ∧ now - k.time < settings.fileKeyTtlS

section

variable {settings : UploadSettings} {aead : Aead} {past : List Step} {s : Server} {now : Time}
  {keyId : String} {key : Bytes}

variable (keyId key) in
/-- **The lookup finds what is usable**, if the clock did not go back. -/
theorem lookup_usable (h : Cached settings past s)
    (hclock : ∀ m ∈ past, ∀ now' ∈ m.act.clock, now' ≤ now) :
    ((s.pruneKeys now).keys.lookup keyId).map (·.1) = some key ↔
      Usable settings (answeredKeys past) now keyId key := by
  rw [lookup_pruneKeys, Option.map_eq_some_iff]
  constructor
  · rintro ⟨entry, hentry, rfl⟩
    obtain ⟨hentry, hlt⟩ := Option.filter_eq_some_iff.mp hentry
    obtain ⟨k, hk, hid, rfl⟩ := h.known keyId entry hentry
    have hlt : now < k.time + settings.fileKeyTtlS := of_decide_eq_true hlt
    exact ⟨k, hk, hid, rfl, Int.sub_left_lt_of_lt_add hlt⟩
  · rintro ⟨k, hk, rfl, rfl, hlt⟩
    have hlt : now < k.time + settings.fileKeyTtlS := Int.lt_add_of_sub_left_lt hlt
    have hkept := h.kept k hk fun m hm now' hnow' => Int.lt_of_le_of_lt (hclock m hm now' hnow') hlt
    exact ⟨_, Option.filter_eq_some_iff.mpr ⟨hkept, decide_eq_true hlt⟩, rfl⟩

end

/-! ## The rest of an upload -/

/-- What a task is resumed with, in this order. -/
def inputsOf (task : Nat) (acts : List Act) : List Input :=
  (acts.filter (·.task = task)).map (·.input)

section

variable {settings : UploadSettings} {aead : Aead} {s : Server} {task : Nat} {acts : List Act}

@[simp] theorem inputsOf_cons_self (input : Input) :
    inputsOf task (⟨task, input⟩ :: acts) = input :: inputsOf task acts := by
  simp [inputsOf]

theorem inputsOf_cons_ne {a : Act} (h : a.task ≠ task) :
    inputsOf task (a :: acts) = inputsOf task acts := by
  simp [inputsOf, h]

theorem life_act (input : Input) :
    life task (trace (step settings aead) s (⟨task, input⟩ :: acts)) =
      if (step settings aead s ⟨task, input⟩).2.response.isSome then
        [(step settings aead s ⟨task, input⟩).2]
      else
        (step settings aead s ⟨task, input⟩).2 ::
          life task (trace (step settings aead) (step settings aead s ⟨task, input⟩).1 acts) :=
  if_pos rfl

theorem life_other {a : Act} (h : a.task ≠ task) :
    life task (trace (step settings aead) s (a :: acts)) =
      life task (trace (step settings aead) (step settings aead s a).1 acts) :=
  if_neg h

/-- A section of one task leaves every other task where it is. -/
theorem step_stages_ne {a : Act} (h : a.task ≠ task) :
    (step settings aead s a).1.stages task = s.stages task := by
  have hsection := step_section settings aead s a
  obtain ⟨actor, input⟩ := a
  have hne : task ≠ actor := Ne.symm h
  generalize step settings aead s ⟨actor, input⟩ = result at hsection ⊢
  cases hsection with
  | fileKey | invalid | written | sinkRaised => exact suspend_ne _ hne
  | upload now req =>
    rcases hlook : (s.pruneKeys now).keys.lookup req.keyId with _ | entry
    · rw [upload_unknown hlook]
      exact suspend_ne _ hne
    · rw [upload_known hlook]
      exact suspend_ne _ hne
  | fetched peer now answer => cases answer <;> exact suspend_ne _ hne
  | read key req uuid =>
    unfold uploadRead
    split <;> exact suspend_ne _ hne
  | nothing => rfl

/-- A section without an outcome goes unnoticed. -/
theorem life_idle {input : Input}
    (hstep : step settings aead s ⟨task, input⟩ = (s, .nothing)) :
    life task (trace (step settings aead) s (⟨task, input⟩ :: acts)) =
      .nothing :: life task (trace (step settings aead) s acts) := by
  rw [life_act, hstep]
  rfl

/-- What a task waits for. -/
def Stage.Awaits : Stage → Input → Prop
  | .idle, .fileKey _ _ | .idle, .upload _ _ | .idle, .invalid => True
  | .fetching _, .ekm _ _ => True
  | .reading _ _, .read _ => True
  | .writing _, .written _ | .writing _, .sinkRaised => True
  | _, _ => False

theorem step_ignored {a : Act} (h : ¬ (s.stages a.task).Awaits a.input) :
    step settings aead s a = (s, .nothing) := by
  unfold step
  split
  case h_8 => rfl
  all_goals
    rename_i hstage hinput
    rw [hstage, hinput] at h
    exact absurd trivial h

/-- **A suspended task passes over its inputs**, up to one that it waits
for. -/
theorem suspended_life {stage : Stage} {P : List Input → List Output → Prop} (hnil : P [] [])
    (hpass : ∀ input inputs outs, ¬ stage.Awaits input → P inputs outs →
      P (input :: inputs) (.nothing :: outs))
    (hwake : ∀ s input acts, s.stages task = stage → stage.Awaits input →
      P (input :: inputsOf task acts)
        (life task (trace (step settings aead) s (⟨task, input⟩ :: acts))))
    (acts : List Act) (hstage : s.stages task = stage) :
    P (inputsOf task acts) (life task (trace (step settings aead) s acts)) := by
  induction acts generalizing s with
  | nil => exact hnil
  | cons a acts ih =>
    by_cases ha : a.task = task
    · obtain ⟨task', input⟩ := a
      obtain rfl : task = task' := ha.symm
      rw [inputsOf_cons_self]
      by_cases hawaits : stage.Awaits input
      · exact hwake s input acts hstage hawaits
      · rw [life_idle (step_ignored (by rwa [hstage]))]
        exact hpass input _ _ hawaits (ih hstage)
    · rw [inputsOf_cons_ne ha, life_other ha]
      exact ih ((step_stages_ne ha).trans hstage)

/-- How an upload goes on that is suspended while the sink writes. -/
structure Writes (plaintext : Bytes) (inputs : List Input) (outs : List Output) : Prop where
  objects : objectsOf outs = []
  response : ∀ resp, answerOf outs = some resp →
    ∃ uri, resp = ⟨200, .uploaded uri plaintext.length⟩
  answered : answerOf outs = none → ∀ uri, .written uri ∉ inputs

theorem objectsOf_nothing (outs : List Output) : objectsOf (.nothing :: outs) = objectsOf outs := rfl

theorem answerOf_nothing (outs : List Output) : answerOf (.nothing :: outs) = answerOf outs := rfl

variable (settings aead acts) in
theorem writing_life {plaintext : Bytes} (hstage : s.stages task = .writing plaintext)
    (hsink : .sinkRaised ∉ inputsOf task acts) :
    Writes plaintext (inputsOf task acts) (life task (trace (step settings aead) s acts)) := by
  refine suspended_life (P := fun inputs outs => .sinkRaised ∉ inputs →
    Writes plaintext inputs outs) ?_ ?_ ?_ acts hstage hsink
  · intro _
    exact ⟨rfl, by rintro _ ⟨⟩, fun _ _ => List.not_mem_nil⟩
  · intro input inputs outs hawaits ih hsink
    have hrest := ih (List.not_mem_of_not_mem_cons hsink)
    refine ⟨hrest.objects, hrest.response, fun hnone uri hmem => ?_⟩
    rcases List.mem_cons.mp hmem with rfl | hmem
    · exact hawaits trivial
    · exact hrest.answered hnone uri hmem
  · intro s input acts hstage hawaits hsink
    cases input with
    | written uri =>
      have hlife : life task (trace (step settings aead) s (⟨task, .written uri⟩ :: acts)) =
          [.answer ⟨200, .uploaded uri plaintext.length⟩] := by
        simp [life_act, step, hstage, Server.finish, Output.response]
      rw [hlife]
      refine ⟨rfl, ?_, fun hnone => (by cases hnone)⟩
      intro resp hresp
      cases hresp
      exact ⟨uri, rfl⟩
    | sinkRaised => exact absurd (List.mem_cons_self ..) hsink
    | fileKey | ekm | upload | read | invalid => cases hawaits

/-- How an upload goes on that is suspended while its file is read. -/
structure Reads (aead : Aead) (key : Bytes) (req : UploadRequest) (inputs : List Input)
    (outs : List Output) : Prop where
  stored : ∀ plaintext, decrypt aead key req = some plaintext →
    ∀ resp, answerOf outs = some resp → ∃ filename uuid uri, req.filename = .text filename ∧
      objectsOf outs = [(objectName uuid filename, plaintext)] ∧
      resp = ⟨200, .uploaded uri plaintext.length⟩
  refused : decrypt aead key req = none → objectsOf outs = [] ∧
    ∀ resp, answerOf outs = some resp → resp = respond (httpError 400 "decryption failed")
  answered : answerOf outs = none → (∀ uuid, .read uuid ∉ inputs) ∨
    (decrypt aead key req).isSome ∧ ∀ uuid uri, ¬ [.read uuid, .written uri].Sublist inputs

theorem decrypt_text {key : Bytes} {req : UploadRequest} {plaintext : Bytes}
    (h : decrypt aead key req = some plaintext) : ∃ filename, req.filename = .text filename := by
  obtain ⟨file, keyId, filename⟩ := req
  cases filename with
  | text filename => exact ⟨filename, rfl⟩
  | unencodable => cases h

theorem uploadRead_some {key : Bytes} {req : UploadRequest} {plaintext : Bytes} {filename : String}
    (hname : req.filename = .text filename) (h : decrypt aead key req = some plaintext)
    (uuid : Uuid) : uploadRead aead s task key req uuid =
      (s.suspend task (.writing plaintext), .store (objectName uuid filename) plaintext) := by
  simp only [uploadRead, hname, h]

theorem uploadRead_none {key : Bytes} {req : UploadRequest} (h : decrypt aead key req = none)
    (uuid : Uuid) : uploadRead aead s task key req uuid =
      s.finish task (respond (httpError 400 "decryption failed")) := by
  unfold uploadRead
  split
  · rename_i hsome
    cases h.symm.trans hsome
  · rfl

/-- The section that decrypts, and what follows it. -/
theorem read_life {key : Bytes} {req : UploadRequest} (uuid : Uuid)
    (hstage : s.stages task = .reading key req) (hsink : .sinkRaised ∉ inputsOf task acts) :
    Reads aead key req (.read uuid :: inputsOf task acts)
      (life task (trace (step settings aead) s (⟨task, .read uuid⟩ :: acts))) := by
  have hstep : step settings aead s ⟨task, .read uuid⟩ = uploadRead aead s task key req uuid := by
    simp only [step, hstage]
  rw [life_act, hstep]
  rcases hdec : decrypt aead key req with _ | plaintext
  · rw [uploadRead_none hdec]
    refine ⟨fun _ h => (by cases hdec.symm.trans h), fun _ => ⟨rfl, ?_⟩,
      fun hnone => (by cases hnone)⟩
    intro resp hresp
    cases hresp
    rfl
  · obtain ⟨filename, hname⟩ := decrypt_text hdec
    rw [uploadRead_some hname hdec]
    have hrest := writing_life settings aead acts
      (suspend_self (s := s) task (.writing plaintext)) hsink
    refine ⟨?_, fun h => (by cases hdec.symm.trans h), ?_⟩
    · intro p hp resp hresp
      cases hdec.symm.trans hp
      obtain ⟨uri, rfl⟩ := hrest.response resp hresp
      refine ⟨filename, uuid, uri, hname, ?_, rfl⟩
      exact congrArg ((objectName uuid filename, plaintext) :: ·) hrest.objects
    · intro hnone
      refine .inr ⟨by rw [hdec]; rfl, fun uuid' uri hsub => hrest.answered hnone uri ?_⟩
      -- behind the reading, the answer of the sink would come
      have htail : [Input.written uri].Sublist (inputsOf task acts) := hsub.tail
      exact htail.subset (List.mem_singleton_self _)

variable (settings aead acts) in
theorem reading_life {key : Bytes} {req : UploadRequest}
    (hstage : s.stages task = .reading key req) (hsink : .sinkRaised ∉ inputsOf task acts) :
    Reads aead key req (inputsOf task acts) (life task (trace (step settings aead) s acts)) := by
  refine suspended_life (P := fun inputs outs => .sinkRaised ∉ inputs →
    Reads aead key req inputs outs) ?_ ?_ ?_ acts hstage hsink
  · intro _
    exact ⟨fun _ _ _ hresp => (by cases hresp), fun _ => ⟨rfl, fun _ hresp => (by cases hresp)⟩,
      fun _ => .inl fun _ => List.not_mem_nil⟩
  · intro input inputs outs hawaits ih hsink
    have hne : ∀ uuid, Input.read uuid ≠ input := by
      intro uuid heq
      exact hawaits (heq ▸ trivial)
    have hrest := ih (List.not_mem_of_not_mem_cons hsink)
    refine ⟨hrest.stored, hrest.refused, fun hnone => ?_⟩
    rcases hrest.answered hnone with hread | ⟨hdec, hsub⟩
    · exact .inl fun uuid => List.not_mem_cons_of_ne_of_not_mem (hne uuid) (hread uuid)
    · refine .inr ⟨hdec, fun uuid uri hsub' => hsub uuid uri ?_⟩
      rcases List.sublist_cons_iff.mp hsub' with hsub' | ⟨_, heq, _⟩
      · exact hsub'
      · exact absurd (List.cons.inj heq).1 (hne uuid)
  · intro s input acts hstage hawaits hsink
    cases input with
    | read uuid => exact read_life uuid hstage (List.not_mem_of_not_mem_cons hsink)
    | fileKey | ekm | upload | written | sinkRaised | invalid => cases hawaits

end

/-! ## The decision -/

/-- A run whose clock does not go back, whose EKM repeats no identifier
and whose sink does not fail. -/
structure Orderly (settings : UploadSettings) (aead : Aead) (acts : List Act) : Prop where
  clock : (acts.filterMap Act.clock).Pairwise (· ≤ ·)
  ids : ((answeredKeys (trace (step settings aead) {} acts)).map (·.keyId)).Nodup
  sink : ∀ a ∈ acts, a.input ≠ .sinkRaised

/-- The identifier of the form is usable and its file authentic. -/
def Acceptable (settings : UploadSettings) (aead : Aead) (history : List Answered) (now : Time)
    (req : UploadRequest) : Prop :=
  ∃ key plaintext, Usable settings history now req.keyId key ∧ Authentic aead key req plaintext

/-- An upload whose lookup is at `now` is decided exactly. `inputs` is
what its task is resumed with and `outs` what it does. -/
structure Decides (settings : UploadSettings) (aead : Aead) (history : List Answered) (now : Time)
    (req : UploadRequest) (inputs : List Input) (outs : List Output) : Prop where
  status : ∀ resp, answerOf outs = some resp →
    (resp.status = 200 ↔ Acceptable settings aead history now req)
  stored : ∀ resp, answerOf outs = some resp → resp.status = 200 →
    ∃ key plaintext filename uuid uri, Usable settings history now req.keyId key ∧
      Authentic aead key req plaintext ∧ req.filename = .text filename ∧
      objectsOf outs = [(objectName uuid filename, plaintext)] ∧
      resp.reply = .uploaded uri plaintext.length
  refused : ¬ Acceptable settings aead history now req → objectsOf outs = [] ∧
    ∀ resp, answerOf outs = some resp → resp.status = 404 ∨ resp.status = 400
  answered : answerOf outs = none →
    (∃ key, Usable settings history now req.keyId key) ∧ (∀ uuid, .read uuid ∉ inputs) ∨
    Acceptable settings aead history now req ∧
      ∀ uuid uri, ¬ [.read uuid, .written uri].Sublist inputs

section

variable {settings : UploadSettings} {aead : Aead} {history : List Answered} {now : Time}
  {req : UploadRequest} {inputs : List Input} {outs : List Output}

/-- An upload with an identifier that is not usable. -/
theorem decides_unknown (h : ∀ key, ¬ Usable settings history now req.keyId key)
    (message : String) : Decides settings aead history now req inputs
      [.answer (respond (httpError 404 message))] := by
  have hnot : ¬ Acceptable settings aead history now req := fun ⟨key, _, hkey, _⟩ => h key hkey
  constructor
  · rintro _ ⟨⟩
    exact ⟨by rintro ⟨⟩, fun hacc => absurd hacc hnot⟩
  · rintro _ ⟨⟩ ⟨⟩
  · refine fun _ => ⟨rfl, ?_⟩
    rintro _ ⟨⟩
    exact .inl rfl
  · rintro ⟨⟩

/-- An upload with the one usable key of its identifier. -/
theorem decides_known (haead : Authenticates aead) (key : Bytes)
    (hkey : ∀ key', Usable settings history now req.keyId key' ↔ key = key')
    (h : Reads aead key req inputs outs) : Decides settings aead history now req inputs outs := by
  have hacc : Acceptable settings aead history now req ↔
      ∃ plaintext, decrypt aead key req = some plaintext := by
    simp only [Acceptable, hkey, decrypt_eq_some haead]
    exact ⟨fun ⟨_, p, heq, hp⟩ => ⟨p, heq ▸ hp⟩, fun ⟨p, hp⟩ => ⟨key, p, rfl, hp⟩⟩
  constructor
  · intro resp hresp
    rw [hacc]
    rcases hdec : decrypt aead key req with _ | plaintext
    · obtain rfl := (h.refused hdec).2 resp hresp
      exact ⟨by rintro ⟨⟩, by rintro ⟨_, ⟨⟩⟩⟩
    · obtain ⟨_, _, _, _, _, rfl⟩ := h.stored plaintext hdec resp hresp
      exact ⟨fun _ => ⟨plaintext, rfl⟩, fun _ => rfl⟩
  · intro resp hresp h200
    rcases hdec : decrypt aead key req with _ | plaintext
    · obtain rfl := (h.refused hdec).2 resp hresp
      cases h200
    · obtain ⟨filename, uuid, uri, hname, hobjects, rfl⟩ := h.stored plaintext hdec resp hresp
      exact ⟨key, plaintext, filename, uuid, uri, (hkey key).mpr rfl,
        (decrypt_eq_some haead).mp hdec, hname, hobjects, rfl⟩
  · intro hnot
    rcases hdec : decrypt aead key req with _ | plaintext
    · refine ⟨(h.refused hdec).1, fun resp hresp => .inr ?_⟩
      rw [(h.refused hdec).2 resp hresp]
      rfl
    · exact absurd (hacc.mpr ⟨plaintext, hdec⟩) hnot
  · intro hnone
    rcases h.answered hnone with hread | ⟨hdec, hsub⟩
    · exact .inl ⟨⟨key, (hkey key).mpr rfl⟩, hread⟩
    · exact .inr ⟨hacc.mpr (Option.isSome_iff_exists.mp hdec), hsub⟩

end

theorem act_of_mem_trace {settings : UploadSettings} {aead : Aead} {s : Server} {acts : List Act}
    {m : Step} (h : m ∈ trace (step settings aead) s acts) : m.act ∈ acts := by
  obtain ⟨before, after, rfl, _⟩ := mem_trace h
  simp

/-- **The upload decision is exact.** In an orderly run, an upload is
answered with 200 if and only if its identifier was answered to a request
for a file key less than a TTL before its lookup, and its file is
authentic under that key and the filename. It then writes one object, the
plaintext, and reports its size; any other upload is answered with 404 or
400 and writes nothing. It is left unanswered only if its file is never
read or the sink never returns. -/
theorem upload_decides {settings : UploadSettings} {aead : Aead} (haead : Authenticates aead)
    {before after : List Act} {task : Nat} {now : Time} {req : UploadRequest}
    (hrun : Orderly settings aead (before ++ ⟨task, .upload now req⟩ :: after))
    (hidle : (exec (step settings aead) {} before).stages task = .idle) :
    Decides settings aead (answeredKeys (trace (step settings aead) {} before)) now req
      (inputsOf task after)
      (life task (trace (step settings aead) (exec (step settings aead) {} before)
        (⟨task, .upload now req⟩ :: after))) := by
  have hids := hrun.ids
  rw [trace_append, answeredKeys, List.filterMap_append, List.map_append] at hids
  have hcached := cached_run settings aead before (List.nodup_append.mp hids).1
  have hclock : ∀ m ∈ trace (step settings aead) {} before, ∀ now' ∈ m.act.clock, now' ≤ now := by
    intro m hm now' hnow'
    have hpair := hrun.clock
    rw [List.filterMap_append, List.pairwise_append] at hpair
    refine hpair.2.2 now' (List.mem_filterMap.mpr ⟨m.act, act_of_mem_trace hm, hnow'⟩) now ?_
    exact List.mem_filterMap.mpr ⟨_, List.mem_cons_self .., rfl⟩
  have husable := fun key => lookup_usable req.keyId key hcached hclock
  generalize exec (step settings aead) {} before = s at hidle husable ⊢
  have hstep : step settings aead s ⟨task, .upload now req⟩ = upload s task now req := by
    simp only [step, hidle]
  rw [life_act, hstep]
  rcases hlook : (s.pruneKeys now).keys.lookup req.keyId with _ | entry
  · rw [upload_unknown hlook]
    refine decides_unknown (fun key hkey => ?_) _
    have := (husable key).mpr hkey
    rw [hlook] at this
    cases this
  · rw [upload_known hlook]
    have hsink : .sinkRaised ∉ inputsOf task after := by
      intro hmem
      obtain ⟨a, ha, hinput⟩ := List.mem_map.mp hmem
      refine hrun.sink a (List.mem_append_right _ (List.mem_cons_of_mem _ ?_)) hinput
      exact (List.mem_filter.mp ha).1
    have hreads := reading_life settings aead after
      (suspend_self (s := s.pruneKeys now) task (.reading entry.1 req)) hsink
    refine decides_known haead entry.1 (fun key' => ?_)
      ⟨hreads.stored, hreads.refused, hreads.answered⟩
    rw [← husable, hlook]
    simp

/-! ## A run -/

theorem authenticates_tagging : Authenticates Aead.tagging := by
  intro key nonce ciphertext aad plaintext h
  simp only [Aead.tagging] at h ⊢
  split at h
  · rename_i hcond
    obtain ⟨hkey, htag⟩ := hcond
    cases h
    have hlength := congrArg List.length htag
    simp only [List.length_drop, zeroTag, List.length_replicate] at hlength
    refine ⟨?_, by omega⟩
    rw [if_pos hkey, ← htag, List.take_append_drop]
  · cases h

/-- The nil uuid. -/
def Uuid.nil : Uuid := ⟨"00000000-0000-0000-0000-000000000000", by decide,
  List.all_iff_forall_prop.mp (by decide)⟩

/-- A file key answered at 1, with material of 32 bytes. -/
def keyedRun : List Act :=
  [⟨0, .fileKey 0 none⟩, ⟨0, .ekm 1 (.key "k1" (List.replicate 32 7))⟩]

/-- The file `[5, 6]`, sealed by the tagging cipher under that key. -/
def sealedForm : UploadRequest where
  file := Nonce.zero.bytes ++ [5, 6] ++ zeroTag
  keyId := "k1"
  filename := .text "a.txt"

/-- Its upload is resumed twice. -/
def resumed : List Act := [⟨1, .read .nil⟩, ⟨1, .written "gs://b/o"⟩]

/-- **An upload just before the TTL is accepted.** -/
theorem upload_decides_keyedRun :
    Decides {} Aead.tagging (answeredKeys (trace (step {} Aead.tagging) {} keyedRun)) 600
        sealedForm (inputsOf 1 resumed)
        (life 1 (trace (step {} Aead.tagging) (exec (step {} Aead.tagging) {} keyedRun)
          (⟨1, .upload 600 sealedForm⟩ :: resumed))) ∧
      answerOf (life 1 (trace (step {} Aead.tagging) (exec (step {} Aead.tagging) {} keyedRun)
        (⟨1, .upload 600 sealedForm⟩ :: resumed))) = some ⟨200, .uploaded "gs://b/o" 2⟩ :=
  ⟨upload_decides authenticates_tagging
    ⟨by decide +kernel, by decide +kernel, by simp [keyedRun, resumed]⟩ (by decide +kernel),
    by decide +kernel⟩

end QkdEkm.Upload
