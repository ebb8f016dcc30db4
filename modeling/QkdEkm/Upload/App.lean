import QkdEkm.Common.Crypto
import QkdEkm.Common.Errors
import QkdEkm.Lib.Dict
import QkdEkm.Lib.Machine
import QkdEkm.Lib.Percent
import QkdEkm.Lib.Text

/-!
# App — the upload server

A request is handled by a task of its own, which is suspended while a
worker thread asks the EKM for a key, while the uploaded file is read and
while a worker thread hands the object to the sink. Everything else runs
in sections that nothing interrupts; `step` is one section of one task.
-/

namespace QkdEkm.Upload

open QkdEkm.Common QkdEkm.Lib

/-- What the monotonic clock reads. -/
abbrev Time := Int

/-- `UploadSettings`. -/
structure UploadSettings where
  fileKeyTtlS : Time := 600
  peerDefault : String := "QKD2"

/-- `FileKeyRequest`. -/
structure FileKeyRequest where
  peer : Option String := none
  deriving DecidableEq, Repr

/-- What the caller sees of `ekm_client.new`: it returns, or it raises. -/
inductive EkmAnswer
  | key (keyId : String) (key : Bytes)
  | runtimeError (message : String)
  | other
  deriving DecidableEq, Repr

/-- The form field `filename`. A Python string may hold a lone surrogate,
and then `encode` raises a `ValueError`. -/
inductive Filename
  | text (s : String)
  | unencodable
  deriving DecidableEq, Repr

/-- `filename.encode()`. -/
def Filename.encode : Filename → Option Bytes
  | .text s => some (Percent.utf8 s.toList)
  | .unencodable => none

/-- The form of `/api/upload`. -/
structure UploadRequest where
  file : Bytes
  keyId : String
  filename : Filename
  deriving DecidableEq, Repr

/-! ## Object names -/

/-- The characters of a printed uuid. -/
def uuidChars : List Char := "0123456789abcdef-".toList

/-- `str(uuid.uuid4())`. -/
structure Uuid where
  text : String
  length_eq : text.toList.length = 36
  chars : ∀ c ∈ text.toList, c ∈ uuidChars

/-- `os.path.basename`. -/
def basename (path : String) : String := (rpartition path '/').2

/-- `s[:n]`. -/
def truncate (n : Nat) (s : String) : String := String.ofList (s.toList.take n)

def objectName (uuid : Uuid) (filename : String) : String :=
  uuid.text ++ "_" ++ truncate 255 (basename filename)

/-- A `DirSink` with the objects in its directory. -/
structure DirSink where
  bucket : String
  objects : Dict String Bytes := ∅

/-- The check that `DirSink.upload` makes first. -/
def DirSink.Accepts (name : String) : Prop :=
  '/' ∉ name.toList ∧ name ∉ ["", ".", ".."]

instance (name : String) : Decidable (DirSink.Accepts name) :=
  inferInstanceAs (Decidable (_ ∧ _))

def DirSink.upload (sink : DirSink) (name : String) (data : Bytes) : Except Exn (DirSink × String) :=
  if DirSink.Accepts name then
    .ok ({ sink with objects := sink.objects.assign name data },
      "gs://" ++ sink.bucket ++ "/" ++ name)
  else .error .valueError

/-! ## Answers -/

inductive Reply
  | fileKey (keyId qkdName : String)
  | uploaded (object : String) (size : Nat)
  | error (detail : ErrorBody)
  deriving DecidableEq, Repr

structure Response where
  status : Nat
  reply : Reply
  deriving DecidableEq, Repr

def respond (e : Exn) : Response := ⟨e.answer.1, .error e.answer.2⟩

/-- The answer of the catch-all handler. -/
def unhandled : Response := ⟨500, .error (errorBody 500 "internal error")⟩

/-! ## The server -/

/-- Where a task is suspended. -/
inductive Stage
  | idle
  | fetching (peer : String)
  | reading (key : Bytes) (req : UploadRequest)
  | writing (plaintext : Bytes)
  deriving DecidableEq, Repr

/-- The process: `keys` is what the handlers share. -/
structure Server where
  keys : Dict String (Bytes × Time) := ∅
  stages : Nat → Stage := fun _ => .idle

/-- What a task is started or resumed with, and what the clock and
`uuid4` return in the section. -/
inductive Input
  | fileKey (now : Time) (body : Option FileKeyRequest)
  | ekm (now : Time) (answer : EkmAnswer)
  | upload (now : Time) (req : UploadRequest)
  | read (uuid : Uuid)
  | written (uri : String)
  | sinkRaised
  | invalid

structure Act where
  task : Nat
  input : Input

/-- What a section ends with. -/
inductive Output
  | nothing
  | askEkm (peer : String)
  | store (name : String) (data : Bytes)
  | answer (resp : Response)
  deriving DecidableEq, Repr

namespace Server

/-- `prune_keys`. -/
def pruneKeys (s : Server) (now : Time) : Server :=
  let expired := (s.keys.items.filter fun item => item.2.2 ≤ now).map (·.1)
  { s with keys := expired.foldl (fun keys keyId => keys.erase keyId) s.keys }

/-- `get_key`. -/
def getKey (s : Server) (now : Time) (keyId : String) : Except Exn Bytes × Server :=
  let s := s.pruneKeys now
  match s.keys.lookup keyId with
  | none => (.error (httpError 404 ("unknown key id " ++ keyId)), s)
  | some (key, _) => (.ok key, s)

/-- The task is suspended at `stage`. -/
def suspend (s : Server) (task : Nat) (stage : Stage) : Server :=
  { s with stages := Function.update s.stages task stage }

/-- The task answers and is gone. -/
def finish (s : Server) (task : Nat) (resp : Response) : Server × Output :=
  (s.suspend task .idle, .answer resp)

end Server

section Handlers

variable (settings : UploadSettings) (aead : Aead)

/-- `(body.peer if body else None) or settings.peer_default`. -/
def peerOf (body : Option FileKeyRequest) : String :=
  match body.bind (·.peer) with
  | some peer => if peer = "" then settings.peerDefault else peer
  | none => settings.peerDefault

/-- `file_key` up to its call of the EKM. -/
def fileKey (s : Server) (task : Nat) (now : Time) (body : Option FileKeyRequest) :
    Server × Output :=
  let peer := peerOf settings body
  ((s.pruneKeys now).suspend task (.fetching peer), .askEkm peer)

/-- `file_key` from there on. -/
def fileKeyFetched (s : Server) (task : Nat) (peer : String) (now : Time) :
    EkmAnswer → Server × Output
  | .key keyId key =>
    let keys := s.keys.assign keyId (key, now + settings.fileKeyTtlS)
    { s with keys }.finish task ⟨200, .fileKey keyId peer⟩
  | .runtimeError message => s.finish task (respond (httpError 503 message))
  | .other => s.finish task unhandled

/-- `upload` up to `await file.read()`. -/
def upload (s : Server) (task : Nat) (now : Time) (req : UploadRequest) : Server × Output :=
  match s.getKey now req.keyId with
  | (.error e, s) => s.finish task (respond e)
  | (.ok key, s) => (s.suspend task (.reading key req), .nothing)

/-- The argument `aad` is evaluated inside the `try` too. -/
def decrypt (key : Bytes) (req : UploadRequest) : Option Bytes :=
  req.filename.encode.bind (aesGcmUnwrap aead key req.file)

/-- `upload` up to its call of the sink. -/
def uploadRead (s : Server) (task : Nat) (key : Bytes) (req : UploadRequest) (uuid : Uuid) :
    Server × Output :=
  match req.filename, decrypt aead key req with
  | .text filename, some plaintext =>
    (s.suspend task (.writing plaintext), .store (objectName uuid filename) plaintext)
  | _, _ => s.finish task (respond (httpError 400 "decryption failed"))

/-- A section. A task is started when it is idle, and resumed with what
it waits for. -/
def step (s : Server) (a : Act) : Server × Output :=
  match s.stages a.task, a.input with
  | .idle, .fileKey now body => fileKey settings s a.task now body
  | .idle, .upload now req => upload s a.task now req
  -- `RequestValidationError`, before the handler runs
  | .idle, .invalid => s.finish a.task (respond (httpError 400 "invalid request"))
  | .fetching peer, .ekm now answer => fileKeyFetched settings s a.task peer now answer
  | .reading key req, .read uuid => uploadRead aead s a.task key req uuid
  | .writing plaintext, .written uri =>
    s.finish a.task ⟨200, .uploaded uri plaintext.length⟩
  | .writing _, .sinkRaised => s.finish a.task unhandled
  | _, _ => (s, .nothing)

end Handlers

/-- What a run of the server is made of. -/
abbrev Step := Moment Server Act Output

end QkdEkm.Upload
