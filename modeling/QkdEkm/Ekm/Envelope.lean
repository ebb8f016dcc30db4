import QkdEkm.Ekm.Refusals

/-!
# Envelope — what requests are answered with

Each handler has its own kind of reply. Whatever it raises is answered
with an envelope whose code is the status of the answer, for the
exceptions that the handlers raise on purpose and for all others.
-/

namespace QkdEkm.Ekm

open QkdEkm.Common QkdEkm.Lib

variable {α β : Type}

/-- A raised `HTTPException` carries its own code. -/
def Named (r : Except Stop α) : Prop :=
  ∀ code detail, r = .error (.raised (.http code detail)) → detail.code = code

/-- Whatever the handler raises is named. -/
def RaisesNamed (x : Handler α) : Prop := ∀ w, Wp x (fun r _ => Named r) w

theorem named_ok {a : α} : Named (.ok a : Except Stop α) := by
  intro code detail h
  cases h

theorem raisesNamed_pure {a : α} : RaisesNamed (pure a : Handler α) := fun _ => named_ok

theorem raisesNamed_lift {r : Except Exn α}
    (h : ∀ code detail, r = .error (.http code detail) → detail.code = code) :
    RaisesNamed (lift r) := by
  intro w
  rw [wp_lift]
  cases r with
  | ok a => exact named_ok
  | error e =>
    intro code detail heq
    cases heq
    exact h code detail rfl

theorem raisesNamed_raise {code : Nat} {message : String} {status : Option String} :
    RaisesNamed (raise (httpError code message status) : Handler α) := by
  intro w code' detail h
  cases h
  rfl

theorem RaisesNamed.bind {x : Handler β} {f : β → Handler α} (hx : RaisesNamed x)
    (hf : ∀ b, RaisesNamed (f b)) : RaisesNamed (x >>= f) := by
  intro w
  refine Wp.bind (hx w) (fun b t _ => hf b t) ?_
  intro stop t h code detail heq
  cases heq
  exact h code detail rfl

theorem RaisesNamed.catching {x h : Handler α} {e : Exn} (hx : RaisesNamed x)
    (hh : RaisesNamed h) : RaisesNamed (catching x e h) :=
  fun w => Wp.catching (hx w) (fun _ _ _ => named_ok) (fun t _ => hh t) fun _ _ _ h => h

/-- What the store refuses is no `HTTPException`. -/
theorem raisesNamed_commit {write : Store → Except Exn Store}
    (h : ∀ store code detail, write store ≠ .error (.http code detail)) :
    RaisesNamed (commit write) := by
  intro w
  refine (commit_spec write).mono ?_
  intro r w' hends code detail heq
  obtain ⟨store, hends, _⟩ := hends
  subst heq
  cases hends with
  | wrote _ hc => rcases hc with ⟨_, hc⟩ | ⟨_, hc⟩ <;> cases hc
  | refused hw _ => exact absurd hw (h _ _ _)

variable {aead : Aead} {cfg : Config}

theorem keyPool_allocate_kind (poolCfg : PoolConfig) (pool : KeyPool) (store : Store)
    (peer : String) (code : Nat) (detail : ErrorBody) :
    (pool.allocate poolCfg store peer).1 ≠ .error (.http code detail) := by
  unfold KeyPool.allocate
  split
  · split
    · exact fun h => by cases h
    · dsimp only
      split <;> exact fun h => by cases h
  · exact fun h => by cases h

theorem raisesNamed_allocate (peer : String) : RaisesNamed (allocate cfg peer) := by
  have hpool : RaisesNamed (poolAllocate cfg peer) := by
    intro w
    unfold Wp poolAllocate
    have hkind := keyPool_allocate_kind cfg.pool w.process.pool w.process.store peer
    rcases hresult : w.process.pool.allocate cfg.pool w.process.store peer with ⟨_ | key, pool⟩
    · intro code detail heq
      cases heq
      exact absurd (congrArg Prod.fst hresult) (hkind code detail)
    · exact named_ok
  exact (hpool.catching raisesNamed_raise).catching raisesNamed_raise

theorem raisesNamed_storeBind (qkdKeyId objectId peer : String) (purpose : Purpose) :
    RaisesNamed (storeBind qkdKeyId purpose objectId peer) := by
  refine raisesNamed_commit fun store code detail h => ?_
  unfold Store.bind at h
  split at h <;> cases h

theorem b64dField_named {value : Json} {code : Nat} {detail : ErrorBody}
    (h : b64dField value = .error (.http code detail)) : detail.code = code := by
  rcases b64dField_error h with heq | htrips
  · cases heq
    rfl
  · rw [htrips.raises] at h
    cases h

theorem raisesNamed_firstUse (o : String) : RaisesNamed (firstUse aead cfg o) := by
  refine (raisesNamed_allocate _).bind fun key => ?_
  have hput : RaisesNamed (putKek aead cfg o key.keyId key.key) := by
    refine RaisesNamed.bind (fun w => named_ok) fun nonce => ?_
    refine RaisesNamed.bind (raisesNamed_lift fun code detail h => ?_) fun row => ?_
    · unfold Store.encKek at h
      split at h <;> cases h
    · exact raisesNamed_commit fun store code detail h => by cases h
  exact hput.bind fun _ =>
    ((raisesNamed_storeBind _ _ _ _).catching raisesNamed_pure).bind fun _ => raisesNamed_pure

theorem raisesNamed_getKek (o : String) : RaisesNamed (getKek aead cfg o) := by
  refine RaisesNamed.bind (fun w => named_ok) fun w => raisesNamed_lift fun code detail h => ?_
  unfold Store.getKek at h
  split at h
  · cases h
  · split at h <;> cases h

theorem raisesNamed_wrap (o : String) (fields : Fields) (aad : Bytes) :
    RaisesNamed (wrap aead cfg o fields aad) := by
  refine RaisesNamed.bind (fun w => named_ok) fun _ => ?_
  refine RaisesNamed.bind (raisesNamed_lift fun _ _ => b64dField_named) fun plaintext => ?_
  refine (raisesNamed_getKek o).bind fun found => RaisesNamed.bind ?_ fun kek => ?_
  · cases found with
    | some kek => exact raisesNamed_pure
    | none => exact raisesNamed_firstUse o
  · refine RaisesNamed.bind (RaisesNamed.bind (fun w => named_ok) fun nonce => ?_)
      fun blob => raisesNamed_pure
    split
    · exact raisesNamed_pure
    · intro w code detail h
      cases h

theorem raisesNamed_unwrap (o : String) (fields : Fields) (aad : Bytes) :
    RaisesNamed (unwrap aead cfg o fields aad) := by
  refine (raisesNamed_getKek o).bind fun found => ?_
  cases found with
  | none => exact raisesNamed_raise
  | some kek =>
    refine RaisesNamed.bind (raisesNamed_lift fun _ _ => b64dField_named) fun blob => ?_
    split
    · exact raisesNamed_pure
    · exact raisesNamed_raise

theorem parseKeyOp_named {keyIdOp : String} {body : Body} {code : Nat} {detail : ErrorBody}
    (h : parseKeyOp keyIdOp body = .error (.http code detail)) : detail.code = code := by
  have hends := parseKeyOp_ends keyIdOp body
  rw [h] at hends
  cases hends with
  | unknown | malformed => rfl
  | aad _ _ he => exact b64dField_named he

variable (aead cfg) in
/-- **Every handler names the status it raises.** -/
theorem raisesNamed_handle (r : Request) : RaisesNamed (handle aead cfg r) := by
  cases r with
  | healthz => exact raisesNamed_pure
  | keyOp keyIdOp body =>
    refine RaisesNamed.bind (raisesNamed_lift fun _ _ => parseKeyOp_named) fun op => ?_
    cases op with
    | wrap o fields aad => exact raisesNamed_wrap o fields aad
    | unwrap o fields aad => exact raisesNamed_unwrap o fields aad
  | describe keyIdOp =>
    change RaisesNamed (describeKey keyIdOp)
    unfold describeKey
    split
    · exact raisesNamed_raise
    · exact raisesNamed_pure
  | state => exact fun w => named_ok
  | authority value =>
    cases value with
    | none => exact raisesNamed_raise
    | some value => exact raisesNamed_pure
  | ack => exact raisesNamed_pure
  | new peer purpose =>
    change RaisesNamed (newKey cfg peer purpose)
    unfold newKey
    split
    · exact raisesNamed_raise
    · exact (raisesNamed_allocate peer).bind fun key =>
        ((raisesNamed_storeBind _ _ _ _).catching raisesNamed_raise).bind fun _ => raisesNamed_pure

/-! ## Replies -/

/-- The reply of each handler. -/
inductive ReplyOf : Request → Reply → Prop
  | healthy : ReplyOf .healthz .healthy
  | wrapped {keyIdOp body blob} : ReplyOf (.keyOp keyIdOp body) (.wrapped blob)
  | unwrapped {keyIdOp body plaintext} : ReplyOf (.keyOp keyIdOp body) (.unwrapped plaintext)
  | described {name} : ReplyOf (.describe name) (.described name "MANUAL")
  | state {modes sizes count available authority pending} :
    ReplyOf .state (.state modes sizes count available authority pending)
  | authority {value} : ReplyOf (.authority (some value)) (.authority value)
  | recovery : ReplyOf .ack (.recovery false)
  | newKey {peer purpose u keyId key} (hu : newPurpose purpose = some u) :
    ReplyOf (.new peer purpose) (.newKey keyId key peer)

/-- What a handler returns is its own reply. -/
def Replies (request : Request) (res : Except Stop Reply) : Prop :=
  ∀ reply, res = .ok reply → ReplyOf request reply

theorem replies_ok {request : Request} {reply : Reply} (h : ReplyOf request reply) :
    Replies request (.ok reply) := by
  intro reply' heq
  cases heq
  exact h

theorem replies_error {request : Request} {stop : Stop} : Replies request (.error stop) := by
  intro reply heq
  cases heq

variable (aead cfg) in
theorem handle_replies (request : Request) (w : World) :
    Wp (handle aead cfg request) (fun res _ => Replies request res) w := by
  cases request with
  | healthz => exact replies_ok .healthy
  | keyOp keyIdOp body =>
    refine (handle_spec aead cfg (.keyOp keyIdOp body) w).mono fun res w' hends => ?_
    generalize w'.process = p' at hends
    cases hends with
    | wrap hop h =>
      cases h with
      | known _ _ _ hr | first _ _ _ hr =>
        rcases hr with ⟨_, _, _, rfl⟩ | rfl
        · exact replies_ok .wrapped
        · exact replies_error
      | malformed _ | unreadable _ _ | stopped _ _ _ => exact replies_error
    | unwrap hop h =>
      cases h with
      | opened _ _ _ _ => exact replies_ok .unwrapped
      | unknown _ | unreadable _ _ | malformed _ _ _ | refused _ _ _ _ => exact replies_error
    | malformed _ => exact replies_error
    | other hk _ => cases hk
  | describe name =>
    change Wp (describeKey name) _ w
    unfold describeKey
    split
    · exact replies_error
    · exact replies_ok .described
  | state => exact replies_ok .state
  | authority value =>
    cases value with
    | none => exact replies_error
    | some value => exact replies_ok .authority
  | ack => exact replies_ok .recovery
  | new peer purpose =>
    refine (newKey_spec peer purpose w).mono fun res w' h => ?_
    obtain ⟨store, pool, hends, _⟩ := h
    cases hends with
    | refused _ => exact replies_error
    | bound hu _ _ hr =>
      rcases hr with rfl | rfl
      · exact replies_ok (.newKey hu)
      · exact replies_error

/-- An error in an envelope with the status of the answer. -/
def Enveloped (response : Response) : Prop :=
  ∃ detail, response.reply = .error detail ∧ detail.code = response.status

theorem enveloped_raised {e : Exn} (h : Named (.error (.raised e) : Except Stop Reply)) :
    Enveloped ⟨e.answer.1, .error e.answer.2⟩ := by
  refine ⟨_, rfl, ?_⟩
  cases e with
  | http code detail => exact h code detail rfl
  | keyError | poolEmpty | assertionError | alreadyBound | valueError | typeError
    | recursionError | sqliteError => rfl

/-- **Every answer is the reply of its handler or an envelope with its own
status.** -/
theorem step_answers {p : Process} {request : Request} {fates : List Fate} {nonces : List Nonce}
    {response : Response}
    (h : (step aead cfg p (.request request fates nonces)).2 = some response) :
    (response.status = 200 ∧ ReplyOf request response.reply) ∨ Enveloped response := by
  obtain ⟨res, w, ⟨hnamed, hreplies⟩, hstep⟩ := step_of_wp
    ((raisesNamed_handle aead cfg request _).and (handle_replies aead cfg request
      { process := p, fates, nonces }))
  rw [hstep] at h
  rcases res with (e | _) | reply
  · cases h
    exact .inr (enveloped_raised hnamed)
  · cases h
  · cases h
    exact .inl ⟨rfl, hreplies reply rfl⟩

end QkdEkm.Ekm
