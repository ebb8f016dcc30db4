import QkdEkm.Ekm.Indicator
import QkdEkm.Ekm.Units

/-!
# Refusals — what a bad wrap or unwrap does

A body is raw JSON and each field of it any value. `_b64d` is made for a
string or `None`: it refuses text that is not base64, lets the `TypeError`
of a true value of another type through, and takes a false one for an
absent field. Everything else that can be wrong is refused before a unit
is taken or a row is written.
-/

namespace QkdEkm.Ekm

open QkdEkm.Common QkdEkm.Lib

/-! ## A field -/

/-- There, not null and not base64. -/
def NotBase64 (value : Json) : Prop := value ≠ .null ∧ ∀ s, value = .str s → b64d s = none

/-- True and not a string: decoding raises `TypeError`. -/
def Trips (value : Json) : Prop := value.truthy = true ∧ ∀ s, value ≠ .str s

/-- False, and neither null nor a string: decoded as the empty string. -/
def Slips (value : Json) : Prop := value.truthy = false ∧ value ≠ .null ∧ ∀ s, value ≠ .str s

/-- The ways `_b64d` ends. -/
inductive FieldEnds : Json → Except Exn Bytes → Prop
  | absent : FieldEnds .null (.ok [])
  | decoded {s data} (h : b64d s = some data) : FieldEnds (.str s) (.ok data)
  | garbled {s} (h : b64d s = none) :
    FieldEnds (.str s) (.error (httpError 400 "malformed base64"))
  | slipped {value} (h : Slips value) : FieldEnds value (.ok [])
  | tripped {value} (h : Trips value) : FieldEnds value (.error .typeError)

theorem b64d_empty : b64d "" = some [] := by decide

theorem b64dField_str (s : String) : FieldEnds (.str s) (b64dField (.str s)) := by
  by_cases hs : s = ""
  · subst hs
    exact .decoded b64d_empty
  · have htruthy : (Json.str s).truthy = true := by simp [Json.truthy, hs]
    unfold b64dField
    rw [if_pos htruthy]
    dsimp only
    split
    · rename_i data h
      exact .decoded h
    · rename_i h
      exact .garbled h

theorem b64dField_other {value : Json} (h : ∀ s, value ≠ .str s) :
    b64dField value = if value.truthy then .error .typeError else .ok [] := by
  unfold b64dField
  cases value with
  | str s => exact absurd rfl (h s)
  | null | bool _ | num _ | arr _ | obj _ => rfl

theorem b64dField_ends (value : Json) : FieldEnds value (b64dField value) := by
  by_cases hstr : ∃ s, value = .str s
  · obtain ⟨s, rfl⟩ := hstr
    exact b64dField_str s
  have hother : ∀ s, value ≠ .str s := fun s hs => hstr ⟨s, hs⟩
  rw [b64dField_other hother]
  split
  · rename_i ht
    exact .tripped ⟨ht, hother⟩
  · rename_i ht
    by_cases hnull : value = .null
    · subst hnull
      exact .absent
    · exact .slipped ⟨Bool.eq_false_iff.mpr ht, hnull, hother⟩

section Fields

variable {value : Json}

theorem Trips.raises (h : Trips value) : b64dField value = .error .typeError := by
  rw [b64dField_other h.2, if_pos h.1]

/-- A field that is refused for anything but its type is refused cleanly. -/
theorem b64dField_error {e : Exn} (h : b64dField value = .error e) :
    e = httpError 400 "malformed base64" ∨ Trips value := by
  have hends := b64dField_ends value
  rw [h] at hends
  cases hends with
  | garbled _ => exact .inl rfl
  | tripped ht => exact .inr ht

/-- Of the fields that decode, the false ones are not base64. -/
theorem notBase64_iff_slips {data : Bytes} (h : b64dField value = .ok data) :
    NotBase64 value ↔ Slips value := by
  have hends := b64dField_ends value
  rw [h] at hends
  constructor
  · rintro ⟨hnull, hbad⟩
    cases hends with
    | absent => exact absurd rfl hnull
    | decoded hdata =>
      rw [hbad _ rfl] at hdata
      cases hdata
    | slipped hs => exact hs
  · rintro ⟨_, hnull, hstr⟩
    exact ⟨hnull, fun s hs => absurd hs (hstr s)⟩

end Fields

/-! ## The path and the body -/

/-- The path names an operation on a key id. -/
def Names (keyIdOp keyId operation : String) : Prop :=
  rpartition keyIdOp ':' = (keyId, operation) ∧ keyId ≠ ""

/-- The fields that the operation of the path uses. -/
def usedFields (keyIdOp : String) : List String :=
  ["additionalAuthenticatedData",
    if (rpartition keyIdOp ':').2 = "wrap" then "plaintext" else "wrappedBlob"]

/-- A field that the operation uses is there, not null and not base64. -/
def BadField (keyIdOp : String) (body : Body) : Prop :=
  ∃ fields : Fields, body = .json (.obj fields) ∧
    ∃ name ∈ usedFields keyIdOp, NotBase64 (fields.get name)

/-- The ways a path and a body are read. -/
inductive ParseEnds (keyIdOp : String) : Body → Except Exn KeyOp → Prop
  | unknown {body} :
    ParseEnds keyIdOp body (.error (httpError 404 ("unknown operation " ++ keyIdOp)))
  | malformed {body message} : ParseEnds keyIdOp body (.error (httpError 400 message))
  | deep {o operation} (hop : Names keyIdOp o operation)
      (hknown : operation = "wrap" ∨ operation = "unwrap") :
    ParseEnds keyIdOp .tooDeep (.error .recursionError)
  | aad {o operation} {fields : Fields} {e} (hop : Names keyIdOp o operation)
      (hknown : operation = "wrap" ∨ operation = "unwrap")
      (he : b64dField (fields.get "additionalAuthenticatedData") = .error e) :
    ParseEnds keyIdOp (.json (.obj fields)) (.error e)
  | wrap {o} {fields : Fields} {aad} (hop : Names keyIdOp o "wrap")
      (ha : b64dField (fields.get "additionalAuthenticatedData") = .ok aad) :
    ParseEnds keyIdOp (.json (.obj fields)) (.ok (.wrap o fields aad))
  | unwrap {o} {fields : Fields} {aad} (hop : Names keyIdOp o "unwrap")
      (ha : b64dField (fields.get "additionalAuthenticatedData") = .ok aad) :
    ParseEnds keyIdOp (.json (.obj fields)) (.ok (.unwrap o fields aad))

section Paths

variable {keyIdOp o operation : String}

/-- Past the path, the body and the additional data are read in this order. -/
theorem parseKeyOp_of_names (hop : Names keyIdOp o operation)
    (hknown : operation = "wrap" ∨ operation = "unwrap") (body : Body) :
    parseKeyOp keyIdOp body = (do
      let fields ← jsonBody body
      let aad ← b64dField (fields.get "additionalAuthenticatedData")
      if operation = "wrap" then .ok (.wrap o fields aad) else .ok (.unwrap o fields aad)) := by
  obtain ⟨hpath, ho⟩ := hop
  have hvalid : ¬ ((operation ≠ "wrap" ∧ operation ≠ "unwrap") ∨ o = "") := by
    rintro (⟨hw, hu⟩ | hempty)
    · exact hknown.elim hw hu
    · exact ho hempty
  unfold parseKeyOp
  rw [hpath]
  dsimp only
  rw [if_neg hvalid]

theorem parseKeyOp_wrap_ok (hop : Names keyIdOp o "wrap") {fields : Fields} {aad : Bytes}
    (ha : b64dField (fields.get "additionalAuthenticatedData") = .ok aad) :
    parseKeyOp keyIdOp (.json (.obj fields)) = .ok (.wrap o fields aad) := by
  rw [parseKeyOp_of_names hop (.inl rfl)]
  show (b64dField _ >>= _) = _
  rw [ha]
  rfl

theorem parseKeyOp_unwrap_ok (hop : Names keyIdOp o "unwrap") {fields : Fields} {aad : Bytes}
    (ha : b64dField (fields.get "additionalAuthenticatedData") = .ok aad) :
    parseKeyOp keyIdOp (.json (.obj fields)) = .ok (.unwrap o fields aad) := by
  rw [parseKeyOp_of_names hop (.inr rfl)]
  show (b64dField _ >>= _) = _
  rw [ha]
  rfl

theorem parseKeyOp_ends (keyIdOp : String) (body : Body) :
    ParseEnds keyIdOp body (parseKeyOp keyIdOp body) := by
  rcases hpath : rpartition keyIdOp ':' with ⟨o, operation⟩
  by_cases hvalid : (operation ≠ "wrap" ∧ operation ≠ "unwrap") ∨ o = ""
  · have herror : parseKeyOp keyIdOp body =
        .error (httpError 404 ("unknown operation " ++ keyIdOp)) := by
      unfold parseKeyOp
      rw [hpath]
      dsimp only
      rw [if_pos hvalid]
    rw [herror]
    exact .unknown
  · have hop : Names keyIdOp o operation := ⟨hpath, fun ho => hvalid (.inr ho)⟩
    have hknown : operation = "wrap" ∨ operation = "unwrap" := by
      by_contra hneither
      exact hvalid (.inl (not_or.mp hneither))
    rw [parseKeyOp_of_names hop hknown]
    cases body with
    | malformed => exact .malformed
    | tooDeep => exact .deep hop hknown
    | json value =>
      cases value with
      | null | bool _ | num _ | str _ | arr _ => exact .malformed
      | obj fields =>
        show ParseEnds keyIdOp _ (b64dField _ >>= _)
        cases ha : b64dField (Fields.get fields "additionalAuthenticatedData") with
        | error e => exact .aad hop hknown ha
        | ok aad =>
          rcases hknown with rfl | rfl
          · exact .wrap hop ha
          · exact .unwrap hop ha

theorem usedFields_wrap (hop : Names keyIdOp o "wrap") :
    usedFields keyIdOp = ["additionalAuthenticatedData", "plaintext"] := by
  rw [usedFields, hop.1, if_pos rfl]

theorem usedFields_unwrap (hop : Names keyIdOp o "unwrap") :
    usedFields keyIdOp = ["additionalAuthenticatedData", "wrappedBlob"] := by
  have hne : ¬ "unwrap" = "wrap" := by decide
  rw [usedFields, hop.1, if_neg hne]

/-- Once both fields decode, a bad one is a false one. -/
theorem badField_iff {name : String}
    (hused : usedFields keyIdOp = ["additionalAuthenticatedData", name]) {fields : Fields}
    {aad data : Bytes} (ha : b64dField (fields.get "additionalAuthenticatedData") = .ok aad)
    (hx : b64dField (fields.get name) = .ok data) :
    BadField keyIdOp (.json (.obj fields)) ↔
      Slips (fields.get "additionalAuthenticatedData") ∨ Slips (fields.get name) := by
  rw [← notBase64_iff_slips ha, ← notBase64_iff_slips hx, BadField, hused]
  constructor
  · rintro ⟨_, ⟨⟩, name', hname, hbad⟩
    simp only [List.mem_cons, List.not_mem_nil, or_false] at hname
    rcases hname with rfl | rfl
    · exact .inl hbad
    · exact .inr hbad
  · rintro (hbad | hbad)
    · exact ⟨fields, rfl, _, List.mem_cons_self .., hbad⟩
    · exact ⟨fields, rfl, _, List.mem_cons_of_mem _ (List.mem_singleton_self _), hbad⟩

end Paths

/-! ## A clean answer -/

/-- One of the four statuses; neither a success nor an internal error over
a bad field; and a refusal leaves the pool and both tables as they were. -/
structure Clean (keyIdOp : String) (body : Body) (p p' : Process) (status : Nat) : Prop where
  status_mem : status ∈ [200, 400, 404, 503]
  field : BadField keyIdOp body → status ≠ 200 ∧ status ≠ 500
  kept : status ≠ 200 → p'.pool = p.pool ∧ p'.store = p.store

/-- The request is answered, and cleanly. -/
def AnswersCleanly (aead : Aead) (cfg : Config) (p : Process) (keyIdOp : String) (body : Body)
    (fates : List Fate) (nonces : List Nonce) : Prop :=
  ∃ p' status reply, step aead cfg p (.request (.keyOp keyIdOp body) fates nonces) =
    (p', some ⟨status, reply⟩) ∧ Clean keyIdOp body p p' status

section

variable {aead : Aead} {cfg : Config} {p p' : Process} {keyIdOp : String} {body : Body}
  {fates : List Fate} {nonces : List Nonce}

theorem answersCleanly_iff {status : Nat} {reply : Reply}
    (h : step aead cfg p (.request (.keyOp keyIdOp body) fates nonces) =
      (p', some ⟨status, reply⟩)) :
    AnswersCleanly aead cfg p keyIdOp body fates nonces ↔ Clean keyIdOp body p p' status := by
  constructor
  · rintro ⟨_, _, _, heq, hclean⟩
    cases h.symm.trans heq
    exact hclean
  · exact fun hclean => ⟨p', status, reply, h, hclean⟩

/-- A refusal that names itself and changes nothing is clean. -/
theorem answersCleanly_refused {code : Nat} {message : String}
    (h : step aead cfg p (.request (.keyOp keyIdOp body) fates nonces) =
      respond p' (.error (.raised (httpError code message))))
    (hcode : code ∈ [400, 404, 503]) (hpool : p'.pool = p.pool) (hstore : p'.store = p.store) :
    AnswersCleanly aead cfg p keyIdOp body fates nonces := by
  have hother : code ≠ 200 ∧ code ≠ 500 := by
    simp only [List.mem_cons, List.not_mem_nil, or_false] at hcode
    omega
  exact (answersCleanly_iff h).mpr
    ⟨List.mem_cons_of_mem _ hcode, fun _ => hother, fun _ => ⟨hpool, hstore⟩⟩

/-- An internal error is not. -/
theorem not_answersCleanly_raised {e : Exn}
    (h : step aead cfg p (.request (.keyOp keyIdOp body) fates nonces) =
      respond p' (.error (.raised e))) (he : e.answer.1 = 500) :
    ¬ AnswersCleanly aead cfg p keyIdOp body fates nonces := by
  intro hclean
  have hstatus := ((answersCleanly_iff h).mp hclean).status_mem
  rw [he] at hstatus
  revert hstatus
  decide

/-- A success is clean if no field is bad. -/
theorem answersCleanly_ok {reply : Reply}
    (h : (step aead cfg p (.request (.keyOp keyIdOp body) fates nonces)).2 = some ⟨200, reply⟩) :
    AnswersCleanly aead cfg p keyIdOp body fates nonces ↔ ¬ BadField keyIdOp body := by
  rcases hstep : step aead cfg p (.request (.keyOp keyIdOp body) fates nonces) with ⟨p', out⟩
  rw [hstep] at h
  obtain rfl : out = some ⟨200, reply⟩ := h
  rw [answersCleanly_iff hstep]
  constructor
  · exact fun hclean hbad => (hclean.field hbad).1 rfl
  · exact fun hgood => ⟨List.mem_cons_self .., fun hbad => absurd hbad hgood, fun h => absurd rfl h⟩

/-! ## A wrap without a unit -/

/-- The key id has a KEK, or there is a unit to make one of. -/
def Servable (cfg : Config) (p : Process) (o : String) : Prop :=
  p.store.kekRow o ≠ none ∨
    (cfg.bindPeer ∈ cfg.pool.peers ∧ p.pool.deques cfg.bindPeer ≠ [])

/-- An allocation without a unit is refused and takes nothing. -/
theorem allocate_refused {peer : String} {w : World}
    (h : ¬ (peer ∈ cfg.pool.peers ∧ w.process.pool.deques peer ≠ [])) :
    Wp (allocate cfg peer) (fun r w' => w' = w ∧ ∃ code message, code ∈ [400, 404, 503] ∧
      r = .error (.raised (httpError code message))) w := by
  by_cases hpeer : peer ∈ cfg.pool.peers
  · have hdq : w.process.pool.deques peer = [] := by
      by_contra hne
      exact h ⟨hpeer, hne⟩
    have hempty : Wp (poolAllocate cfg peer)
        (fun r w' => w' = w ∧ r = .error (.raised .poolEmpty)) w := by
      refine Wp.of_error (t := w) ?_ ⟨rfl, rfl⟩
      simp [poolAllocate, KeyPool.allocate, hpeer, hdq, World.withPool]
    have hpassed : Wp (catching (poolAllocate cfg peer) .keyError
        (raise (httpError 404 ("unknown peer " ++ peer))))
        (fun r w' => w' = w ∧ r = .error (.raised .poolEmpty)) w := by
      refine Wp.catching hempty ?_ ?_ fun _ _ _ h => h
      · rintro _ _ ⟨_, ⟨⟩⟩
      · rintro _ ⟨_, ⟨⟩⟩
    refine Wp.catching hpassed ?_ ?_ ?_
    · rintro _ _ ⟨_, ⟨⟩⟩
    · rintro _ ⟨rfl, _⟩
      exact ⟨rfl, 503, _, by decide, rfl⟩
    · rintro _ _ hne ⟨_, ⟨⟩⟩
      exact absurd rfl hne
  · have hunknown : Wp (poolAllocate cfg peer)
        (fun r w' => w' = w ∧ r = .error (.raised .keyError)) w := by
      refine Wp.of_error (t := w) ?_ ⟨rfl, rfl⟩
      simp [poolAllocate, KeyPool.allocate, hpeer, World.withPool]
    have hnamed : Wp (catching (poolAllocate cfg peer) .keyError
        (raise (httpError 404 ("unknown peer " ++ peer)))) (fun r w' => w' = w ∧
          r = .error (.raised (httpError 404 ("unknown peer " ++ peer)))) w := by
      refine Wp.catching hunknown ?_ ?_ ?_
      · rintro _ _ ⟨_, ⟨⟩⟩
      · rintro _ ⟨rfl, _⟩
        exact ⟨rfl, rfl⟩
      · rintro _ _ hne ⟨_, ⟨⟩⟩
        exact absurd rfl hne
    refine Wp.catching hnamed ?_ ?_ ?_
    · rintro _ _ ⟨_, ⟨⟩⟩
    · rintro _ ⟨_, ⟨⟩⟩
    · rintro _ _ _ ⟨rfl, ⟨⟩⟩
      exact ⟨rfl, 404, _, by decide, rfl⟩

/-- **A wrap that cannot be served** takes nothing and writes nothing. -/
theorem wrap_refused {o : String} {fields : Fields} {aad plaintext : Bytes}
    (hop : parseKeyOp keyIdOp body = .ok (.wrap o fields aad))
    (hx : b64dField (fields.get "plaintext") = .ok plaintext) (h : ¬ Servable cfg p o)
    (fates : List Fate) (nonces : List Nonce) :
    ∃ code message, code ∈ [400, 404, 503] ∧
      step aead cfg p (.request (.keyOp keyIdOp body) fates nonces) =
        respond p.checkRecovery (.error (.raised (httpError code message))) := by
  obtain ⟨hrow, hunit⟩ := not_or.mp h
  have hnone : p.store.kekRow o = none := not_not.mp hrow
  have hwp : Wp (handle aead cfg (.keyOp keyIdOp body))
      (fun r w' => w'.process = p.checkRecovery ∧ ∃ code message, code ∈ [400, 404, 503] ∧
        r = .error (.raised (httpError code message))) { process := p, fates, nonces } := by
    show Wp (wrapOrUnwrap aead cfg keyIdOp body) _ _
    unfold wrapOrUnwrap
    rw [hop, lift_ok_bind]
    show Wp (wrap aead cfg o fields aad) _ _
    unfold wrap checkRecovery
    rw [wp_bind, wp_modify, then_ok, hx, lift_ok_bind]
    refine Wp.bind (getKek_spec o _) ?_ ?_
    · rintro found _ ⟨rfl, hg⟩
      cases hg with
      | found hsome _ => cases hnone.symm.trans hsome
      | absent _ =>
        have hfirst : Wp (firstUse aead cfg o) (fun r w' => w'.process = p.checkRecovery ∧
            ∃ code message, code ∈ [400, 404, 503] ∧
              r = .error (.raised (httpError code message)))
            { process := p.checkRecovery, fates, nonces } := by
          unfold firstUse
          refine Wp.bind (allocate_refused hunit) ?_ ?_
          · rintro _ _ ⟨_, _, _, _, ⟨⟩⟩
          · rintro stop _ ⟨rfl, code, message, hcode, ⟨⟩⟩
            exact ⟨rfl, code, message, hcode, rfl⟩
        refine Wp.bind hfirst ?_ ?_
        · rintro _ _ ⟨_, _, _, _, ⟨⟩⟩
        · rintro stop _ ⟨hp, code, message, hcode, ⟨⟩⟩
          exact ⟨hp, code, message, hcode, rfl⟩
    · rintro stop _ ⟨rfl, hg⟩
      cases hg with
      | unreadable hsome _ => cases hnone.symm.trans hsome
  obtain ⟨_, w, ⟨hp, code, message, hcode, rfl⟩, hstep⟩ := step_of_wp hwp
  exact ⟨code, message, hcode, hp ▸ hstep⟩

/-! ## What is mishandled -/

/-- The requests that are not answered cleanly: those nested too deeply,
with a field whose type raises, or with a false field that passes for an
absent one in a wrap that can be served or an unwrap that opens. -/
inductive Mishandled (aead : Aead) (cfg : Config) (p : Process) (keyIdOp : String) : Body → Prop
  | deep {o operation} (hop : Names keyIdOp o operation)
      (hknown : operation = "wrap" ∨ operation = "unwrap") :
    Mishandled aead cfg p keyIdOp .tooDeep
  | aad {o operation} {fields : Fields} (hop : Names keyIdOp o operation)
      (hknown : operation = "wrap" ∨ operation = "unwrap")
      (ht : Trips (fields.get "additionalAuthenticatedData")) :
    Mishandled aead cfg p keyIdOp (.json (.obj fields))
  | plaintext {o} {fields : Fields} {aad} (hop : Names keyIdOp o "wrap")
      (ha : b64dField (fields.get "additionalAuthenticatedData") = .ok aad)
      (ht : Trips (fields.get "plaintext")) :
    Mishandled aead cfg p keyIdOp (.json (.obj fields))
  | blob {o} {fields : Fields} {aad row} (hop : Names keyIdOp o "unwrap")
      (ha : b64dField (fields.get "additionalAuthenticatedData") = .ok aad)
      (hrow : p.store.kekRow o = some row) (ht : Trips (fields.get "wrappedBlob")) :
    Mishandled aead cfg p keyIdOp (.json (.obj fields))
  | wrapped {o} {fields : Fields} {aad plaintext} (hop : Names keyIdOp o "wrap")
      (ha : b64dField (fields.get "additionalAuthenticatedData") = .ok aad)
      (hx : b64dField (fields.get "plaintext") = .ok plaintext) (hs : Servable cfg p o)
      (hslip : Slips (fields.get "additionalAuthenticatedData") ∨ Slips (fields.get "plaintext")) :
    Mishandled aead cfg p keyIdOp (.json (.obj fields))
  | opened {o} {fields : Fields} {aad blob row kek data} (hop : Names keyIdOp o "unwrap")
      (ha : b64dField (fields.get "additionalAuthenticatedData") = .ok aad)
      (hrow : p.store.kekRow o = some row) (hm : row.material aead cfg.localKey = some kek)
      (hx : b64dField (fields.get "wrappedBlob") = .ok blob)
      (hdata : aesGcmUnwrap aead kek blob aad = some data)
      (hslip : Slips (fields.get "additionalAuthenticatedData") ∨
        Slips (fields.get "wrappedBlob")) :
    Mishandled aead cfg p keyIdOp (.json (.obj fields))

/-- What a run leaves whose source delivers only units of 32 bytes and no
key id twice. -/
structure Settled (aead : Aead) (cfg : Config) (p : Process) : Prop where
  readable : Readable aead cfg.localKey p.store
  unused : Unused p

/-- The key id and the fields are within the limits of the cipher. -/
structure Sized (keyIdOp : String) (body : Body) : Prop where
  keyId : (rpartition keyIdOp ':').1.toUTF8.toList.length < 2 ^ 31
  field : ∀ fields : Fields, body = .json (.obj fields) → ∀ name ∈ usedFields keyIdOp,
    ∀ data, b64dField (fields.get name) = .ok data → data.length < 2 ^ 31

theorem settled_run {acts : List Act}
    (hunits : ∀ key ∈ delivered aead cfg acts, key.key.length = 32)
    (honce : ((delivered aead cfg acts).map (·.keyId)).Nodup) :
    Settled aead cfg (exec (step aead cfg) (boot .empty) acts) := by
  have hsound := sound_run aead cfg acts
  have hplaced := placed_run aead cfg honce
  constructor
  · intro row hrow
    obtain ⟨kek, hm, hu⟩ := hsound.backed.unit row hrow
    have hlen : kek.length = 32 := hunits _ hu
    exact ⟨kek, hm, by rw [hlen]; decide⟩
  · constructor
    · intro peer key receivedAt hm
      exact hunits key (hsound.supplied.pooled peer key receivedAt hm)
    · intro peer key receivedAt hm
      exact hplaced.unused (.deque peer) key.keyId (List.mem_map_of_mem hm)

section

variable {o : String} {fields : Fields} {aad : Bytes}

/-- A wrap that decodes and can be served answers. -/
theorem wrap_answers (h : Accepts aead) (hlocal : cfg.localKey.length = 32)
    (hp : Settled aead cfg p) (hop : Names keyIdOp o "wrap")
    (ha : b64dField (fields.get "additionalAuthenticatedData") = .ok aad) {plaintext : Bytes}
    (hx : b64dField (fields.get "plaintext") = .ok plaintext) (hs : Servable cfg p o)
    (hsized : Sized keyIdOp (.json (.obj fields))) (hf : ∀ fate ∈ fates, fate = .commits) :
    ∃ blob, (step aead cfg p (.request (.keyOp keyIdOp (.json (.obj fields))) fates nonces)).2 =
      some ⟨200, .wrapped blob⟩ := by
  have hused := usedFields_wrap hop
  have hunit : p.store.kekRow o = none →
      ∃ key, Ready cfg p cfg.bindPeer key ∧ key.key.length = 32 := by
    intro hnone
    obtain ⟨hknown, hne⟩ := hs.resolve_left fun hrow => hrow hnone
    exact Stocked.ready ⟨hknown, hne, hp.unused.fresh _, hp.unused.length_eq _⟩
  have ho : o.toUTF8.toList.length < 2 ^ 31 := by
    have := hsized.keyId
    rwa [hop.1] at this
  refine wrap_served h (by rw [hlocal]; decide) (fun _ hrow => hp.readable.row hrow) hunit
    ⟨_, _, _, rfl, parseKeyOp_wrap_ok hop ha, hx⟩ ho ?_ ?_ hf nonces
  · exact hsized.field fields rfl "plaintext" (by simp [hused]) _ hx
  · exact hsized.field fields rfl "additionalAuthenticatedData" (by simp [hused]) _ ha

/-- **A mishandled request is not answered cleanly.** -/
theorem not_answersCleanly (h : Accepts aead) (hlocal : cfg.localKey.length = 32)
    (hp : Settled aead cfg p) (hsized : Sized keyIdOp body)
    (hf : ∀ fate ∈ fates, fate = .commits) (hbad : Mishandled aead cfg p keyIdOp body) :
    ¬ AnswersCleanly aead cfg p keyIdOp body fates nonces := by
  cases hbad with
  | deep hop hknown =>
    have hparse : parseKeyOp keyIdOp .tooDeep = .error .recursionError := by
      rw [parseKeyOp_of_names hop hknown]
      rfl
    exact not_answersCleanly_raised (step_malformed hparse fates nonces) rfl
  | @aad _ _ fields hop hknown ht =>
    have hparse : parseKeyOp keyIdOp (.json (.obj fields)) = .error .typeError := by
      rw [parseKeyOp_of_names hop hknown]
      show (b64dField _ >>= _) = _
      rw [ht.raises]
      rfl
    exact not_answersCleanly_raised (step_malformed hparse fates nonces) rfl
  | plaintext hop ha ht =>
    obtain ⟨res, store, pool, hends, hstep⟩ :=
      step_wrap (parseKeyOp_wrap_ok hop ha) fates nonces
    cases hends with
    | malformed he =>
      cases ht.raises.symm.trans he
      exact not_answersCleanly_raised hstep rfl
    | unreadable _ _ => exact not_answersCleanly_raised hstep rfl
    | known _ _ hx _ | first _ hx _ _ | stopped _ hx _ => cases ht.raises.symm.trans hx
  | blob hop ha hrow ht =>
    obtain ⟨res, hends, hstep⟩ := step_unwrap (parseKeyOp_unwrap_ok hop ha) fates nonces
    cases hends with
    | unknown hnone => cases hrow.symm.trans hnone
    | unreadable _ _ => exact not_answersCleanly_raised hstep rfl
    | malformed _ _ he =>
      cases ht.raises.symm.trans he
      exact not_answersCleanly_raised hstep rfl
    | opened _ _ hx _ | refused _ _ hx _ => cases ht.raises.symm.trans hx
  | wrapped hop ha hx hs hslip =>
    obtain ⟨blob, hout⟩ := wrap_answers h hlocal hp hop ha hx hs hsized hf
    rw [answersCleanly_ok hout, not_not]
    exact (badField_iff (usedFields_wrap hop) ha hx).mpr hslip
  | @opened _ fields _ _ _ _ data hop ha hrow hm hx hdata hslip =>
    have hout : (step aead cfg p
        (.request (.keyOp keyIdOp (.json (.obj fields))) fates nonces)).2 =
          some ⟨200, .unwrapped (b64e data)⟩ :=
      unwrap_answer ⟨_, _, _, rfl, parseKeyOp_unwrap_ok hop ha, hx⟩ hrow hm hdata
    rw [answersCleanly_ok hout, not_not]
    exact (badField_iff (usedFields_unwrap hop) ha hx).mpr hslip

/-- A wrap whose additional data decodes is answered cleanly, unless it is
mishandled. -/
theorem wrap_clean (h : Accepts aead) (hlocal : cfg.localKey.length = 32)
    (hp : Settled aead cfg p) (hop : Names keyIdOp o "wrap")
    (ha : b64dField (fields.get "additionalAuthenticatedData") = .ok aad)
    (hsized : Sized keyIdOp (.json (.obj fields))) (hf : ∀ fate ∈ fates, fate = .commits)
    (hgood : ¬ Mishandled aead cfg p keyIdOp (.json (.obj fields))) :
    AnswersCleanly aead cfg p keyIdOp (.json (.obj fields)) fates nonces := by
  have hparse := parseKeyOp_wrap_ok hop ha
  cases hx : b64dField (fields.get "plaintext") with
  | ok plaintext =>
    by_cases hs : Servable cfg p o
    · obtain ⟨blob, hout⟩ := wrap_answers h hlocal hp hop ha hx hs hsized hf
      rw [answersCleanly_ok hout, badField_iff (usedFields_wrap hop) ha hx]
      exact fun hslip => hgood (.wrapped hop ha hx hs hslip)
    · obtain ⟨code, message, hcode, hstep⟩ := wrap_refused hparse hx hs fates nonces
      exact answersCleanly_refused hstep hcode rfl rfl
  | error e =>
    obtain ⟨res, store, pool, hends, hstep⟩ := step_wrap hparse fates nonces
    rcases b64dField_error hx with rfl | ht
    · cases hends with
      | malformed he =>
        cases hx.symm.trans he
        exact answersCleanly_refused hstep (by decide) rfl rfl
      | unreadable hrow hm =>
        obtain ⟨kek, hm', _⟩ := hp.readable.row hrow
        cases hm.symm.trans hm'
      | known _ _ hx' _ | first _ hx' _ _ | stopped _ hx' _ => cases hx.symm.trans hx'
    · exact absurd (.plaintext hop ha ht) hgood

/-- The same for an unwrap. -/
theorem unwrap_clean (hp : Settled aead cfg p) (hop : Names keyIdOp o "unwrap")
    (ha : b64dField (fields.get "additionalAuthenticatedData") = .ok aad)
    (hgood : ¬ Mishandled aead cfg p keyIdOp (.json (.obj fields))) :
    AnswersCleanly aead cfg p keyIdOp (.json (.obj fields)) fates nonces := by
  obtain ⟨res, hends, hstep⟩ := step_unwrap (parseKeyOp_unwrap_ok hop ha) fates nonces
  cases hends with
  | unknown _ => exact answersCleanly_refused hstep (by decide) rfl rfl
  | unreadable hrow hm =>
    obtain ⟨kek, hm', _⟩ := hp.readable.row hrow
    cases hm.symm.trans hm'
  | malformed hrow hm he =>
    rcases b64dField_error he with rfl | ht
    · exact answersCleanly_refused hstep (by decide) rfl rfl
    · exact absurd (.blob hop ha hrow ht) hgood
  | @opened _ _ _ data hrow hm hx hdata =>
    have hout : (step aead cfg p
        (.request (.keyOp keyIdOp (.json (.obj fields))) fates nonces)).2 =
          some ⟨200, .unwrapped (b64e data)⟩ := congrArg Prod.snd hstep
    rw [answersCleanly_ok hout, badField_iff (usedFields_unwrap hop) ha hx]
    exact fun hslip => hgood (.opened hop ha hrow hm hx hdata hslip)
  | refused hrow hm hx hdata => exact answersCleanly_refused hstep (by decide) rfl rfl

/-- **Every other request is.** -/
theorem answersCleanly_of_not_mishandled (h : Accepts aead) (hlocal : cfg.localKey.length = 32)
    (hp : Settled aead cfg p) (hsized : Sized keyIdOp body)
    (hf : ∀ fate ∈ fates, fate = .commits) (hgood : ¬ Mishandled aead cfg p keyIdOp body) :
    AnswersCleanly aead cfg p keyIdOp body fates nonces := by
  have hends := parseKeyOp_ends keyIdOp body
  generalize hparse : parseKeyOp keyIdOp body = parsed at hends
  cases hends with
  | unknown => exact answersCleanly_refused (step_malformed hparse _ _) (by decide) rfl rfl
  | malformed => exact answersCleanly_refused (step_malformed hparse _ _) (by decide) rfl rfl
  | deep hop hknown => exact absurd (.deep hop hknown) hgood
  | aad hop hknown he =>
    rcases b64dField_error he with rfl | ht
    · exact answersCleanly_refused (step_malformed hparse _ _) (by decide) rfl rfl
    · exact absurd (.aad hop hknown ht) hgood
  | wrap hop ha => exact wrap_clean h hlocal hp hop ha hsized hf hgood
  | unwrap hop ha => exact unwrap_clean hp hop ha hgood

end

end

/-- A wrap of `k` with this value for its plaintext. -/
def plaintextOnly (value : Json) : Body := .json (.obj [("plaintext", value)])

theorem sized_plaintextOnly {value : Json}
    (h : ∀ data, b64dField value = .ok data → data.length < 2 ^ 31) :
    Sized "k:wrap" (plaintextOnly value) where
  keyId := by decide +kernel
  field := by
    rintro _ ⟨⟩ name hname data hdata
    rcases List.mem_pair.mp hname with rfl | rfl
    · cases hdata
      decide
    · exact h data hdata

theorem delivered_pullFirst : delivered .tagging onePeer pullFirst = [firstKey] := rfl

end QkdEkm.Ekm
